import Aipl.Lib.AddressText
import Aipl.Std.Str.Bytes
import Mathlib.Data.List.TakeWhile
import Mathlib.Tactic.NormNum

/-! # Addresses from texts

`std/ip`'s `parse` and `parse_endpoint`, which read at places of a text and keep the groups of an IPv6 address in two
halves, beside the grammar of addresses.

* `number_eq`, `v4_eq`, `groups_eq`, `v6_eq` — each reader is the library's, at a place.
* `shl_wide` — the two halves, shifted as one number.
* `texts_read` — what is accepted, and the bytes of it.
-/

namespace Aipl.StdIpText

open Aipl.Lib Aipl.Lib.Outcome AddressText

/-! ### The source's functions -/

/-- An address: an IPv4 address is the low half of `lo`. -/
structure Addr where
  v6 : Bool
  hi : BitVec 64
  lo : BitVec 64
deriving DecidableEq

structure Endpoint where
  addr : Addr
  port : Nat
deriving DecidableEq

def Addr.len (a : Addr) : Nat := if a.v6 then 16 else 4

def Addr.byteAt (a : Addr) (i : Nat) : Outcome Nat := do
  require (decide (i < a.len))
  let word := if ¬ a.v6 then a.lo else if i < 8 then a.hi else a.lo
  let fromEnd := if ¬ a.v6 then 3 - i else if i < 8 then 7 - i else 15 - i
  pure ((word >>> (8 * fromEnd) &&& 255#64).setWidth 32).toNat

/-- A reader's result: the place behind what it read, or -1, and what it read. -/
structure R where
  pos : Int
  val : BitVec 32
deriving DecidableEq

/-- Groups read: the place behind them, how many, whether the last two are an IPv4 address, and their bits. -/
structure G where
  pos : Int
  count : Nat
  v4 : Bool
  hi : BitVec 64
  lo : BitVec 64
deriving DecidableEq

def no : R := ⟨-1, 0⟩

/-- The byte at a place, or -1. -/
def at_ (t : Text) (i : Int) : Int := if 0 ≤ i ∧ i < t.length then ((t.getD i.toNat 0).toNat : Int) else -1

def digit (c : Int) (radix : Nat) : Int :=
  if 48 ≤ c ∧ c ≤ 57 then c - 48
  else if radix ≠ 16 then -1
  else if 97 ≤ c ∧ c ≤ 102 then c - 87
  else if 65 ≤ c ∧ c ≤ 70 then c - 55
  else -1

theorem lt_of_digit {t : Text} {i : Int} {radix : Nat} (h : 0 ≤ digit (at_ t i) radix) : 0 ≤ i ∧ i < t.length := by
  by_contra hout
  rw [at_, if_neg hout, digit, if_neg (by omega)] at h
  split at h
  · omega
  · rw [if_neg (by omega), if_neg (by omega)] at h
    omega

section Number

variable (t : Text) (radix maxDigits max : Nat) (zeroPrefix leadingZero : Bool)

/-- The loop of `number`: the number so far, its digits, and the place. -/
def numberLoop (v n : Nat) (i : Int) : R :=
  if _h : 0 ≤ digit (at_ t i) radix then
    if max < v * radix + (digit (at_ t i) radix).toNat then no
    else if 0 < maxDigits ∧ maxDigits < n + 1 then no
    else numberLoop (v * radix + (digit (at_ t i) radix).toNat) (n + 1) (i + 1)
  else if n = 0 then no
  else if zeroPrefix = false ∧ leadingZero = true ∧ 1 < n then no
  else ⟨i, BitVec.ofNat 32 v⟩
termination_by ((t.length : Int) - i).toNat
decreasing_by
  have := lt_of_digit _h
  omega

def number (pos : Int) : R :=
  numberLoop t radix maxDigits max zeroPrefix (decide (at_ t pos = 48)) 0 0 pos

end Number

/-- The loop of `v4`. -/
def v4Loop (t : Text) (k : Nat) (i : Int) (v : BitVec 32) : R :=
  if k < 4 then
    if 0 < k ∧ at_ t i ≠ 46 then no
    else
      let r := number t 10 3 255 false (if 0 < k then i + 1 else i)
      if r.pos < 0 then r else v4Loop t (k + 1) r.pos (v <<< 8 ||| r.val)
  else ⟨i, v⟩
termination_by 4 - k

def v4 (t : Text) (pos : Int) : R := v4Loop t 0 pos 0

def shlHi (hi lo : BitVec 64) (bits : Nat) : BitVec 64 :=
  if bits = 0 then hi
  else if 128 ≤ bits then 0#64
  else if 64 ≤ bits then lo <<< (bits - 64)
  else hi <<< bits ||| lo >>> (64 - bits)

def shlLo (lo : BitVec 64) (bits : Nat) : BitVec 64 :=
  if bits = 0 then lo else if 64 ≤ bits then 0#64 else lo <<< bits

/-- The loop of `groups`. -/
def groupsLoop (t : Text) (limit : Nat) (hi lo : BitVec 64) (i : Int) (count : Nat) : G :=
  if count < limit then
    let sep := decide (count = 0) || decide (at_ t i = 58)
    let j := if 0 < count then i + 1 else i
    if (sep = true ∧ count < limit - 1) ∧ 0 ≤ (v4 t j).pos then
      { pos := (v4 t j).pos, count := count + 2, v4 := true, hi := shlHi hi lo 32,
        lo := shlLo lo 32 ||| ((v4 t j).val.setWidth 64 &&& 4294967295#64) }
    else if sep = false then { pos := i, count, v4 := false, hi, lo }
    else
      let g := number t 16 4 65535 true j
      if g.pos < 0 then { pos := i, count, v4 := false, hi, lo }
      else groupsLoop t limit (shlHi hi lo 16) (shlLo lo 16 ||| g.val.setWidth 64) g.pos (count + 1)
  else { pos := i, count, v4 := false, hi, lo }
termination_by limit - count

def groups (t : Text) (pos : Int) (limit : Nat) : G := groupsLoop t limit 0 0 pos 0

def v6 (t : Text) (pos : Int) : G :=
  let none : G := ⟨-1, 0, false, 0, 0⟩
  let h := groups t pos 8
  if h.count = 8 then h
  -- an IPv4 part only at the end
  else if h.v4 = true then none
  else
    let i := h.pos
    if ¬ (at_ t i = 58 ∧ at_ t (i + 1) = 58) then none
    else
      let tl := groups t (i + 2) (7 - h.count)
      let up := 16 * (8 - h.count)
      { pos := tl.pos, count := 8, v4 := false, hi := shlHi h.hi h.lo up ||| tl.hi, lo := shlLo h.lo up ||| tl.lo }

def port (t : Text) (pos : Int) : R := if at_ t pos = 58 then number t 10 0 65535 true (pos + 1) else no

def parse (t : Text) : Option Addr :=
  let n := t.length
  let r := v4 t 0
  if 0 ≤ r.pos then
    if r.pos = n then some ⟨false, 0, r.val.setWidth 64 &&& 4294967295#64⟩ else none
  else
    let g := v6 t 0
    if g.pos = n then some ⟨true, g.hi, g.lo⟩ else none

def parseEndpoint (t : Text) : Option Endpoint :=
  let n := t.length
  let r := v4 t 0
  if 0 ≤ r.pos ∧ 0 ≤ (port t r.pos).pos then
    let p := port t r.pos
    if p.pos = n then some ⟨⟨false, 0, r.val.setWidth 64 &&& 4294967295#64⟩, p.val.toNat⟩ else none
  else if at_ t 0 ≠ 91 then none
  else
    let g := v6 t 1
    if g.pos < 0 then none
    else if at_ t g.pos ≠ 93 then none
    else
      let p := port t (g.pos + 1)
      if p.pos = n then some ⟨⟨true, g.hi, g.lo⟩, p.val.toNat⟩ else none

/-! ### Places -/

/-- The place of a rest of a text. -/
def At (t : Text) (pos : Int) (l : Text) : Prop := ∃ pre, t = pre ++ l ∧ pos = (pre.length : Int)

variable {t l rest : Text} {pos : Int} {c : Byte}

theorem at_start (t : Text) : At t 0 t := ⟨[], rfl, rfl⟩

theorem At.pos_eq (h : At t pos l) : pos = (t.length : Int) - l.length := by
  obtain ⟨pre, rfl, rfl⟩ := h
  rw [List.length_append]
  omega

theorem At.nonneg (h : At t pos l) : 0 ≤ pos := by
  obtain ⟨pre, rfl, rfl⟩ := h
  exact Int.natCast_nonneg _

theorem At.append {a : Text} (h : At t pos (a ++ l)) : At t (pos + a.length) l := by
  obtain ⟨pre, rfl, rfl⟩ := h
  exact ⟨pre ++ a, by simp, by simp⟩

theorem At.next (h : At t pos (c :: l)) : At t (pos + 1) l := At.append (a := [c]) h

theorem At.at_nil (h : At t pos []) : at_ t pos = -1 := by
  obtain ⟨pre, rfl, rfl⟩ := h
  rw [at_, if_neg (by simp)]

theorem At.at_cons (h : At t pos (c :: l)) : at_ t pos = (c.toNat : Int) := by
  obtain ⟨pre, rfl, rfl⟩ := h
  rw [at_, if_pos (by simp)]
  simp

/-- A byte is looked for. -/
theorem At.at_eq_iff (h : At t pos l) (b : Byte) : at_ t pos = (b.toNat : Int) ↔ l.head? = some b := by
  cases l with
  | nil =>
    rw [h.at_nil]
    simp
  | cons c l =>
    rw [h.at_cons]
    simp [← BitVec.toNat_inj]

/-- What a reader of the library read, as a place. -/
def toR (t : Text) : Option (Nat × Text) → R
  | none => no
  | some r => ⟨(t.length : Int) - r.2.length, BitVec.ofNat 32 r.1⟩

/-! ### Numbers -/

theorem digit_eq (c : Byte) (radix : Nat) : digit (c.toNat : Int) radix = ((digitOf radix c).map Int.ofNat).getD (-1) := by
  rw [digit, digitOf]
  split_ifs <;> simp <;> omega

theorem digit_at (h : At t pos l) (radix : Nat) :
    digit (at_ t pos) radix = ((l.head?.bind (digitOf radix)).map Int.ofNat).getD (-1) := by
  cases l with
  | nil =>
    rw [h.at_nil, digit]
    simp
  | cons c l =>
    rw [h.at_cons, digit_eq]
    rfl

/-- What is left to check when the digits are known. -/
def Kept (f : Form) (leadingZero : Bool) (a : Text) : Prop :=
  a ≠ [] ∧ (f.digits = 0 ∨ a.length ≤ f.digits) ∧ valueOf f.radix a ≤ f.most ∧
    (f.zeros = true ∨ leadingZero = false ∨ a.length ≤ 1)

theorem valueOf_append_one {radix d : Nat} {a : Text} (hd : digitOf radix c = some d) :
    valueOf radix (a ++ [c]) = valueOf radix a * radix + d := by
  rw [valueOf, List.map_append, List.map_singleton, Numeral.number_concat, hd, Nat.mul_comm]
  rfl

theorem valueOf_le_append {radix : Nat} (hr : 0 < radix) (a b : Text) : valueOf radix a ≤ valueOf radix (a ++ b) := by
  rw [valueOf, valueOf, List.map_append]
  exact Numeral.number_le_append hr _ _

instance (f : Form) (leadingZero : Bool) (a : Text) : Decidable (Kept f leadingZero a) :=
  inferInstanceAs (Decidable (_ ∧ _ ∧ _ ∧ _))

section Loop

variable {f : Form} {leadingZero : Bool} {a : Text}

/-- Where the digits end. -/
theorem numberLoop_end (hstop : ¬ 0 ≤ digit (at_ t pos) f.radix) (hdigits : f.digits = 0 ∨ a.length ≤ f.digits)
    (hmost : valueOf f.radix a ≤ f.most) :
    numberLoop t f.radix f.digits f.most f.zeros leadingZero (valueOf f.radix a) a.length pos =
      if Kept f leadingZero a then ⟨pos, BitVec.ofNat 32 (valueOf f.radix a)⟩ else no := by
  rw [numberLoop, dif_neg hstop]
  by_cases hnil : a = []
  · rw [if_pos (by rw [hnil]; rfl), if_neg fun hk => hk.1 hnil]
  · rw [if_neg fun h => hnil (List.length_eq_zero_iff.mp h)]
    by_cases hz : f.zeros = false ∧ leadingZero = true ∧ 1 < a.length
    · rw [if_pos hz, if_neg]
      rintro ⟨-, -, -, hk⟩
      rcases hk with hk | hk | hk
      · rw [hz.1] at hk
        cases hk
      · rw [hz.2.1] at hk
        cases hk
      · exact absurd hz.2.2 (Nat.not_lt.mpr hk)
    · have hkept : Kept f leadingZero a := by
        refine ⟨hnil, hdigits, hmost, ?_⟩
        simp only [not_and, Nat.not_lt] at hz
        cases hzeros : f.zeros with
        | true => exact .inl rfl
        | false =>
          cases hlead : leadingZero with
          | false => exact .inr (.inl rfl)
          | true => exact .inr (.inr (hz hzeros hlead))
      rw [if_neg hz, if_pos hkept]

/-- **The digits are read**, and checked on the way. -/
theorem numberLoop_eq (leadingZero : Bool) (a : Text) (hradix : 0 < f.radix) (h : At t pos l)
    (hdigits : f.digits = 0 ∨ a.length ≤ f.digits)
    (hmost : valueOf f.radix a ≤ f.most) :
    numberLoop t f.radix f.digits f.most f.zeros leadingZero (valueOf f.radix a) a.length pos =
      if Kept f leadingZero (a ++ l.takeWhile (isDigit f.radix)) then
        ⟨(t.length : Int) - (l.dropWhile (isDigit f.radix)).length,
          BitVec.ofNat 32 (valueOf f.radix (a ++ l.takeWhile (isDigit f.radix)))⟩
      else no := by
  induction l generalizing a pos with
  | nil =>
    have hstop : ¬ 0 ≤ digit (at_ t pos) f.radix := by
      rw [digit_at h]
      simp
    rw [numberLoop_end hstop hdigits hmost, h.pos_eq]
    simp
  | cons c l ih =>
    cases hd : digitOf f.radix c with
    | none =>
      have hstop : ¬ 0 ≤ digit (at_ t pos) f.radix := by
        rw [digit_at h]
        simp [hd]
      have hc : isDigit f.radix c = false := by rw [isDigit, hd]; rfl
      rw [numberLoop_end hstop hdigits hmost, h.pos_eq]
      simp [hc]
    | some d =>
      have hdig : digit (at_ t pos) f.radix = (d : Int) := by
        rw [digit_at h]
        simp [hd]
      have hc : isDigit f.radix c = true := by rw [isDigit, hd]; rfl
      have hrun : a ++ (c :: l).takeWhile (isDigit f.radix) = (a ++ [c]) ++ l.takeWhile (isDigit f.radix) := by
        simp [hc]
      have hvalue := valueOf_append_one (a := a) hd
      have hlen : (a ++ [c]).length = a.length + 1 := by simp
      rw [numberLoop, dif_pos (by rw [hdig]; exact Int.natCast_nonneg d), hdig, Int.toNat_natCast, ← hvalue, ← hlen, hrun,
        List.dropWhile_cons, if_pos hc]
      -- the loop stops at the first digit too many; a number so far that is too large stays so
      by_cases hover : f.most < valueOf f.radix (a ++ [c])
      · have hle := valueOf_le_append hradix (a ++ [c]) (l.takeWhile (isDigit f.radix))
        rw [if_pos hover, if_neg]
        rintro ⟨-, -, hk, -⟩
        omega
      · rw [if_neg hover]
        by_cases hmany : 0 < f.digits ∧ f.digits < (a ++ [c]).length
        · rw [if_pos hmany, if_neg]
          rintro ⟨-, hk, -, -⟩
          rw [List.length_append] at hk
          omega
        · rw [if_neg hmany]
          exact ih _ h.next (by omega) (by omega)

theorem kept_iff (h : At t pos l) : Kept f (decide (at_ t pos = 48)) (l.takeWhile (isDigit f.radix)) ↔
    Written f (l.takeWhile (isDigit f.radix)) := by
  have hhead : l.takeWhile (isDigit f.radix) ≠ [] → (l.takeWhile (isDigit f.radix)).head? = l.head? := by
    intro hne
    cases l with
    | nil => rfl
    | cons c l =>
      rw [List.takeWhile_cons] at hne ⊢
      split at hne <;> simp_all
  have hzero : decide (at_ t pos = 48) = false ↔ l.head? ≠ some 48#8 := by
    rw [decide_eq_false_iff_not]
    exact not_congr (h.at_eq_iff 48#8)
  constructor
  · rintro ⟨hne, hdigits, hmost, hzeros⟩
    refine ⟨hne, fun c hc => (List.mem_takeWhile_imp hc), hdigits, hmost, ?_⟩
    rw [hhead hne, ← hzero]
    have hpos := List.length_pos_iff.mpr hne
    rcases hzeros with hz | hz | hz
    · exact .inl hz
    · exact .inr (.inr hz)
    · exact .inr (.inl (by omega))
  · rintro ⟨hne, -, hdigits, hmost, hzeros⟩
    refine ⟨hne, hdigits, hmost, ?_⟩
    rw [hhead hne, ← hzero] at hzeros
    rcases hzeros with hz | hz | hz
    · exact .inl hz
    · exact .inr (.inr (by omega))
    · exact .inr (.inl hz)

/-- **`number`** at a place is the library's reader of what is there. -/
theorem number_eq (hradix : 0 < f.radix) (h : At t pos l) :
    number t f.radix f.digits f.most f.zeros pos = toR t (readNumeral f l) := by
  have hloop := numberLoop_eq (decide (at_ t pos = 48)) [] hradix h (.inr (Nat.zero_le _))
    (Nat.zero_le _)
  rw [number]
  refine hloop.trans ?_
  simp only [List.nil_append, kept_iff h, readNumeral]
  split <;> rfl

end Loop

/-! ### Bits -/

theorem ofNat_shl (w m s : Nat) : BitVec.ofNat w m <<< s = BitVec.ofNat w (m * 2 ^ s) := by
  apply BitVec.eq_of_toNat_eq
  rw [BitVec.toNat_shiftLeft, BitVec.toNat_ofNat, BitVec.toNat_ofNat, Nat.shiftLeft_eq, Nat.mod_mul_mod]

theorem ofNat_shl_or {w s m x : Nat} (hx : x < 2 ^ s) :
    BitVec.ofNat w m <<< s ||| BitVec.ofNat w x = BitVec.ofNat w (m * 2 ^ s + x) := by
  rw [ofNat_shl, ← BitVec.ofNat_or, ← Nat.shiftLeft_eq, Nat.shiftLeft_add_eq_or_of_lt hx]

/-- The two halves, shifted as one number. -/
theorem shl_wide (hi lo : BitVec 64) (bits : Nat) : shlHi hi lo bits ++ shlLo lo bits = (hi ++ lo) <<< bits := by
  apply BitVec.eq_of_getLsbD_eq
  intro i hi'
  rw [BitVec.getLsbD_append, BitVec.getLsbD_shiftLeft, BitVec.getLsbD_append, shlHi, shlLo]
  rcases Nat.eq_zero_or_pos bits with rfl | hpos
  · simp [hi']
  · rcases Nat.lt_or_ge bits 64 with h64 | h64
    · simp only [hpos.ne', show ¬ 128 ≤ bits by omega, show ¬ 64 ≤ bits by omega, if_false, BitVec.getLsbD_or,
        BitVec.getLsbD_shiftLeft, BitVec.getLsbD_ushiftRight]
      grind
    · simp only [hpos.ne', h64, if_true, if_false]
      split
      · grind
      · split
        · grind
        · have hsub : i - 64 - (bits - 64) = i - bits := by omega
          rw [BitVec.getLsbD_shiftLeft, hsub]
          grind

theorem or_wide (a b c d : BitVec 64) : (a ||| c) ++ (b ||| d) = (a ++ b) ||| (c ++ d) := by
  apply BitVec.eq_of_getLsbD_eq
  intro i hi
  simp only [BitVec.getLsbD_append, BitVec.getLsbD_or]
  split <;> rfl

/-- Groups as one number, the last group lowest. -/
def wide (gs : List Nat) : BitVec 128 := BitVec.ofNat 128 (Numeral.number 65536 gs)

def hiOf (gs : List Nat) : BitVec 64 := (wide gs).extractLsb' 64 64

def loOf (gs : List Nat) : BitVec 64 := (wide gs).extractLsb' 0 64

theorem wide_eq (gs : List Nat) : hiOf gs ++ loOf gs = wide gs := BitVec.extractLsb'_append_extractLsb'

theorem append_eq_wide {hi lo : BitVec 64} {gs : List Nat} (h : hi ++ lo = wide gs) : hi = hiOf gs ∧ lo = loOf gs := by
  rw [hiOf, loOf, ← h]
  exact ⟨BitVec.extractLsb'_append_eq_left.symm, BitVec.extractLsb'_append_eq_right.symm⟩

/-- **Groups behind groups**: the first are shifted, and the others added. -/
theorem wide_append (gs : List Nat) {gs' : List Nat} {hi lo : BitVec 64} {s : Nat} (hs : s = 16 * gs'.length)
    (hlt : ∀ g ∈ gs', g < 65536) (hadd : hi ++ lo = wide gs') :
    (shlHi (hiOf gs) (loOf gs) s ||| hi) = hiOf (gs ++ gs') ∧ (shlLo (loOf gs) s ||| lo) = loOf (gs ++ gs') := by
  apply append_eq_wide
  have hpow : (2 : Nat) ^ s = 65536 ^ gs'.length := by
    rw [hs, pow_mul]
    norm_num
  have hx : Numeral.number 65536 gs' < 2 ^ s := by
    rw [hpow]
    exact Numeral.number_lt hlt
  rw [or_wide, shl_wide, wide_eq, hadd, wide, wide, wide, ofNat_shl_or hx, Numeral.number_append, hpow]

/-! ### IPv4 addresses -/

theorem At.behind {a : Text} (h : At t pos (a ++ l)) : At t ((t.length : Int) - l.length) l := by
  have hnext := h.append
  rwa [hnext.pos_eq] at hnext

theorem octet_lt {v : Nat} (h : readNumeral octet l = some (v, rest)) : v < 256 := by
  obtain ⟨a, -, hw, rfl, -⟩ := readNumeral_iff.mp h
  exact Nat.lt_succ_of_le hw.most

theorem number_octet (h : At t pos l) : number t 10 3 255 false pos = toR t (readNumeral octet l) :=
  number_eq (f := octet) (by decide) h

/-- What the library read of an IPv4 address, behind bytes that are read. -/
def toV4 (t : Text) (bs : List Nat) : Option (List Nat × Text) → R
  | none => no
  | some r => ⟨(t.length : Int) - r.2.length, BitVec.ofNat 32 (Numeral.number 256 (bs ++ r.1))⟩

/-- A number of an IPv4 address, and the others. -/
theorem v4Loop_number {k : Nat} (bs : List Nat) {i : Int} {o : Option (List Nat × Text)} (hk : k < 4)
    (hsep : ¬ (0 < k ∧ at_ t i ≠ 46)) (hat : At t (if 0 < k then i + 1 else i) l)
    (hnone : readNumeral octet l = none → o = none)
    (hsome : ∀ v rest, readNumeral octet l = some (v, rest) → At t ((t.length : Int) - rest.length) rest →
      v4Loop t (k + 1) ((t.length : Int) - rest.length) (BitVec.ofNat 32 (Numeral.number 256 (bs ++ [v]))) = toV4 t bs o) :
    v4Loop t k i (BitVec.ofNat 32 (Numeral.number 256 bs)) = toV4 t bs o := by
  rw [v4Loop, if_pos hk, if_neg hsep, number_octet hat]
  dsimp only
  cases hread : readNumeral octet l with
  | none =>
    rw [hnone hread]
    rfl
  | some r =>
    obtain ⟨v, rest⟩ := r
    obtain ⟨a, rfl, -⟩ := readNumeral_iff.mp hread
    have hrest := hat.behind
    have hbits : BitVec.ofNat 32 (Numeral.number 256 bs) <<< 8 ||| BitVec.ofNat 32 v =
        BitVec.ofNat 32 (Numeral.number 256 (bs ++ [v])) := by
      rw [ofNat_shl_or (s := 8) (octet_lt hread), Numeral.number_concat, Nat.mul_comm]
      rfl
    rw [toR, if_neg (Int.not_lt.mpr hrest.nonneg)]
    dsimp only
    rw [hbits]
    exact hsome v rest hread hrest

theorem v4Loop_eq {j k : Nat} {bs : List Nat} (hk : k + j = 4) (hpos : 0 < k) (h : At t pos l) :
    v4Loop t k pos (BitVec.ofNat 32 (Numeral.number 256 bs)) = toV4 t bs (readOctets j l) := by
  induction j generalizing k pos l bs with
  | zero =>
    rw [v4Loop, if_neg (by omega), readOctets, toV4, h.pos_eq, List.append_nil]
  | succ j ih =>
    by_cases hdot : at_ t pos = 46
    · obtain ⟨l, rfl⟩ : ∃ l', l = 46#8 :: l' := by
        have hhead := (h.at_eq_iff 46#8).mp hdot
        cases l with
        | nil => cases hhead
        | cons c l => exact ⟨l, by rw [Option.some.inj hhead]⟩
      refine v4Loop_number (l := l) _ (by omega) (fun hne => hne.2 hdot) (by rw [if_pos hpos]; exact h.next) ?_ ?_
      · intro hread
        simp [readOctets, hread]
      · intro v rest hread hrest
        rw [ih (by omega) (by omega) hrest]
        cases hocts : readOctets j rest <;> simp [readOctets, hread, hocts, toV4]
    · have hread : readOctets (j + 1) l = none := by
        cases l with
        | nil => rfl
        | cons c l =>
          have hc : c ≠ 46#8 := by
            rintro rfl
            exact hdot h.at_cons
          simp [readOctets, hc]
      rw [v4Loop, if_pos (by omega), if_pos ⟨hpos, hdot⟩, hread]
      rfl

/-- **`v4`** at a place. -/
theorem v4_eq (h : At t pos l) : v4 t pos = toV4 t [] (readV4 l) := by
  refine v4Loop_number (l := l) [] (by decide) (fun hne => absurd hne.1 (by decide)) h ?_ ?_
  · intro hread
    simp [readV4, hread]
  · intro v rest hread hrest
    rw [v4Loop_eq (j := 3) (by decide) (by decide) hrest]
    cases hocts : readOctets 3 rest <;> simp [readV4, hread, hocts, toV4]

/-! ### IPv6 addresses -/

theorem number_group (h : At t pos l) : number t 16 4 65535 true pos = toR t (readNumeral group l) :=
  number_eq (f := group) (by decide) h

theorem group_lt {v : Nat} (h : readNumeral group l = some (v, rest)) : v < 65536 := by
  obtain ⟨a, -, hw, rfl, -⟩ := readNumeral_iff.mp h
  exact Nat.lt_succ_of_le hw.most

/-- Groups that are read, as `groups` has them behind those before. -/
def toG (t : Text) (gs : List Nat) (r : List Nat × Bool × Text) : G where
  pos := (t.length : Int) - r.2.2.length
  count := gs.length + r.1.length
  v4 := r.2.1
  hi := hiOf (gs ++ r.1)
  lo := loOf (gs ++ r.1)

theorem hi_lo_ofNat {w : Nat} {v : BitVec 64} {gs : List Nat} (hv : v = BitVec.ofNat 64 w) (hw : w < 2 ^ 64)
    (hgs : Numeral.number 65536 gs = w) : (0#64 : BitVec 64) ++ v = wide gs := by
  rw [wide, hgs, hv]
  apply BitVec.eq_of_toNat_eq
  rw [BitVec.toNat_append, BitVec.toNat_ofNat, BitVec.toNat_ofNat, BitVec.toNat_ofNat, Nat.mod_eq_of_lt hw]
  have hwide : w < 2 ^ 128 := lt_trans hw (by decide)
  rw [Nat.mod_eq_of_lt hwide]
  simp

/-- The bits of an IPv4 address, behind groups. -/
theorem wide_v4 (gs : List Nat) {bs : List Nat} (h : V4 l bs) :
    shlHi (hiOf gs) (loOf gs) 32 = hiOf (gs ++ pairs bs) ∧
    (shlLo (loOf gs) 32 ||| ((BitVec.ofNat 32 (Numeral.number 256 bs)).setWidth 64 &&& 4294967295#64)) =
      loOf (gs ++ pairs bs) := by
  obtain ⟨hnum, hlt⟩ := h.number_pairs
  have hbound : Numeral.number 256 bs < 2 ^ 32 := by
    have := Numeral.number_lt h.byte_lt
    rwa [h.length_eq] at this
  have hval : (BitVec.ofNat 32 (Numeral.number 256 bs)).setWidth 64 &&& 4294967295#64 =
      BitVec.ofNat 64 (Numeral.number 256 bs) := by
    apply BitVec.eq_of_toNat_eq
    have hmask : (4294967295#64 : BitVec 64).toNat = 2 ^ 32 - 1 := by decide
    rw [BitVec.toNat_and, hmask, Nat.and_two_pow_sub_one_eq_mod, BitVec.toNat_setWidth, BitVec.toNat_ofNat,
      BitVec.toNat_ofNat]
    omega
  have happend := wide_append gs (s := 32) (by rw [h.length_pairs]) hlt
    (hi_lo_ofNat hval (lt_trans hbound (by decide)) hnum)
  rwa [BitVec.or_zero] at happend

theorem wide_group (gs : List Nat) {g : Nat} (hg : g < 65536) :
    shlHi (hiOf gs) (loOf gs) 16 = hiOf (gs ++ [g]) ∧
    (shlLo (loOf gs) 16 ||| (BitVec.ofNat 32 g).setWidth 64) = loOf (gs ++ [g]) := by
  have hval : (BitVec.ofNat 32 g).setWidth 64 = BitVec.ofNat 64 g := by
    apply BitVec.eq_of_toNat_eq
    rw [BitVec.toNat_setWidth, BitVec.toNat_ofNat, BitVec.toNat_ofNat]
    omega
  have happend := wide_append gs (s := 16) (show 16 = 16 * [g].length from rfl) (by simpa using hg)
    (hi_lo_ofNat hval (by omega) (by simp [Numeral.number]))
  rwa [BitVec.or_zero] at happend

/-- The separator in front of a group, as the loop looks for it. -/
theorem separated_some {count : Nat} {l' : Text} (h : At t pos l) (hsep : separated (decide (count = 0)) l = some l') :
    (decide (count = 0) || decide (at_ t pos = 58)) = true ∧ At t (if 0 < count then pos + 1 else pos) l' := by
  by_cases h0 : count = 0
  · subst h0
    cases hsep
    exact ⟨rfl, h⟩
  · have hpos : 0 < count := Nat.pos_of_ne_zero h0
    cases l with
    | nil => simp [separated, h0] at hsep
    | cons c l =>
      simp only [separated, h0, decide_false] at hsep
      split at hsep
      · next hc =>
        subst hc
        cases hsep
        have hat : at_ t pos = 58 := h.at_cons
        simp [hat, hpos, h.next]
      · cases hsep

theorem separated_none {count : Nat} (h : At t pos l) (hsep : separated (decide (count = 0)) l = none) :
    (decide (count = 0) || decide (at_ t pos = 58)) = false := by
  by_cases h0 : count = 0
  · simp [separated, h0] at hsep
  · cases l with
    | nil => simp [h0, h.at_nil]
    | cons c l =>
      simp only [separated, h0, decide_false] at hsep
      split at hsep
      · cases hsep
      · next hc =>
        have hne : at_ t pos ≠ 58 := fun heq => hc (by simpa using (h.at_eq_iff 58#8).mp heq)
        simp [h0, hne]

theorem toV4_pos {bs : List Nat} {o : Option (List Nat × Text)} (h : 0 ≤ (toV4 t bs o).pos) : ∃ r, o = some r := by
  cases o with
  | none => exact absurd h (Int.not_le.mpr (by decide : (-1 : Int) < 0))
  | some r => exact ⟨r, rfl⟩

theorem toG_stop {gs : List Nat} (h : At t pos l) :
    toG t gs ([], false, l) = ⟨pos, gs.length, false, hiOf gs, loOf gs⟩ := by
  rw [toG, h.pos_eq, List.append_nil]
  rfl

theorem toG_cons {gs : List Nat} {g : Nat} (r : List Nat × Bool × Text) :
    toG t (gs ++ [g]) r = toG t gs (g :: r.1, r.2) := by
  simp only [toG, List.length_append, List.length_cons, List.length_nil, List.append_assoc, List.cons_append, List.nil_append,
    G.mk.injEq, and_true, true_and]
  omega

/-- **The loop of `groups`** is the library's reader, behind groups that are read. -/
theorem groupsLoop_eq {k limit : Nat} (gs : List Nat) (hk : gs.length + k = limit) (h : At t pos l) :
    groupsLoop t limit (hiOf gs) (loOf gs) pos gs.length = toG t gs (readGroups k (decide (gs.length = 0)) l) := by
  induction k generalizing pos l gs with
  | zero =>
    rw [groupsLoop, if_neg (by omega), readGroups, toG_stop h]
  | succ k ih =>
    rw [groupsLoop, if_pos (by omega)]
    dsimp only
    cases hsep : separated (decide (gs.length = 0)) l with
    | none =>
      rw [separated_none h hsep, if_neg (by simp), if_pos rfl, readGroups_stop hsep, toG_stop h]
    | some l' =>
      obtain ⟨hyes, hat⟩ := separated_some h hsep
      have hlast : gs.length < limit - 1 ↔ 0 < k := by omega
      -- while two groups are to come, an IPv4 address is tried before a group
      rw [hyes, v4_eq hat, number_group hat]
      cases hv4 : (if 0 < k then readV4 l' else none : Option (List Nat × Text)) with
      | some r =>
        obtain ⟨bs, rest⟩ := r
        rw [readGroups_v4 hsep hv4]
        split at hv4
        · next hk0 =>
          obtain ⟨u, rfl, hbs, -⟩ := readV4_iff.mp hv4
          obtain ⟨hhi, hlo⟩ := wide_v4 gs hbs
          have hrest := hat.behind
          rw [hv4, if_pos ⟨⟨rfl, hlast.mpr hk0⟩, hrest.nonneg⟩, toG, toV4]
          dsimp only
          rw [List.nil_append, hhi, hlo, hbs.length_pairs]
        · cases hv4
      | none =>
        have hnot : ¬ ((true = true ∧ gs.length < limit - 1) ∧ 0 ≤ (toV4 t [] (readV4 l')).pos) := by
          rintro ⟨⟨-, hlt⟩, hpos⟩
          obtain ⟨r, hr⟩ := toV4_pos hpos
          rw [if_pos (hlast.mp hlt), hr] at hv4
          cases hv4
        rw [if_neg hnot, if_neg (by simp)]
        cases hnum : readNumeral group l' with
        | none =>
          rw [readGroups_none hsep hv4 hnum, toG_stop h]
          rfl
        | some r =>
          obtain ⟨g, rest⟩ := r
          have hg := group_lt hnum
          rw [readGroups_group hsep hv4 hnum, ← toG_cons]
          obtain ⟨a, rfl, -⟩ := readNumeral_iff.mp hnum
          obtain ⟨hhi, hlo⟩ := wide_group gs hg
          have hrest := hat.behind
          have hlen : (gs ++ [g]).length = gs.length + 1 := by simp
          have hih := ih (gs ++ [g]) (by omega) hrest
          rw [hlen, decide_eq_false (Nat.succ_ne_zero _)] at hih
          rw [toR, if_neg (Int.not_lt.mpr hrest.nonneg)]
          dsimp only
          rw [hhi, hlo, hih]

/-- **`groups`** at a place. -/
theorem groups_eq (h : At t pos l) (limit : Nat) : groups t pos limit = toG t [] (readGroups limit true l) :=
  groupsLoop_eq [] (Nat.zero_add limit) h

theorem At.colon_iff (h : At t pos l) : at_ t pos = 58 ∧ at_ t (pos + 1) = 58 ↔ ∃ l', l = 58#8 :: 58#8 :: l' := by
  constructor
  · rintro ⟨h1, h2⟩
    have hhead := (h.at_eq_iff 58#8).mp h1
    cases l with
    | nil => cases hhead
    | cons c l =>
      cases hhead
      have hhead := (h.next.at_eq_iff 58#8).mp h2
      cases l with
      | nil => cases hhead
      | cons c l =>
        cases hhead
        exact ⟨l, rfl⟩
  · rintro ⟨l', rfl⟩
    exact ⟨h.at_cons, h.next.at_cons⟩

/-- What `v6` returns for what the library read. -/
def Reads6 (t : Text) (g : G) : Option (List Nat × Text) → Prop
  | none => g.pos = -1
  | some r => g.pos = (t.length : Int) - r.2.length ∧ g.hi = hiOf r.1 ∧ g.lo = loOf r.1

/-- Groups before a gap, shifted, and those behind it. -/
theorem wide_gap (hs ls : List Nat) (hlen : hs.length + ls.length ≤ 7) (hls : ∀ g ∈ ls, g < 65536) :
    (shlHi (hiOf hs) (loOf hs) (16 * (8 - hs.length)) ||| hiOf ls) =
      hiOf (hs ++ (List.replicate (8 - (hs.length + ls.length)) 0 ++ ls)) ∧
    (shlLo (loOf hs) (16 * (8 - hs.length)) ||| loOf ls) =
      loOf (hs ++ (List.replicate (8 - (hs.length + ls.length)) 0 ++ ls)) := by
  have hzeros : ∀ n, Numeral.number 65536 (List.replicate n 0 ++ ls) = Numeral.number 65536 ls := by
    intro n
    induction n with
    | zero => rfl
    | succ n ih => rw [List.replicate_succ, List.cons_append, Numeral.number_cons, Nat.zero_mul, Nat.zero_add, ih]
  refine wide_append hs ?_ ?_ ?_
  · rw [List.length_append, List.length_replicate]
    congr 1
    omega
  · intro g hg
    rcases List.mem_append.mp hg with hg | hg
    · rw [List.eq_of_mem_replicate hg]
      decide
    · exact hls g hg
  · rw [wide_eq, wide, wide, hzeros]

/-- **`v6`** at a place. -/
theorem v6_eq (h : At t pos l) : Reads6 t (v6 t pos) (readV6 l) := by
  rcases hg : readGroups 8 true l with ⟨hs, m, r⟩
  obtain ⟨hlen, u, hu, rfl⟩ := readGroups_part hg
  have hr := h.behind
  rw [v6, readV6, groups_eq h, hg]
  simp only [toG, List.length_nil, Nat.zero_add, List.nil_append]
  by_cases h8 : hs.length = 8
  · rw [if_pos h8, if_pos h8]
    exact ⟨rfl, rfl, rfl⟩
  · rw [if_neg h8, if_neg h8]
    cases m with
    | true => exact rfl
    | false =>
      have hcolon := hr.colon_iff
      simp only [Bool.false_eq_true, if_false]
      by_cases hgap : ∃ l', r = 58#8 :: 58#8 :: l'
      · obtain ⟨l', rfl⟩ := hgap
        rcases hg' : readGroups (7 - hs.length) true l' with ⟨ls, m', r'⟩
        obtain ⟨hlen', u', hu', rfl⟩ := readGroups_part hg'
        have hat' : At t ((t.length : Int) - (58#8 :: 58#8 :: (u' ++ r')).length + 2) (u' ++ r') := by
          have hnext := hr.next.next
          rwa [Int.add_assoc] at hnext
        obtain ⟨hhi, hlo⟩ := wide_gap hs ls (by omega) hu'.group_lt
        rw [if_neg (not_not.mpr (hcolon.mpr ⟨_, rfl⟩)), groups_eq hat', hg']
        simp only [toG, List.length_nil, Nat.zero_add, List.nil_append, afterGap, and_self, if_true, Option.map_some]
        rw [hg']
        exact ⟨rfl, hhi, hlo⟩
      · have hnone : afterGap r = none := by
          cases hafter : afterGap r with
          | none => rfl
          | some l' => exact absurd ⟨l', afterGap_eq hafter⟩ hgap
        rw [if_pos (mt hcolon.mp hgap), hnone]
        exact rfl

/-! ### Whole texts -/

theorem port_eq (h : At t pos l) : port t pos = toR t (readPort l) := by
  rw [port]
  by_cases hcolon : at_ t pos = 58
  · have hhead := (h.at_eq_iff 58#8).mp hcolon
    cases l with
    | nil => cases hhead
    | cons c l =>
      cases hhead
      rw [if_pos hcolon]
      exact number_eq (f := portNumber) (by decide) h.next
  · have hnone : readPort l = none := by
      cases l with
      | nil => rfl
      | cons c l =>
        have hc : c ≠ 58#8 := by
          rintro rfl
          exact hcolon h.at_cons
        simp [readPort, hc]
    rw [if_neg hcolon, hnone]
    rfl

/-- The record of an address. -/
def addrOf : Meaning → Addr
  | .v4 bs => ⟨false, 0, (BitVec.ofNat 32 (Numeral.number 256 bs)).setWidth 64 &&& 4294967295#64⟩
  | .v6 gs => ⟨true, hiOf gs, loOf gs⟩

theorem length_sub_eq_iff (t l : Text) : (t.length : Int) - l.length = t.length ↔ l = [] := by
  rw [← List.length_eq_zero_iff]
  omega

/-- **`parse`** is the library's reader. -/
theorem parse_eq (t : Text) : parse t = (readAddress t).map addrOf := by
  rw [parse, readAddress, v4_eq (at_start t)]
  cases hv4 : readV4 t with
  | some r =>
    obtain ⟨bs, rest⟩ := r
    obtain ⟨u, rfl, -⟩ := readV4_iff.mp hv4
    have hrest := (at_start (u ++ rest)).behind
    rw [toV4]
    dsimp only
    rw [if_pos hrest.nonneg]
    simp only [length_sub_eq_iff, List.nil_append]
    cases rest <;> simp [whole, addrOf]
  | none =>
    have h6 := v6_eq (at_start t)
    have hneg : ¬ (0 : Int) ≤ (toV4 t [] none).pos := by simp [toV4, no]
    dsimp only
    rw [if_neg hneg]
    cases hv6 : readV6 t with
    | none =>
      rw [hv6] at h6
      have hpos : (v6 t 0).pos = -1 := h6
      rw [hpos, if_neg (by omega)]
      rfl
    | some r =>
      rw [hv6] at h6
      obtain ⟨hpos, hhi, hlo⟩ := h6
      obtain ⟨gs, rest⟩ := r
      rw [hpos, hhi, hlo]
      simp only [length_sub_eq_iff]
      cases rest <;> simp [whole, addrOf]

/-- A port that ends the text, and the number of it. -/
theorem port_whole {α : Type} (h : At t pos l) (f : Nat → α) :
    (if (port t pos).pos = t.length then some (f (port t pos).val.toNat) else none) = (whole (readPort l)).map f := by
  rw [port_eq h]
  cases hport : readPort l with
  | none =>
    have hne : (-1 : Int) ≠ t.length := by omega
    simp [toR, no, whole, hne]
  | some r =>
    obtain ⟨v, rest⟩ := r
    obtain ⟨p, -, hw, rfl, -⟩ := readPort_iff.mp hport
    have hv : valueOf 10 p ≤ 65535 := hw.most
    simp only [toR, length_sub_eq_iff]
    cases rest with
    | nil => simp [whole, Nat.mod_eq_of_lt (show valueOf 10 p < 4294967296 by omega)]
    | cons => simp [whole]

theorem port_nonneg_iff (h : At t pos l) : 0 ≤ (port t pos).pos ↔ (readPort l).isSome := by
  rw [port_eq h]
  cases hport : readPort l with
  | none => simp [toR, no]
  | some r =>
    obtain ⟨v, rest⟩ := r
    obtain ⟨p, rfl, -⟩ := readPort_iff.mp hport
    have hrest : At t ((t.length : Int) - rest.length) rest := At.behind (a := 58#8 :: p) h
    simpa [toR] using hrest.nonneg

/-- The brackets of an IPv6 address. -/
theorem bracket_eq (t : Text) :
    (if at_ t 0 ≠ 91 then none
      else if (v6 t 1).pos < 0 then none
      else if at_ t (v6 t 1).pos ≠ 93 then none
      else if (port t ((v6 t 1).pos + 1)).pos = t.length then
        some (⟨⟨true, (v6 t 1).hi, (v6 t 1).lo⟩, (port t ((v6 t 1).pos + 1)).val.toNat⟩ : Endpoint)
      else none) = (readBracketed t).map fun r => (⟨addrOf r.1, r.2⟩ : Endpoint) := by
  have hstart := at_start t
  cases t with
  | nil =>
    rw [hstart.at_nil]
    rfl
  | cons c l =>
    have hopen : at_ (c :: l) 0 = 91 ↔ c = 91#8 := by simpa using hstart.at_eq_iff 91#8
    by_cases hc : c = 91#8
    · rw [if_neg (not_not.mpr (hopen.mpr hc)), readBracketed, if_pos hc]
      have h6 := v6_eq hstart.next
      rw [Int.zero_add] at h6
      cases hv6 : readV6 l with
      | none =>
        rw [hv6] at h6
        have hpos : (v6 (c :: l) 1).pos = -1 := h6
        rw [hpos, if_pos (by decide)]
        rfl
      | some r =>
        rw [hv6] at h6
        obtain ⟨hpos, hhi, hlo⟩ := h6
        obtain ⟨gs, rest⟩ := r
        obtain ⟨u, rfl, -⟩ := readV6_sound hv6
        have hrest : At (c :: (u ++ rest)) (((c :: (u ++ rest)).length : Int) - rest.length) rest :=
          At.behind (a := c :: u) hstart
        rw [hpos, hhi, hlo, if_neg (Int.not_lt.mpr hrest.nonneg)]
        cases rest with
        | nil =>
          rw [hrest.at_nil, if_pos (by decide)]
          rfl
        | cons d rest =>
          have hclose : at_ (c :: (u ++ d :: rest)) (((c :: (u ++ d :: rest)).length : Int) - (d :: rest).length) = 93 ↔
              d = 93#8 := by simpa using hrest.at_eq_iff 93#8
          by_cases hd : d = 93#8
          · have hport := port_whole hrest.next fun p => (⟨⟨true, hiOf gs, loOf gs⟩, p⟩ : Endpoint)
            rw [if_neg (not_not.mpr (hclose.mpr hd)), hport]
            simp only [Option.bind_some, readClose, if_pos hd, Option.map_map]
            rfl
          · rw [if_pos (mt hclose.mp hd)]
            simp [readClose, hd]
    · rw [if_pos (mt hopen.mp hc)]
      simp [readBracketed, hc]

/-- **`parse_endpoint`** is the library's reader. -/
theorem parseEndpoint_eq (t : Text) : parseEndpoint t = (readEndpoint t).map fun r => ⟨addrOf r.1, r.2⟩ := by
  rw [parseEndpoint]
  dsimp only
  rw [bracket_eq, v4_eq (at_start t), readEndpoint]
  cases hv4 : readV4 t with
  | none =>
    have hneg : ¬ (0 : Int) ≤ (toV4 t [] none).pos := by simp [toV4, no]
    rw [if_neg fun h => hneg h.1]
    rfl
  | some r =>
    obtain ⟨bs, rest⟩ := r
    obtain ⟨u, rfl, -⟩ := readV4_iff.mp hv4
    have hrest := (at_start (u ++ rest)).behind
    have hiff := port_nonneg_iff hrest
    rw [toV4]
    dsimp only
    cases hport : readPort rest with
    | none =>
      rw [hport] at hiff
      rw [if_neg fun h => absurd (hiff.mp h.2) (by simp)]
      simp [hport]
    | some p =>
      have hwhole := port_whole hrest fun p => (⟨addrOf (.v4 bs), p⟩ : Endpoint)
      rw [hport] at hiff hwhole
      rw [if_pos ⟨hrest.nonneg, hiff.mpr rfl⟩]
      simp only [Option.bind_some, Option.map_some, Option.map_map, hport]
      exact hwhole

/-! ### Bytes -/

theorem shift_mod (w s : Nat) (hs : s + 8 ≤ 64) : w % 2 ^ 64 / 2 ^ s % 256 = w / 2 ^ s % 256 := by
  have hsplit : (2 : Nat) ^ 64 = 2 ^ s * 2 ^ (64 - s) := by rw [← pow_add, Nat.add_sub_cancel' (by omega)]
  have hdvd : 256 ∣ 2 ^ (64 - s) := pow_dvd_pow 2 (show 8 ≤ 64 - s by omega)
  rw [hsplit, Nat.mod_mul_right_div_self, Nat.mod_mod_of_dvd _ hdvd]

theorem byte_toNat (w : BitVec 64) (n : Nat) :
    ((w >>> n &&& 255#64).setWidth 32).toNat = w.toNat / 2 ^ n % 256 := by
  have hmask : (255#64 : BitVec 64).toNat = 2 ^ 8 - 1 := by decide
  rw [BitVec.toNat_setWidth, BitVec.toNat_and, hmask, Nat.and_two_pow_sub_one_eq_mod, BitVec.toNat_ushiftRight,
    Nat.shiftRight_eq_div_pow]
  exact Nat.mod_eq_of_lt (by omega)

theorem toNat_loOf (gs : List Nat) (h : Numeral.number 65536 gs < 2 ^ 128) :
    (loOf gs).toNat = Numeral.number 65536 gs % 2 ^ 64 ∧ (hiOf gs).toNat = Numeral.number 65536 gs / 2 ^ 64 := by
  rw [loOf, hiOf, wide, BitVec.extractLsb'_toNat, BitVec.extractLsb'_toNat, BitVec.toNat_ofNat, Nat.mod_eq_of_lt h,
    Nat.shiftRight_zero, Nat.shiftRight_eq_div_pow]
  exact ⟨rfl, Nat.mod_eq_of_lt (by omega)⟩

/-- The bytes of a record, in network order. -/
def Holds (a : Addr) (bs : List Nat) : Prop := a.len = bs.length ∧ ∀ i (h : i < bs.length), a.byteAt i = done bs[i]

theorem holds_v4 {bs : List Nat} (h : V4 t bs) : Holds (addrOf (.v4 bs)) bs := by
  have hlen := h.length_eq
  have hbound := Numeral.number_lt h.byte_lt
  have hlo : (addrOf (.v4 bs)).lo.toNat = Numeral.number 256 bs := by
    have hmask : (4294967295#64 : BitVec 64).toNat = 2 ^ 32 - 1 := by decide
    rw [hlen] at hbound
    simp only [addrOf, BitVec.toNat_and, hmask, Nat.and_two_pow_sub_one_eq_mod, BitVec.toNat_setWidth, BitVec.toNat_ofNat]
    omega
  refine ⟨hlen.symm, fun i hi => ?_⟩
  have hdigit := Numeral.number_digit h.byte_lt hi
  have hin : i < (addrOf (.v4 bs)).len := by
    rw [hlen] at hi
    exact hi
  rw [Addr.byteAt, require, if_pos (decide_eq_true hin)]
  have hv4 : (addrOf (.v4 bs)).v6 = false := rfl
  simp only [hv4, Bool.false_eq_true, not_false_eq_true, if_true, done_bind, pure_eq]
  rw [byte_toNat, hlo, ← hdigit, hlen, Nat.pow_mul]

theorem holds_v6 {gs : List Nat} (h : V6 t gs) : Holds (addrOf (.v6 gs)) (bytesOf gs) := by
  have hlen : (bytesOf gs).length = 16 := by rw [length_bytesOf, h.length_eq]
  have hbound := Numeral.number_lt h.group_lt
  rw [h.length_eq] at hbound
  obtain ⟨hlo, hhi⟩ := toNat_loOf gs (lt_of_lt_of_eq hbound (by decide))
  refine ⟨hlen.symm, fun i hi => ?_⟩
  have hdigit := Numeral.number_digit (bytesOf_lt h.group_lt) hi
  rw [number_bytesOf, hlen] at hdigit
  rw [hlen] at hi
  have hv6 : (addrOf (.v6 gs)).v6 = true := rfl
  have hin : i < (addrOf (.v6 gs)).len := hi
  rw [Addr.byteAt, require, if_pos (decide_eq_true hin)]
  simp only [hv6, not_true_eq_false, if_false, done_bind, pure_eq]
  rw [byte_toNat, ← hdigit]
  have hpow : (256 : Nat) ^ (16 - 1 - i) = 2 ^ (8 * (15 - i)) := by rw [Nat.pow_mul]
  by_cases h8 : i < 8
  · have hsum : (2 : Nat) ^ 64 * 2 ^ (8 * (7 - i)) = 2 ^ (8 * (15 - i)) := by
      rw [← pow_add]
      congr 1
      omega
    rw [if_pos h8, if_pos h8, show (addrOf (.v6 gs)).hi.toNat = _ from hhi, Nat.div_div_eq_div_mul, hsum, hpow]
  · rw [if_neg h8, if_neg h8, show (addrOf (.v6 gs)).lo.toNat = _ from hlo, shift_mod _ _ (by omega), hpow]

theorem holds_of_address {x : Meaning} (h : Address t x) : Holds (addrOf x) x.bytes := by
  cases h with
  | v4 h => exact holds_v4 h
  | v6 h => exact holds_v6 h

theorem holds_of_endpoint {x : Meaning} {p : Nat} (h : AddressText.Endpoint t x p) : Holds (addrOf x) x.bytes := by
  cases h with
  | v4 h => exact holds_v4 h
  | v6 h => exact holds_v6 h

/-- **Address text is read exactly.**  A text is an address for `parse` exactly when the grammar has it, and for
`parse_endpoint` exactly when it is one with a port; it means one address then, whose bytes are those of the record. -/
theorem texts_read (t : Text) :
    (∀ a, parse t = some a ↔ ∃ x, Address t x ∧ a = addrOf x) ∧
    (∀ e, parseEndpoint t = some e ↔ ∃ x p, AddressText.Endpoint t x p ∧ e = ⟨addrOf x, p⟩) ∧
    (∀ x, Address t x → Holds (addrOf x) x.bytes) ∧
    (∀ x p, AddressText.Endpoint t x p → Holds (addrOf x) x.bytes) ∧
    (∀ x y, Address t x → Address t y → x = y) ∧
    ∀ x p y q, AddressText.Endpoint t x p → AddressText.Endpoint t y q → x = y ∧ p = q := by
  refine ⟨fun a => ?_, fun e => ?_, fun _ => holds_of_address, fun _ _ => holds_of_endpoint, fun x y hx hy => ?_,
    fun x p y q hx hy => ?_⟩
  · rw [parse_eq, Option.map_eq_some_iff]
    simp only [readAddress_iff, @eq_comm _ _ a]
  · rw [parseEndpoint_eq, Option.map_eq_some_iff]
    simp only [Prod.exists, readEndpoint_iff, @eq_comm _ _ e]
  · rw [← readAddress_iff] at hx hy
    exact Option.some.inj (hx.symm.trans hy)
  · rw [← readEndpoint_iff] at hx hy
    cases Option.some.inj (hx.symm.trans hy)
    exact ⟨rfl, rfl⟩

end Aipl.StdIpText
