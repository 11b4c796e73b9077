import Aipl.Lib.Numeral
import Aipl.Lib.Wasm.Ints
import Aipl.Std.Stream.Window

/-! # `str.parse_i64`

The value is built negative, so that the least `i64` can be, and a positive value that is one too large is
found only after the loop.  A text is its bytes, of which there are fewer than `2 ^ 31`.

* `digits_ends` — the loop reads digits while their number is at most `2 ^ 63`, and nothing wraps.
* `viable_iff` — the texts that a number in range can begin with.
* `parse_i64_exact` — a value, or the first place at which no such number goes on: but for a text in which
  digits of `2 ^ 63` are not the last, for which a later place is named.
-/

namespace Aipl.StdStr

open Aipl.Lib Aipl.Lib.Outcome Aipl.Lib.Numeral Aipl.Lib.Wasm Aipl.Std
open Aipl.StdStream (byteAt byteAt_eq)

/-- A product and a difference of two `i64`. -/
structure I64Ops where
  mul : BitVec 64 → BitVec 64 → Outcome (BitVec 64)
  sub : BitVec 64 → BitVec 64 → Outcome (BitVec 64)

/-- As the language has them. -/
def wrapping : I64Ops := ⟨fun a b => done (a * b), fun a b => done (a - b)⟩

/-- The same, but they stop the program where they wrap. -/
def trapping : I64Ops where
  mul a b := if a.smulOverflow b then stop else done (a * b)
  sub a b := if a.ssubOverflow b then stop else done (a - b)

/-- A value, or the index of an error. -/
abbrev Parsed := Except (BitVec 32) (BitVec 64)

/-- A round of the loop of `parse_i64`. -/
def parseRound (O : I64Ops) (b : List (BitVec 8)) (n : BitVec 32) (s : BitVec 32 × BitVec 64) :
    Outcome (BitVec 32 × BitVec 64 ⊕ Parsed) :=
  let (i, v) := s
  if (n - 1#32).slt i then pure (.inr (.ok v))
  else do
    let c ← byteAt b i
    if c.slt 48#32 || (57#32).slt c then pure (.inr (.error i))
    else
      let d := (c - 48#32).signExtend 64
      if v.slt (-922337203685477580#64) then pure (.inr (.error i))
      else if v = -922337203685477580#64 && (8#64).slt d then pure (.inr (.error i))
      else do
        let t ← O.mul v 10#64
        let v ← O.sub t d
        pure (.inl (i + 1#32, v))

/-- What follows the loop. -/
def finish (O : I64Ops) (n : BitVec 32) (neg : Bool) : Parsed → Outcome Parsed
  | .error i => pure (.error i)
  | .ok v =>
    if neg then pure (.ok v)
    else if v = BitVec.intMin 64 then pure (.error (n - 1#32))
    else do
      let v ← O.sub 0#64 v
      pure (.ok v)

/-- The first byte, or 0. -/
def firstByte (b : List (BitVec 8)) : Outcome (BitVec 32) :=
  if (0#32).slt (arrLen b) then byteAt b 0#32 else pure 0#32

def parseI64 (O : I64Ops) (fuel : Nat) (b : List (BitVec 8)) : Outcome Parsed := do
  let n := arrLen b
  let c0 ← firstByte b
  let neg : Bool := c0 = 45#32
  let start := if neg || c0 = 43#32 then 1#32 else 0#32
  if n.sle start then pure (.error n)
  else do
    let r ← iterate (parseRound O b n) fuel (start, 0#64)
    finish O n neg r

/-! ### Numbers as text -/

def IsDigit (c : BitVec 8) : Prop := 48 ≤ c.toNat ∧ c.toNat ≤ 57

/-- The number of digits. -/
def value (ds : List (BitVec 8)) : Nat := number 10 (ds.map fun c => c.toNat - 48)

inductive Sign where
  | none
  | plus
  | minus
deriving DecidableEq

def Sign.bytes : Sign → List (BitVec 8)
  | .none => []
  | .plus => [43#8]
  | .minus => [45#8]

def Sign.apply : Sign → Nat → Int
  | .minus, n => -n
  | _, n => n

/-- **A number's text**: an optional sign, and one or more digits. -/
def Spells (b : List (BitVec 8)) (x : Int) : Prop :=
  ∃ (sign : Sign) (ds : List (BitVec 8)), b = sign.bytes ++ ds ∧ ds ≠ [] ∧ (∀ c ∈ ds, IsDigit c) ∧
    x = sign.apply (value ds)

/-- A text that a number in range begins with. -/
def Viable (b : List (BitVec 8)) : Prop := ∃ rest x, Spells (b ++ rest) x ∧ InRange 64 x

theorem value_take_mono (ds : List (BitVec 8)) {j k : Nat} (h : j ≤ k) : value (ds.take j) ≤ value (ds.take k) := by
  rw [value, value, List.map_take, List.map_take]
  exact number_take_mono (by decide) _ h

theorem value_take_succ {ds : List (BitVec 8)} {k : Nat} {c : BitVec 8} (hc : ds[k]? = some c) :
    value (ds.take (k + 1)) = 10 * value (ds.take k) + (c.toNat - 48) := by
  rw [List.take_add_one, hc, value, List.map_append]
  exact number_concat 10 _ _

/-! ### The loop -/

/-- Operations that are those of the language wherever they do not wrap. -/
structure I64Ops.Ok (O : I64Ops) : Prop where
  mul : ∀ a b : BitVec 64, InRange 64 (a.toInt * b.toInt) → O.mul a b = done (a * b)
  sub : ∀ a b : BitVec 64, InRange 64 (a.toInt - b.toInt) → O.sub a b = done (a - b)

theorem trapping_ok : trapping.Ok := by
  constructor
  · intro a b h
    exact if_neg (by simp [not_smulOverflow_iff.mpr h])
  · intro a b h
    exact if_neg (by simp [not_ssubOverflow_iff.mpr h])

/-- The first `k` digits have been read. -/
structure Read (sign : Sign) (ds : List (BitVec 8)) (k : Nat) (s : BitVec 32 × BitVec 64) : Prop where
  le : k ≤ ds.length
  index : s.1 = BitVec.ofNat 32 (sign.bytes.length + k)
  digits : ∀ c ∈ ds.take k, IsDigit c
  toInt : s.2.toInt = -(value (ds.take k) : Int)

/-- What the loop ends with: the digits' number, negated, or the place of what is no digit, or of a digit
that makes the number exceed `2 ^ 63`. -/
inductive LoopEnd (sign : Sign) (ds : List (BitVec 8)) : Parsed → Prop where
  | ok {v : BitVec 64} (hdigits : ∀ c ∈ ds, IsDigit c) (hv : v.toInt = -(value ds : Int)) :
      LoopEnd sign ds (.ok v)
  | error {k : Nat} {c : BitVec 8} (hc : ds[k]? = some c) (hdigits : ∀ c ∈ ds.take k, IsDigit c)
      (hle : value (ds.take k) ≤ 2 ^ 63) (hbad : ¬ (IsDigit c ∧ value (ds.take (k + 1)) ≤ 2 ^ 63)) :
      LoopEnd sign ds (.error (BitVec.ofNat 32 (sign.bytes.length + k)))

theorem Read.value_le {sign : Sign} {ds : List (BitVec 8)} {k : Nat} {s : BitVec 32 × BitVec 64}
    (h : Read sign ds k s) : value (ds.take k) ≤ 2 ^ 63 := by
  have htoInt := h.toInt
  have hlo := (toInt_inRange s.2).1
  rw [htoInt] at hlo
  simp only [Nat.add_one_sub_one] at hlo
  omega

theorem isDigit_iff (c : BitVec 8) :
    ((c.setWidth 32).slt 48#32 || (57#32).slt (c.setWidth 32)) = false ↔ IsDigit c := by
  have hc := c.isLt
  have hw : (c.setWidth 32).toNat = c.toNat := BitVec.toNat_setWidth_of_le (by decide)
  have h48 : (48#32).toNat = 48 := rfl
  have h57 : (57#32).toNat = 57 := rfl
  rw [Bool.or_eq_false_iff, ← Bool.not_eq_true, ← Bool.not_eq_true, slt_iff (by omega) (by omega),
    slt_iff (by omega) (by omega), IsDigit]
  omega

theorem toInt_digit {c : BitVec 8} (h : IsDigit c) :
    (((c.setWidth 32) - 48#32).signExtend 64).toInt = c.toNat - 48 := by
  obtain ⟨hlo, hhi⟩ := h
  have hw : (c.setWidth 32).toNat = c.toNat := BitVec.toNat_setWidth_of_le (by decide)
  have h48 : (48#32).toNat = 48 := rfl
  have hsub : ((c.setWidth 32) - 48#32).toNat = c.toNat - 48 := by
    rw [toNat_sub_of_le (by omega), hw, h48]
  rw [BitVec.toInt_signExtend_of_le (by decide), toInt_eq_toNat (by omega), hsub]
  omega

variable {O : I64Ops} {sign : Sign} {ds b : List (BitVec 8)} {k fuel : Nat} {s : BitVec 32 × BitVec 64}

/-- **A round of the loop** reads one more digit, or ends it. -/
theorem parseRound_ends (hO : O.Ok) (hb : (sign.bytes ++ ds).length < 2 ^ 31) (h : Read sign ds k s) :
    Ends (Sum.elim (Read sign ds (k + 1)) (LoopEnd sign ds))
      (parseRound O (sign.bytes ++ ds) (arrLen (sign.bytes ++ ds)) s) := by
  obtain ⟨i, v⟩ := s
  have hvalue := h.value_le
  obtain ⟨hle, hindex, hdigits, htoInt⟩ := h
  dsimp only at hindex htoInt
  subst hindex
  have hlen : (sign.bytes ++ ds).length = sign.bytes.length + ds.length := List.length_append
  rw [parseRound, arrLen]
  dsimp only
  rw [slt_sub_one_iff (by omega) hb]
  rcases Nat.lt_or_ge k ds.length with hlt | hge
  · obtain ⟨c, hc⟩ : ∃ c, ds[k]? = some c := ⟨_, List.getElem?_eq_getElem hlt⟩
    have hget : (sign.bytes ++ ds)[(BitVec.ofNat 32 (sign.bytes.length + k)).toNat]? = some c := by
      rw [toNat_ofNat_of_lt (by omega), List.getElem?_append_right (by omega), Nat.add_sub_cancel_left, hc]
    rw [if_neg (by simp only [decide_eq_true_eq]; omega), byteAt_eq hb hget, done_bind]
    by_cases hdigit : IsDigit c
    · have hd := toInt_digit hdigit
      have hnext := value_take_succ hc
      obtain ⟨h48, h57⟩ := id hdigit
      have hlimit : (-922337203685477580#64).toInt = -922337203685477580 := rfl
      have h8 : (8#64).toInt = 8 := rfl
      have h10 : (10#64).toInt = 10 := rfl
      rw [if_neg (by rw [(isDigit_iff c).mpr hdigit]; simp)]
      by_cases hbig : value (ds.take (k + 1)) ≤ 2 ^ 63
      · -- the guards let the digit through, and nothing wraps
        have hmul : InRange 64 (v.toInt * (10#64).toInt) := by
          rw [htoInt, h10]
          constructor <;> simp only [Nat.add_one_sub_one] <;> omega
        have hprod : (v * 10#64).toInt = v.toInt * 10 := by
          rw [BitVec.toInt_mul_of_not_smulOverflow (by simpa using not_smulOverflow_iff.mpr hmul), h10]
        have hsub : InRange 64 ((v * 10#64).toInt - ((c.setWidth 32 - 48#32).signExtend 64).toInt) := by
          rw [hprod, hd, htoInt]
          constructor <;> simp only [Nat.add_one_sub_one] <;> omega
        rw [if_neg, if_neg, hO.mul _ _ hmul, done_bind, hO.sub _ _ hsub, done_bind]
        · refine ⟨hlt, ?_, ?_, ?_⟩
          · dsimp only
            exact (BitVec.ofNat_add (sign.bytes.length + k) 1).symm
          · intro x hx
            rw [List.take_add_one, hc, List.mem_append] at hx
            rcases hx with hx | hx
            · exact hdigits x hx
            · obtain rfl : x = c := by simpa using hx
              exact hdigit
          · dsimp only
            rw [BitVec.toInt_sub_of_not_ssubOverflow (by simpa using not_ssubOverflow_iff.mpr hsub), hprod, hd,
              htoInt, hnext]
            omega
        · simp only [Bool.and_eq_true, decide_eq_true_eq, ← BitVec.toInt_inj, BitVec.slt_eq_decide, hlimit, h8, hd,
            htoInt]
          omega
        · simp only [BitVec.slt_eq_decide, decide_eq_true_eq, hlimit, htoInt]
          omega
      · have hend : LoopEnd sign ds (.error (BitVec.ofNat 32 (sign.bytes.length + k))) :=
          .error hc hdigits hvalue fun hok => hbig hok.2
        by_cases hguard : v.slt (-922337203685477580#64) = true
        · rw [if_pos hguard]
          exact hend
        · rw [if_neg hguard, if_pos]
          · exact hend
          · simp only [BitVec.slt_eq_decide, decide_eq_true_eq, hlimit, htoInt] at hguard
            simp only [Bool.and_eq_true, decide_eq_true_eq, ← BitVec.toInt_inj, BitVec.slt_eq_decide, hlimit, h8,
              hd, htoInt]
            omega
    · rw [if_pos (by rw [← Bool.not_eq_false]; exact mt (isDigit_iff c).mp hdigit)]
      exact .error hc hdigits hvalue fun hok => hdigit hok.1
  · obtain rfl : k = ds.length := Nat.le_antisymm hle hge
    rw [if_pos (by simp)]
    rw [List.take_length] at hdigits htoInt
    exact .ok hdigits htoInt

/-- **The loop** ends. -/
theorem parseLoop_ends (hO : O.Ok) (hb : (sign.bytes ++ ds).length < 2 ^ 31)
    (hfuel : (sign.bytes ++ ds).length < fuel) :
    Ends (LoopEnd sign ds)
      (iterate (parseRound O (sign.bytes ++ ds) (arrLen (sign.bytes ++ ds))) fuel
        (BitVec.ofNat 32 sign.bytes.length, 0#64)) := by
  have hlen : (sign.bytes ++ ds).length = sign.bytes.length + ds.length := List.length_append
  refine iterate_ends (fun s => ∃ k, Read sign ds k s) _ (fun s => (sign.bytes ++ ds).length - s.1.toNat)
    ?_ fuel _ ?_ ?_
  · rintro s ⟨k, h⟩
    refine (parseRound_ends hO hb h).mono fun r hr => ?_
    cases r with
    | inl s' =>
      have hle := hr.le
      refine ⟨⟨k + 1, hr⟩, ?_⟩
      rw [h.index, hr.index, toNat_ofNat_of_lt (by omega), toNat_ofNat_of_lt (by omega)]
      omega
    | inr r => exact hr
  · exact ⟨0, Nat.zero_le _, rfl, by simp, by simp [value]⟩
  · exact Nat.lt_of_le_of_lt (Nat.sub_le _ _) hfuel

/-! ### The whole function -/

/-- The text's sign, and what follows it. -/
structure SignOf (b : List (BitVec 8)) (sign : Sign) (ds : List (BitVec 8)) : Prop where
  eq : b = sign.bytes ++ ds
  none : sign = .none → ds.head? ≠ some 43#8 ∧ ds.head? ≠ some 45#8

theorem exists_sign : ∀ b : List (BitVec 8), ∃ sign ds, SignOf b sign ds
  | [] => ⟨.none, [], rfl, fun _ => ⟨by simp, by simp⟩⟩
  | c :: cs => by
      by_cases hplus : c = 43#8
      · subst hplus
        exact ⟨.plus, cs, rfl, fun h => by cases h⟩
      by_cases hminus : c = 45#8
      · subst hminus
        exact ⟨.minus, cs, rfl, fun h => by cases h⟩
      exact ⟨.none, c :: cs, rfl, fun _ => ⟨by simpa using hplus, by simpa using hminus⟩⟩

/-- What the function returns. -/
inductive Result (sign : Sign) (ds : List (BitVec 8)) : Parsed → Prop where
  | short (h : ds = []) : Result sign ds (.error (BitVec.ofNat 32 sign.bytes.length))
  | place {r : BitVec 32} (h : LoopEnd sign ds (.error r)) : Result sign ds (.error r)
  | parsed {v : BitVec 64} (hne : ds ≠ []) (hdigits : ∀ c ∈ ds, IsDigit c) (hv : v.toInt = sign.apply (value ds)) :
      Result sign ds (.ok v)
  | last (hsign : sign ≠ .minus) (hdigits : ∀ c ∈ ds, IsDigit c) (hvalue : value ds = 2 ^ 63) :
      Result sign ds (.error (BitVec.ofNat 32 (sign.bytes.length + ds.length) - 1#32))

theorem finish_ends (hO : O.Ok) {r : Parsed} (hne : ds ≠ []) (h : LoopEnd sign ds r) :
    Ends (Result sign ds)
      (finish O (BitVec.ofNat 32 (sign.bytes.length + ds.length)) (decide (sign = .minus)) r) := by
  cases h with
  | error hc hdigits hle hbad => exact .place (.error hc hdigits hle hbad)
  | @ok v hdigits hv =>
    rw [finish]
    by_cases hminus : sign = .minus
    · subst hminus
      exact .parsed hne hdigits hv
    · have happly : sign.apply (value ds) = value ds := by
        cases sign with
        | minus => exact absurd rfl hminus
        | none => rfl
        | plus => rfl
      rw [if_neg (by simpa using hminus)]
      by_cases hmin : v = BitVec.intMin 64
      · rw [if_pos hmin]
        refine .last hminus hdigits ?_
        have hint : (BitVec.intMin 64).toInt = -9223372036854775808 := rfl
        rw [hmin, hint] at hv
        omega
      · have hsub : InRange 64 ((0#64).toInt - v.toInt) := by
          have hv' := toInt_inRange v
          have hint : (BitVec.intMin 64).toInt = -9223372036854775808 := rfl
          have hne' : v.toInt ≠ -9223372036854775808 := fun h => hmin (BitVec.eq_of_toInt_eq (h.trans hint.symm))
          simp only [InRange, BitVec.toInt_zero, Nat.add_one_sub_one] at hv' ⊢
          omega
        rw [if_neg hmin, hO.sub _ _ hsub, done_bind]
        refine .parsed hne hdigits ?_
        rw [BitVec.toInt_sub_of_not_ssubOverflow (by simpa using not_ssubOverflow_iff.mpr hsub), hv, happly]
        simp

/-- The first byte decides the sign. -/
theorem SignOf.first (h : SignOf b sign ds) (hb : b.length < 2 ^ 31) :
    ∃ c0, firstByte b = done c0 ∧
      (decide (c0 = 45#32) = decide (sign = .minus)) ∧
      (if decide (c0 = 45#32) || decide (c0 = 43#32) then 1#32 else 0#32)
        = BitVec.ofNat 32 sign.bytes.length := by
  have hlen : (arrLen b).toNat = b.length := toNat_arrLen (by omega)
  have h0 : (0#32).toNat = 0 := rfl
  cases b with
  | nil =>
    obtain ⟨heq, -⟩ := h
    cases sign with
    | none => exact ⟨0#32, rfl, rfl, rfl⟩
    | plus => cases heq
    | minus => cases heq
  | cons c cs =>
    refine ⟨c.setWidth 32, ?_, ?_⟩
    · have hpos : 0 < (arrLen (c :: cs)).toNat := by
        rw [hlen]
        exact Nat.succ_pos _
      rw [firstByte, if_pos ((zero_slt_iff (by omega)).mpr hpos), byteAt_eq hb rfl]
    · have hwide : ∀ x : BitVec 8, c.setWidth 32 = x.setWidth 32 ↔ c = x := by
        intro x
        constructor
        · intro heq
          have hnat := congrArg BitVec.toNat heq
          rw [BitVec.toNat_setWidth_of_le (by decide), BitVec.toNat_setWidth_of_le (by decide)] at hnat
          exact BitVec.eq_of_toNat_eq hnat
        · rintro rfl
          rfl
      have h45 := hwide 45#8
      have h43 := hwide 43#8
      change c.setWidth 32 = 45#32 ↔ _ at h45
      change c.setWidth 32 = 43#32 ↔ _ at h43
      simp only [h45, h43]
      cases sign with
      | none =>
        obtain ⟨hplus, hminus⟩ := h.none rfl
        have heq : c :: cs = ds := h.eq
        rw [← heq] at hplus hminus
        simp only [List.head?_cons, ne_eq, Option.some_inj] at hplus hminus
        simp [hplus, hminus, Sign.bytes]
      | plus =>
        obtain ⟨rfl, -⟩ := List.cons.inj h.eq
        exact ⟨rfl, rfl⟩
      | minus =>
        obtain ⟨rfl, -⟩ := List.cons.inj h.eq
        exact ⟨rfl, rfl⟩

/-- **The function** ends. -/
theorem parseI64_ends (hO : O.Ok) (h : SignOf b sign ds) (hb : b.length < 2 ^ 31) (hfuel : b.length < fuel) :
    Ends (Result sign ds) (parseI64 O fuel b) := by
  obtain ⟨c0, hc0, hneg, hstart⟩ := h.first hb
  have hlen : (sign.bytes ++ ds).length = sign.bytes.length + ds.length := List.length_append
  have heq := h.eq
  rw [parseI64, hc0, done_bind]
  dsimp only
  rw [hstart, hneg]
  subst heq
  have hn : (arrLen (sign.bytes ++ ds)).toNat = (sign.bytes ++ ds).length := toNat_arrLen (by omega)
  by_cases hnil : ds = []
  · subst hnil
    rw [if_pos ((sle_iff (by omega) (by rw [toNat_ofNat_of_lt] <;> omega)).mpr (by
      rw [hn, toNat_ofNat_of_lt (by omega), List.append_nil]))]
    rw [arrLen, List.append_nil]
    exact .short rfl
  · have hpos : 0 < ds.length := List.length_pos_iff.mpr hnil
    rw [if_neg (mt (sle_iff (by omega) (by rw [toNat_ofNat_of_lt] <;> omega)).mp (by
      rw [hn, toNat_ofNat_of_lt (by omega)]
      omega))]
    refine ends_bind (parseLoop_ends hO hb hfuel) fun r hr => ?_
    rw [arrLen, hlen]
    exact finish_ends hO hnil hr

/-! ### What a number's text begins with -/

/-- The largest number in range that the sign is written before. -/
def Sign.limit : Sign → Nat
  | .minus => 2 ^ 63
  | _ => 2 ^ 63 - 1

theorem Sign.inRange_iff (sign : Sign) (n : Nat) : InRange 64 (sign.apply n) ↔ n ≤ sign.limit := by
  cases sign <;> simp only [InRange, Sign.apply, Sign.limit, Nat.add_one_sub_one] <;> omega

theorem IsDigit.ne_sign {c : BitVec 8} (h : IsDigit c) : c ≠ 43#8 ∧ c ≠ 45#8 := by
  obtain ⟨hlo, -⟩ := h
  constructor
  · rintro rfl
    exact absurd hlo (by decide)
  · rintro rfl
    exact absurd hlo (by decide)

/-- A text has one sign, and one rest. -/
theorem SignOf.unique {sign' : Sign} {ds' : List (BitVec 8)} (h : SignOf b sign ds) (h' : SignOf b sign' ds') :
    sign = sign' ∧ ds = ds' := by
  have heq := h.eq
  rw [h'.eq] at heq
  have hnone := h.none
  have hnone' := h'.none
  cases sign <;> cases sign' <;> simp_all [Sign.bytes]
  all_goals
    rw [← heq] at hnone
    simp at hnone

theorem spells_iff (h : SignOf b sign ds) {x : Int} :
    Spells b x ↔ ds ≠ [] ∧ (∀ c ∈ ds, IsDigit c) ∧ x = sign.apply (value ds) := by
  constructor
  · rintro ⟨sign', ds', heq, hne, hdigits, hx⟩
    have h' : SignOf b sign' ds' := by
      refine ⟨heq, fun _ => ?_⟩
      obtain ⟨c, cs, rfl⟩ := List.exists_cons_of_ne_nil hne
      obtain ⟨hplus, hminus⟩ := (hdigits c List.mem_cons_self).ne_sign
      exact ⟨by simpa using hplus, by simpa using hminus⟩
    obtain ⟨rfl, rfl⟩ := h.unique h'
    exact ⟨hne, hdigits, hx⟩
  · rintro ⟨hne, hdigits, hx⟩
    exact ⟨sign, ds, h.eq, hne, hdigits, hx⟩

/-- A text without its end has the same sign, while the sign is in it. -/
theorem SignOf.take (h : SignOf b sign ds) (hk : 0 < k) :
    SignOf (b.take (sign.bytes.length + k)) sign (ds.take k) := by
  constructor
  · rw [h.eq, List.take_append, List.take_of_length_le (Nat.le_add_right _ _), Nat.add_sub_cancel_left]
  · intro hsign
    rw [List.head?_take, if_neg (by omega)]
    exact h.none hsign

theorem value_le_append (ds es : List (BitVec 8)) : value ds ≤ value (ds ++ es) := by
  rw [value, value, List.map_append]
  exact number_le_append (by decide) _ _

/-- **Viable texts**: digits whose number is in range. -/
theorem viable_iff (h : SignOf b sign ds) (hne : ds ≠ []) :
    Viable b ↔ (∀ c ∈ ds, IsDigit c) ∧ value ds ≤ sign.limit := by
  constructor
  · rintro ⟨rest, x, hspells, hx⟩
    have hmore : SignOf (b ++ rest) sign (ds ++ rest) := by
      refine ⟨by rw [h.eq, List.append_assoc], fun hsign => ?_⟩
      rw [List.head?_append_of_ne_nil _ hne]
      exact h.none hsign
    obtain ⟨-, hdigits, rfl⟩ := (spells_iff hmore).mp hspells
    rw [Sign.inRange_iff] at hx
    exact ⟨fun c hc => hdigits c (List.mem_append_left _ hc), (value_le_append ds rest).trans hx⟩
  · rintro ⟨hdigits, hle⟩
    refine ⟨[], _, ?_, (Sign.inRange_iff sign _).mpr hle⟩
    rw [List.append_nil]
    exact (spells_iff h).mpr ⟨hne, hdigits, rfl⟩

/-- A sign alone can begin a number. -/
theorem viable_sign (sign : Sign) {k : Nat} (hk : k ≤ sign.bytes.length) : Viable (sign.bytes.take k) := by
  have hzero : ∀ sign : Sign, Viable sign.bytes := by
    intro sign
    refine ⟨[48#8], _, ⟨sign, [48#8], rfl, by simp, ?_, rfl⟩, ?_⟩
    · intro c hc
      obtain rfl := List.mem_singleton.mp hc
      exact ⟨by decide, by decide⟩
    · rw [Sign.inRange_iff]
      exact Nat.zero_le _
  rcases Nat.eq_zero_or_pos k with rfl | hpos
  · exact hzero .none
  · have hone : sign.bytes.length ≤ 1 := by cases sign <;> decide
    rw [List.take_of_length_le (by omega)]
    exact hzero sign

/-- A beginning of the text that has digits of a number in range, or none. -/
theorem viable_take (h : SignOf b sign ds) {j : Nat} (hdigits : ∀ c ∈ ds.take j, IsDigit c)
    (hle : value (ds.take j) ≤ sign.limit) {m : Nat} (hm : m ≤ sign.bytes.length + j) : Viable (b.take m) := by
  rcases Nat.le_total m sign.bytes.length with hsmall | hlarge
  · rw [h.eq, List.take_append_of_le_length hsmall]
    exact viable_sign sign hsmall
  · obtain ⟨k, rfl⟩ := Nat.exists_eq_add_of_le hlarge
    have hkj : k ≤ j := by omega
    by_cases hnil : ds.take k = []
    · have htake : b.take (sign.bytes.length + k) = sign.bytes.take sign.bytes.length := by
        rw [h.eq, List.take_append, Nat.add_sub_cancel_left, hnil, List.append_nil, List.take_length,
          List.take_of_length_le (Nat.le_add_right _ _)]
      rw [htake]
      exact viable_sign sign le_rfl
    · have hpos : 0 < k := Nat.pos_of_ne_zero fun h0 => hnil (by rw [h0, List.take_zero])
      refine (viable_iff (h.take hpos) hnil).mpr ⟨fun c hc => ?_, (value_take_mono ds hkj).trans hle⟩
      exact hdigits c ((List.take_sublist_take_left hkj).subset hc)

/-! ### The result is exact -/

/-- **An exact result**: the number's value; or, for a text that is no number in range, the least place up to
which no such number's text begins like it, or the length when there is none. -/
def Exact (b : List (BitVec 8)) : Parsed → Prop
  | .ok v => Spells b v.toInt
  | .error i => (¬ ∃ x, Spells b x ∧ InRange 64 x) ∧ (∀ m ≤ i.toNat, Viable (b.take m)) ∧
      (i.toNat = b.length ∨ i.toNat < b.length ∧ ¬ Viable (b.take (i.toNat + 1)))

/-- More follows digits of `2 ^ 63` without a minus. -/
def Late (b : List (BitVec 8)) : Prop := ∃ m < b.length, Spells (b.take m) (2 ^ 63)

theorem not_spells_nil {x : Int} : ¬ Spells [] x := by
  have hnil : SignOf [] .none [] := ⟨rfl, fun _ => ⟨by simp, by simp⟩⟩
  rw [spells_iff hnil]
  simp

theorem late_iff (h : SignOf b sign ds) : Late b ↔ sign ≠ .minus ∧
    ∃ j < ds.length, (∀ c ∈ ds.take j, IsDigit c) ∧ value (ds.take j) = 2 ^ 63 := by
  have hlen : b.length = sign.bytes.length + ds.length := by rw [h.eq, List.length_append]
  constructor
  · rintro ⟨m, hm, hspells⟩
    rcases Nat.lt_or_ge sign.bytes.length m with hlt | hge
    · obtain ⟨j, rfl⟩ := Nat.exists_eq_add_of_le hlt.le
      obtain ⟨-, hdigits, hvalue⟩ := (spells_iff (h.take (by omega))).mp hspells
      cases sign with
      | minus =>
        simp only [Sign.apply] at hvalue
        omega
      | none => exact ⟨by simp, j, by omega, hdigits, by simp only [Sign.apply] at hvalue; omega⟩
      | plus => exact ⟨by simp, j, by omega, hdigits, by simp only [Sign.apply] at hvalue; omega⟩
    · -- no digit is left
      rw [h.eq, List.take_append_of_le_length hge] at hspells
      rcases Nat.eq_zero_or_pos m with rfl | hpos
      · exact absurd hspells (by rw [List.take_zero]; exact not_spells_nil)
      · have hone : sign.bytes.length ≤ 1 := by cases sign <;> decide
        rw [List.take_of_length_le (by omega)] at hspells
        have hsign : SignOf sign.bytes sign [] :=
          ⟨(List.append_nil _).symm, fun hnone => by subst hnone; exact absurd hge (by simp [Sign.bytes]; omega)⟩
        exact absurd rfl ((spells_iff hsign).mp hspells).1
  · rintro ⟨hsign, j, hj, hdigits, hvalue⟩
    have hpos : 0 < j := by
      refine Nat.pos_of_ne_zero ?_
      rintro rfl
      rw [List.take_zero] at hvalue
      cases hvalue
    refine ⟨sign.bytes.length + j, by omega, (spells_iff (h.take hpos)).mpr ⟨?_, hdigits, ?_⟩⟩
    · intro hnil
      rcases List.take_eq_nil_iff.mp hnil with rfl | rfl
      · exact absurd hpos (Nat.lt_irrefl 0)
      · exact absurd hj (Nat.not_lt_zero _)
    · rw [hvalue]
      cases sign with
      | minus => exact absurd rfl hsign
      | none => rfl
      | plus => rfl

theorem Sign.limit_le (sign : Sign) : sign.limit ≤ 2 ^ 63 := by cases sign <;> decide

theorem Sign.limit_lt (h : sign ≠ .minus) : sign.limit = 2 ^ 63 - 1 := by
  cases sign with
  | minus => exact absurd rfl h
  | none => rfl
  | plus => rfl

/-- The text goes on with what no number in range does. -/
theorem not_viable_succ {c : BitVec 8} (h : SignOf b sign ds) (hc : ds[k]? = some c)
    (hbad : ¬ (IsDigit c ∧ value (ds.take (k + 1)) ≤ sign.limit)) :
    ¬ Viable (b.take (sign.bytes.length + k + 1)) := by
  have hmem : c ∈ ds.take (k + 1) := by
    rw [List.take_add_one, hc]
    simp
  rw [Nat.add_assoc, viable_iff (h.take (Nat.succ_pos k)) (List.ne_nil_of_mem hmem)]
  rintro ⟨hdigits, hle⟩
  exact hbad ⟨hdigits c hmem, hle⟩

/-- An error at a place is exact when what is before it is viable and more is not. -/
theorem exact_error {i : BitVec 32} {m : Nat} (hi : i.toNat = m) (hm : m < b.length)
    (hbefore : ∀ j ≤ m, Viable (b.take j)) (hafter : ¬ Viable (b.take (m + 1))) : Exact b (.error i) := by
  refine ⟨?_, ?_, .inr ⟨by omega, by rwa [hi]⟩⟩
  · rintro ⟨x, hspells, hx⟩
    refine hafter ⟨b.drop (m + 1), x, ?_, hx⟩
    rwa [List.take_append_drop]
  · rw [hi]
    exact hbefore

theorem Result.exact_iff {r : Parsed} (hb : b.length < 2 ^ 31) (h : SignOf b sign ds) (hr : Result sign ds r) :
    Exact b r ↔ ¬ Late b := by
  have hlen : b.length = sign.bytes.length + ds.length := by rw [h.eq, List.length_append]
  rw [late_iff h]
  cases hr with
  | short hnil =>
    subst hnil
    have hi : (BitVec.ofNat 32 sign.bytes.length).toNat = sign.bytes.length := toNat_ofNat_of_lt (by omega)
    refine iff_of_true ⟨?_, fun m hm => ?_, .inl ?_⟩ ?_
    · rintro ⟨x, hspells, -⟩
      exact absurd rfl ((spells_iff h).mp hspells).1
    · exact viable_take (j := 0) h (by simp) (Nat.zero_le _) (by omega)
    · rw [hi, hlen]
      rfl
    · rintro ⟨-, j, hj, -⟩
      exact absurd hj (Nat.not_lt_zero _)
  | parsed hne hdigits hv =>
    refine iff_of_true ((spells_iff h).mpr ⟨hne, hdigits, hv⟩) ?_
    rintro ⟨hsign, j, hj, -, hvalue⟩
    have hrange : value ds ≤ sign.limit := (sign.inRange_iff _).mp (hv ▸ toInt_inRange _)
    have hmono := value_take_mono ds hj.le
    rw [List.take_length, hvalue] at hmono
    rw [Sign.limit_lt hsign] at hrange
    omega
  | last hsign hdigits hvalue =>
    have hlimit := Sign.limit_lt hsign
    have hne : ds ≠ [] := by
      rintro rfl
      cases hvalue
    obtain ⟨k, hk⟩ : ∃ k, ds.length = k + 1 := ⟨ds.length - 1, by have := List.length_pos_iff.mpr hne; omega⟩
    obtain ⟨c, hc⟩ : ∃ c, ds[k]? = some c := ⟨_, List.getElem?_eq_getElem (by omega)⟩
    have hall : ds.take (k + 1) = ds := List.take_of_length_le (by omega)
    have hlast := value_take_succ hc
    rw [hall, hvalue] at hlast
    have hsmall : value (ds.take k) ≤ sign.limit := by
      have hdigit := hdigits c (List.mem_of_getElem? hc)
      obtain ⟨-, h57⟩ := hdigit
      omega
    refine iff_of_true (exact_error (m := sign.bytes.length + k) ?_ (by omega) (fun j hj => ?_) ?_) ?_
    · have h1 : (1#32).toNat = 1 := rfl
      have hi : (BitVec.ofNat 32 (sign.bytes.length + ds.length)).toNat = sign.bytes.length + ds.length :=
        toNat_ofNat_of_lt (by omega)
      rw [toNat_sub_of_le (by omega)]
      omega
    · exact viable_take h (fun c hc => hdigits c (List.mem_of_mem_take hc)) hsmall hj
    · refine not_viable_succ h hc ?_
      rw [hall]
      omega
    · rintro ⟨-, j, hj, -, hvalue'⟩
      have hmono := value_take_mono ds (show j ≤ k by omega)
      omega
  | place herr =>
    cases herr with
    | @error k c hc hdigits hle hbad =>
      have hk : k < ds.length := (List.getElem?_eq_some_iff.mp hc).1
      have hi : (BitVec.ofNat 32 (sign.bytes.length + k)).toNat = sign.bytes.length + k :=
        toNat_ofNat_of_lt (by omega)
      have hlimit := sign.limit_le
      by_cases hfits : value (ds.take k) ≤ sign.limit
      · refine iff_of_true (exact_error hi (by omega) (fun j hj => ?_) ?_) ?_
        · exact viable_take h hdigits hfits hj
        · exact not_viable_succ h hc fun hok => hbad ⟨hok.1, hok.2.trans hlimit⟩
        · rintro ⟨hsign, j, hj, hdigits', hvalue⟩
          rw [Sign.limit_lt hsign] at hfits
          rcases Nat.lt_or_ge k j with hlt | hge
          · -- the bad place would be among those digits
            have hmem : c ∈ ds.take j := by
              rw [List.mem_take_iff_getElem]
              exact ⟨k, by omega, (List.getElem?_eq_some_iff.mp hc).2⟩
            have hmono := value_take_mono ds (show k + 1 ≤ j from hlt)
            exact hbad ⟨hdigits' c hmem, by omega⟩
          · have hmono := value_take_mono ds hge
            omega
      · have hsign : sign ≠ .minus := by
          rintro rfl
          exact hfits hle
        have hlimit' := Sign.limit_lt hsign
        refine iff_of_false ?_ (not_not.mpr ⟨hsign, k, hk, hdigits, by omega⟩)
        rintro ⟨-, hbefore, -⟩
        have hne : ds.take k ≠ [] := by
          intro hnil
          rw [hnil] at hfits
          exact hfits (Nat.zero_le _)
        have hpos : 0 < k := Nat.pos_of_ne_zero fun h0 => hne (by rw [h0, List.take_zero])
        rw [hi] at hbefore
        exact hfits ((viable_iff (h.take hpos) hne).mp (hbefore _ le_rfl)).2

/-! ### The two arithmetics agree -/

theorem refines_trap {c : Bool} {v : BitVec 64} : Refines (if c then stop else done v) (done v) := by
  intro v' h
  split at h
  · cases h
  · exact h

theorem parseRound_refines (b : List (BitVec 8)) (n : BitVec 32) (s : BitVec 32 × BitVec 64) :
    Refines (parseRound trapping b n s) (parseRound wrapping b n s) := by
  refine refines_ite (.refl _) (refines_bind (.refl _) fun c => ?_)
  refine refines_ite (.refl _) (refines_ite (.refl _) (refines_ite (.refl _) ?_))
  exact refines_bind refines_trap fun t => refines_bind refines_trap fun v => .refl _

theorem finish_refines (n : BitVec 32) (neg : Bool) : ∀ r : Parsed,
    Refines (finish trapping n neg r) (finish wrapping n neg r)
  | .error _ => .refl _
  | .ok _ => refines_ite (.refl _) (refines_ite (.refl _) (refines_bind refines_trap fun _ => .refl _))

/-- Where nothing wraps the function returns what it does when its operations stop at a wrap. -/
theorem parseI64_refines (fuel : Nat) (b : List (BitVec 8)) :
    Refines (parseI64 trapping fuel b) (parseI64 wrapping fuel b) :=
  refines_bind (.refl _) fun _ => refines_ite (.refl _)
    (refines_bind (iterate_refines (parseRound_refines b _) fuel _) fun r => finish_refines _ _ r)

/-- **`parse_i64`** returns, nothing in it wraps, and its result is exact but for a text in which more follows
digits of `2 ^ 63` without a minus. -/
theorem parse_i64_exact {b : List (BitVec 8)} {fuel : Nat} (hb : b.length < 2 ^ 31) (hfuel : b.length < fuel) :
    ∃ r, parseI64 trapping fuel b = done r ∧ parseI64 wrapping fuel b = done r ∧ (Exact b r ↔ ¬ Late b) := by
  obtain ⟨sign, ds, hsign⟩ := exists_sign b
  obtain ⟨r, hrun, hresult⟩ := (parseI64_ends trapping_ok hsign hb hfuel).exists
  exact ⟨r, hrun, parseI64_refines fuel b r hrun, hresult.exact_iff hb hsign⟩

/-- The text `-12`. -/
def minusTwelve : List (BitVec 8) := [45#8, 49#8, 50#8]

theorem minusTwelve_not_late : ¬ Late minusTwelve := by
  have hsign : SignOf minusTwelve .minus [49#8, 50#8] := ⟨rfl, fun h => by cases h⟩
  rw [late_iff hsign]
  exact fun h => h.1 rfl

theorem parse_minusTwelve : ∃ r, parseI64 wrapping 4 minusTwelve = done r ∧ Exact minusTwelve r := by
  have hlen : minusTwelve.length < 2 ^ 31 := by decide
  obtain ⟨r, -, hrun, hexact⟩ := parse_i64_exact hlen (show minusTwelve.length < 4 by decide)
  exact ⟨r, hrun, hexact.mpr minusTwelve_not_late⟩

/-- The text `92233720368547758080`. -/
def tooLarge : List (BitVec 8) :=
  [57#8, 50#8, 50#8, 51#8, 51#8, 55#8, 50#8, 48#8, 51#8, 54#8, 56#8, 53#8, 52#8, 55#8, 55#8, 53#8, 56#8, 48#8,
    56#8, 48#8]

theorem tooLarge_late : Late tooLarge := by
  refine ⟨19, by decide, .none, tooLarge.take 19, rfl, by decide, ?_, by decide⟩
  intro c hc
  have hall : ∀ c ∈ tooLarge.take 19, 48 ≤ c.toNat ∧ c.toNat ≤ 57 := by decide
  exact hall c hc

/-- The error is one place late. -/
theorem not_every_result_exact : ¬ ∀ (b : List (BitVec 8)) (fuel : Nat), b.length < 2 ^ 31 → b.length < fuel →
    ∃ r, parseI64 wrapping fuel b = done r ∧ Exact b r := by
  intro h
  obtain ⟨r, hrun, hexact⟩ := h tooLarge 21 (by decide) (by decide)
  have hsign : SignOf tooLarge .none tooLarge := ⟨rfl, fun _ => ⟨by decide, by decide⟩⟩
  have hlen : tooLarge.length < 2 ^ 31 := by decide
  obtain ⟨r', hrun', hresult⟩ :=
    (parseI64_ends trapping_ok hsign hlen (show tooLarge.length < 21 by decide)).exists
  obtain rfl : r = r' := Outcome.done.inj (hrun.symm.trans (parseI64_refines 21 tooLarge r' hrun'))
  exact (hresult.exact_iff hlen hsign).mp hexact tooLarge_late

end Aipl.StdStr
