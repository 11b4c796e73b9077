import Aipl.Lib.Fallible
import Aipl.Std.Buf.Pushes
import Aipl.Std.Date.Unix
import Aipl.Std.Str.Bytes
import Aipl.Std.Str.Integers

/-! # Dates as text

`push_iso` and `parse`, which reads the RFC 3339 form.

* `Text` — what stands for a date and a time of day, and an offset.
* `pushIso_eq` — writing pushes such a text.
-/

namespace Aipl.StdDate

open Aipl.Lib Aipl.Lib.Outcome Aipl.Lib.Fallible Aipl.StdBuf Aipl.StdBytes
open Aipl.StdStr (IsDigit value)
open Aipl.Std (Allocator)

section Writing

variable {σ : Type} (A : Allocator σ) (fuel : Nat)

/-- A round of the loop of `push_digits`: the digit at `p`. -/
def pushRound (n : Int) (s : Content σ × Int) : Outcome (Content σ × Int ⊕ Content σ) :=
  if 0 < s.2 then do
    let b ← s.1.pushByte A fuel (BitVec.ofInt 32 (48 + (n.tdiv s.2).tmod 10))
    pure (.inl (b, s.2.tdiv 10))
  else pure (.inr s.1)

def pushDigits (b : Content σ) (n : Int) (width : Nat) : Outcome (Content σ) := do
  let p := (List.range' 2 (width - 1)).foldl (fun p _ => p * 10) (1 : Int)
  iterate (pushRound A fuel n) fuel (b, p)

/-- A round of the loop that takes the zeros off a fraction. -/
def trimRound (s : Int × Nat) : Outcome (Int × Nat ⊕ Int × Nat) :=
  if s.1.tmod 10 = 0 then pure (.inl (s.1.tdiv 10, s.2 - 1)) else pure (.inr s)

def pushIso (b : Content σ) (d : Date) : Outcome (Content σ) := do
  let b ← pushDigits A fuel b d.year 4
  let b ← b.pushByte A fuel 45#32
  let b ← pushDigits A fuel b d.month 2
  let b ← b.pushByte A fuel 45#32
  let b ← pushDigits A fuel b d.day 2
  let b ← b.pushByte A fuel 84#32
  let b ← pushDigits A fuel b d.hour 2
  let b ← b.pushByte A fuel 58#32
  let b ← pushDigits A fuel b d.minute 2
  let b ← b.pushByte A fuel 58#32
  let b ← pushDigits A fuel b d.second 2
  let b ← (if 0 < d.nano then do
    let (ns, width) ← iterate trimRound fuel (d.nano, 9)
    let b ← b.pushByte A fuel 46#32
    pushDigits A fuel b ns width
  else pure b : Outcome (Content σ))
  b.pushByte A fuel 90#32

end Writing

/-! ### Reading -/

/-- The loop of `digits` over the `n` bytes from `i` on. -/
def digitsLoop (t : List (BitVec 8)) : Nat → Nat → Int → Outcome Int
  | _, 0, v => pure v
  | i, n + 1, v => do
    let c ← byteAt t i
    if c < 48 ∨ 57 < c then pure (-1)
    else digitsLoop t (i + 1) n (v * 10 + (c - 48))

def digits (t : List (BitVec 8)) (i n : Nat) : Outcome Int :=
  if t.length < i + n then pure (-1) else digitsLoop t i n 0

def byteIs (t : List (BitVec 8)) (i c : Nat) : Outcome Bool :=
  if i < t.length then do
    let x ← byteAt t i
    pure (x = c)
  else pure false

def minAt (n i : Nat) : Nat := if n < i then n else i

/-- The loop of `bad_digit` over the `n` bytes from `j` on. -/
def badDigitLoop (t : List (BitVec 8)) (i : Nat) : Nat → Nat → Outcome Nat
  | _, 0 => pure i
  | j, n + 1 =>
    if t.length ≤ j then pure j
    else do
      let c ← byteAt t j
      if c < 48 ∨ 57 < c then pure j else badDigitLoop t i (j + 1) n

def badDigit (t : List (BitVec 8)) (i n : Nat) : Outcome Nat := badDigitLoop t i i n

/-- A field of `n` digits at `i`, which must be one that `bad` does not hold of. -/
def readField (t : List (BitVec 8)) (i n : Nat) (bad : Int → Bool) : Fallible Nat Int := do
  let v ← liftM (digits t i n)
  if bad v then do
    let j ← liftM (badDigit t i n)
    throw j
  else pure v

/-- The byte `c` at `i`. -/
def expect (t : List (BitVec 8)) (i c : Nat) : Fallible Nat Unit := do
  let found ← liftM (byteIs t i c)
  if found then pure () else throw (minAt t.length i)

/-- A round of the loop over the digits of a fraction from `start` on. -/
def fractionRound (t : List (BitVec 8)) (start : Nat) (s : Nat × Int) : Outcome (Nat × Int ⊕ Nat × Int) :=
  if s.1 < t.length then do
    let c ← byteAt t s.1
    if 48 ≤ c ∧ c ≤ 57 then
      pure (.inl (s.1 + 1, if s.1 - start < 9 then s.2 * 10 + (c - 48) else s.2))
    else pure (.inr s)
  else pure (.inr s)

/-- The fraction of the second at `i`, if there is one, and where it ends. -/
def readFraction (fuel : Nat) (t : List (BitVec 8)) (i : Nat) : Fallible Nat (Nat × Int) := do
  if ← liftM (byteIs t i 46) then do
    let start := i + 1
    let (i, nano) ← liftM (iterate (fractionRound t start) fuel (start, 0))
    if i = start ∨ 9 < i - start then throw (if i = start then minAt t.length i else start + 9)
    else pure (i, (List.range' (i - start) (9 - (i - start))).foldl (fun v _ => v * 10) nano)
  else pure (i, 0)

/-- The offset at `i`, in minutes, and where it ends. -/
def readOffset (t : List (BitVec 8)) (i : Nat) : Fallible Nat (Nat × Int) := do
  if (← liftM (byteIs t i 90)) || (← liftM (byteIs t i 122)) then pure (i + 1, 0)
  else if (← liftM (byteIs t i 43)) || (← liftM (byteIs t i 45)) then do
    let ahead ← liftM (byteIs t i 43)
    let sign : Int := if ahead then 1 else -1
    let oh ← readField t (i + 1) 2 fun v => v < 0 ∨ 23 < v
    expect t (i + 3) 58
    let om ← readField t (i + 4) 2 fun v => v < 0 ∨ 59 < v
    pure (i + 6, sign * (oh * 60 + om))
  else throw (minAt t.length i)

/-- What follows the date: a separator, the time of day, and the offset. -/
def readTime (fuel : Nat) (t : List (BitVec 8)) (year month day : Int) : Fallible Nat Date := do
  let sep ← (liftM (do
    if ← byteIs t 10 84 then pure true
    else if ← byteIs t 10 116 then pure true
    else byteIs t 10 32 : Outcome Bool) : Fallible Nat Bool)
  if !sep then throw 10
  else do
    let hour ← readField t 11 2 fun v => v < 0 ∨ 23 < v
    expect t 13 58
    let minute ← readField t 14 2 fun v => v < 0 ∨ 59 < v
    expect t 16 58
    let second ← readField t 17 2 fun v => v < 0 ∨ 59 < v
    let (i, nano) ← readFraction fuel t 19
    let (i, off) ← readOffset t i
    if i ≠ t.length then throw i
    else do
      let secs := toUnix ⟨year, month, day, hour, minute, second, 0⟩ - off * 60
      if secs < FIRST ∨ END ≤ secs then throw (i - 6)
      else liftM (fromUnixParts secs nano)

def parse (fuel : Nat) (t : List (BitVec 8)) : Fallible Nat Date := do
  let year ← readField t 0 4 fun v => v < 0
  expect t 4 45
  let month ← readField t 5 2 fun v => v < 1 ∨ 12 < v
  expect t 7 45
  let len ← liftM (daysInMonth year month)
  let day ← readField t 8 2 fun v => v < 1 ∨ len < v
  if t.length = 10 then pure ⟨year, month, day, 0, 0, 0, 0⟩
  else readTime fuel t year month day

/-! ### The form -/

/-- `t` begins with `w` digits, of value `v`. -/
def Field (w : Nat) (v : Int) (t rest : List (BitVec 8)) : Prop :=
  ∃ ds, t = ds ++ rest ∧ ds.length = w ∧ (∀ c ∈ ds, IsDigit c) ∧ v = (value ds : Int)

/-- No fraction, or a point and 1 to 9 digits. -/
inductive Fraction : Int → List (BitVec 8) → List (BitVec 8) → Prop
  | none {rest : List (BitVec 8)} : Fraction 0 rest rest
  | some {ds rest : List (BitVec 8)} (hpos : 1 ≤ ds.length) (hle : ds.length ≤ 9) (hdigits : ∀ c ∈ ds, IsDigit c) :
      Fraction ((value ds * 10 ^ (9 - ds.length) : Nat) : Int) (46#8 :: (ds ++ rest)) rest

/-- Z, or a sign, hours and minutes. -/
inductive Offset : Int → List (BitVec 8) → Prop
  | zulu {c : BitVec 8} (hc : c = 90#8 ∨ c = 122#8) : Offset 0 [c]
  | ahead {oh om : Int} {r r' : List (BitVec 8)} (hoh : Field 2 oh r (58#8 :: r')) (hh : oh ≤ 23)
      (hom : Field 2 om r' []) (hm : om ≤ 59) : Offset (oh * 60 + om) (43#8 :: r)
  | behind {oh om : Int} {r r' : List (BitVec 8)} (hoh : Field 2 oh r (58#8 :: r')) (hh : oh ≤ 23)
      (hom : Field 2 om r' []) (hm : om ≤ 59) : Offset (-(oh * 60 + om)) (45#8 :: r)

/-- The time of day, and the offset, that `t` is. -/
def Clock (d : Date) (off : Int) (t : List (BitVec 8)) : Prop :=
  ∃ r₁ r₂ r₃ r₄, Field 2 d.hour t (58#8 :: r₁) ∧ Field 2 d.minute r₁ (58#8 :: r₂) ∧ Field 2 d.second r₂ r₃ ∧
    Fraction d.nano r₃ r₄ ∧ Offset off r₄

/-- **The RFC 3339 form**: a date, and a time of day with an offset from UTC in minutes, or midnight. -/
def Text (d : Date) (off : Int) (t : List (BitVec 8)) : Prop :=
  ∃ r₁ r₂ r₃, Field 4 d.year t (45#8 :: r₁) ∧ Field 2 d.month r₁ (45#8 :: r₂) ∧ Field 2 d.day r₂ r₃ ∧
    ((r₃ = [] ∧ (d.hour = 0 ∧ d.minute = 0 ∧ d.second = 0 ∧ d.nano = 0) ∧ off = 0) ∨
      ∃ sep r₄, r₃ = sep :: r₄ ∧ (sep = 84#8 ∨ sep = 116#8 ∨ sep = 32#8) ∧ Clock d off r₄)

/-- `d` is the instant that `t` names: what `t` is text of is valid, and so is the date it is in UTC. -/
def Names (t : List (BitVec 8)) (d : Date) : Prop :=
  ∃ w off, Text w off t ∧ w.Valid ∧ d.Valid ∧ toUnix d = toUnix w - off * 60 ∧ d.nano = w.nano

/-! ### Writing -/

/-- The last `w` decimal digits of a number. -/
def padded (n : Nat) : Nat → List (BitVec 8)
  | 0 => []
  | k + 1 => BitVec.ofNat 8 (48 + n / 10 ^ k % 10) :: padded n k

@[simp] theorem length_padded (n w : Nat) : (padded n w).length = w := by
  induction w with
  | zero => rfl
  | succ w ih => rw [padded, List.length_cons, ih]

theorem toNat_digit {n : Nat} (hn : n < 10) : (BitVec.ofNat 8 (48 + n)).toNat = 48 + n := by
  rw [BitVec.toNat_ofNat]
  omega

theorem isDigit_padded (n w : Nat) : ∀ c ∈ padded n w, IsDigit c := by
  induction w with
  | zero => simp [padded]
  | succ w ih =>
    intro c hc
    rcases List.mem_cons.mp hc with rfl | hc
    · rw [IsDigit, toNat_digit (Nat.mod_lt _ (by decide))]
      omega
    · exact ih c hc

theorem value_cons (c : BitVec 8) (ds : List (BitVec 8)) :
    value (c :: ds) = (c.toNat - 48) * 10 ^ ds.length + value ds := by
  induction ds using List.reverseRecOn with
  | nil => simp [value, Numeral.number]
  | append_singleton ds e ih =>
    have hconcat : ∀ l : List (BitVec 8), value (l ++ [e]) = 10 * value l + (e.toNat - 48) := by
      intro l
      rw [value, List.map_append]
      exact Numeral.number_concat 10 _ _
    rw [← List.cons_append, hconcat, hconcat, ih, List.length_append, List.length_singleton, Nat.pow_succ]
    ring

theorem value_padded (n w : Nat) : value (padded n w) = n % 10 ^ w := by
  induction w with
  | zero => simp [padded, value, Numeral.number, Nat.mod_one]
  | succ w ih =>
    rw [padded, value_cons, ih, length_padded, toNat_digit (Nat.mod_lt _ (by decide)), Nat.add_sub_cancel_left,
      Nat.pow_succ, Nat.mod_mul, Nat.mul_comm, Nat.add_comm]

theorem field_padded {n w : Nat} (hn : n < 10 ^ w) (rest : List (BitVec 8)) :
    Field w n (padded n w ++ rest) rest :=
  ⟨_, rfl, length_padded n w, isDigit_padded n w, by rw [value_padded, Nat.mod_eq_of_lt hn]⟩

variable {σ : Type} {A : Allocator σ} {fuel : Nat}

/-- The loop writes the digits, the highest first. -/
theorem pushRounds_eq {n : Int} (hn : 0 ≤ n) (k : Nat) : ∀ (fuel' : Nat) (b : Content σ), k + 1 < fuel' →
    iterate (pushRound A fuel n) fuel' (b, (10 ^ k : Nat)) = pushAll A fuel b (padded n.toNat (k + 1)) := by
  have hbyte : ∀ k : Nat, (BitVec.ofInt 32 (48 + (n.tdiv (10 ^ k : Nat)).tmod 10)).setWidth 8
      = BitVec.ofNat 8 (48 + n.toNat / 10 ^ k % 10) := by
    intro k
    obtain ⟨m, rfl⟩ := Int.eq_ofNat_of_zero_le hn
    have hmod : ((m / 10 ^ k : Nat) : Int).tmod 10 = ((m / 10 ^ k % 10 : Nat) : Int) := (Int.ofNat_tmod _ 10).symm
    rw [Int.toNat_natCast, ← Int.ofNat_tdiv, hmod]
    have hsum : (48 : Int) + ((m / 10 ^ k % 10 : Nat) : Int) = ((48 + m / 10 ^ k % 10 : Nat) : Int) := by omega
    rw [hsum, BitVec.ofInt_natCast]
    refine BitVec.eq_of_toNat_eq ?_
    rw [BitVec.toNat_setWidth, BitVec.toNat_ofNat, BitVec.toNat_ofNat]
    omega
  have hround : ∀ (k : Nat) (b : Content σ), pushRound A fuel n (b, (10 ^ k : Nat)) =
      b.pushByte A fuel (BitVec.ofInt 32 (48 + (n.tdiv (10 ^ k : Nat)).tmod 10)) >>= fun b =>
        pure (.inl (b, ((10 ^ k : Nat) : Int).tdiv 10)) := by
    intro k b
    have hpos : 0 < 10 ^ k := Nat.pow_pos (by decide)
    rw [pushRound, if_pos (show (0 : Int) < ((10 ^ k : Nat) : Int) from Int.ofNat_lt.mpr hpos)]
  induction k with
  | zero =>
    intro fuel' b hfuel
    obtain ⟨f, rfl⟩ : ∃ f, fuel' = f + 2 := ⟨fuel' - 2, by omega⟩
    rw [iterate, hround, bind_assoc, padded, pushAll_cons (hbyte 0)]
    rfl
  | succ k ih =>
    intro fuel' b hfuel
    obtain ⟨f, rfl⟩ : ∃ f, fuel' = f + 1 := ⟨fuel' - 1, by omega⟩
    have hnext : ((10 ^ (k + 1) : Nat) : Int).tdiv 10 = (10 ^ k : Nat) := by
      rw [Nat.pow_succ, show (10 : Int) = ((10 : Nat) : Int) from rfl, ← Int.ofNat_tdiv, Nat.mul_div_cancel _ (by decide)]
    rw [iterate, hround, bind_assoc, padded, pushAll_cons (hbyte (k + 1))]
    congr
    funext b'
    rw [pure_eq, done_bind, hnext]
    exact ih f b' (by omega)

theorem foldl_ten (l : List Nat) (x : Int) : l.foldl (fun p _ => p * 10) x = x * 10 ^ l.length := by
  induction l generalizing x with
  | nil => simp
  | cons a l ih =>
    rw [List.foldl_cons, ih, List.length_cons, Int.pow_succ, Int.mul_comm (10 ^ l.length) 10, Int.mul_assoc]

theorem pushDigits_eq {n : Int} (hn : 0 ≤ n) {width : Nat} (hwidth : 1 ≤ width) (hfuel : width < fuel) (b : Content σ) :
    pushDigits A fuel b n width = pushAll A fuel b (padded n.toNat width) := by
  obtain ⟨k, rfl⟩ : ∃ k, width = k + 1 := ⟨width - 1, by omega⟩
  have hp : (List.range' 2 (k + 1 - 1)).foldl (fun p _ => p * 10) (1 : Int) = ((10 ^ k : Nat) : Int) := by
    rw [foldl_ten, List.length_range', Nat.add_sub_cancel, Int.one_mul]
    push_cast
    rfl
  rw [pushDigits, hp]
  exact pushRounds_eq hn k fuel b hfuel

/-- The zeros are taken off. -/
theorem trim_ends {nano : Int} (hpos : 0 < nano) (hlt : nano ≤ 999999999) (hfuel : 10 ≤ fuel) :
    Ends (fun s => 0 < s.1 ∧ 1 ≤ s.2 ∧ s.2 ≤ 9 ∧ s.1 * 10 ^ (9 - s.2) = nano) (iterate trimRound fuel (nano, 9)) := by
  refine iterate_ends (fun s : Int × Nat => 0 < s.1 ∧ 1 ≤ s.2 ∧ s.2 ≤ 9 ∧ s.1 * 10 ^ (9 - s.2) = nano) _
    (fun s => s.2) ?_ fuel _ ⟨hpos, (by decide : 1 ≤ 9), le_rfl, by simp⟩ hfuel
  rintro ⟨ns, w⟩ ⟨h0, h1, h9, heq⟩
  dsimp only at h0 h1 h9 heq
  rw [trimRound, Int.tmod_eq_emod_of_nonneg h0.le]
  split_ifs with hmod
  · have hns : ns = ns / 10 * 10 := by omega
    have hw : 2 ≤ w := by
      by_contra hw
      obtain rfl : w = 1 := by omega
      have hbig : ns * 10 ^ 8 = nano := heq
      omega
    rw [Int.tdiv_eq_ediv_of_nonneg h0.le]
    refine ⟨⟨by dsimp only; omega, by dsimp only; omega, by dsimp only; omega, ?_⟩, by dsimp only; omega⟩
    dsimp only
    rw [show 9 - (w - 1) = 9 - w + 1 by omega, Int.pow_succ, Int.mul_comm _ 10, ← Int.mul_assoc, ← hns]
    exact heq
  · exact ⟨h0, h1, h9, heq⟩

/-- The bytes that `push_iso` writes of a time of day, from the seconds on. -/
theorem exists_fraction {nano : Int} (h0 : 0 ≤ nano) (hlt : nano ≤ 999999999) (hfuel : 10 ≤ fuel) :
    ∃ l : List (BitVec 8), l.length ≤ 10 ∧ (∀ rest, Fraction nano (l ++ rest) rest) ∧ ∀ b : Content σ,
      (if 0 < nano then do
        let (ns, width) ← iterate trimRound fuel (nano, 9)
        let b ← b.pushByte A fuel 46#32
        pushDigits A fuel b ns width
      else pure b : Outcome (Content σ)) = pushAll A fuel b l := by
  rcases lt_or_ge 0 nano with hpos | hzero
  · obtain ⟨⟨ns, w⟩, hrun, hns, hw, hw9, heq⟩ := (trim_ends hpos hlt hfuel).exists
    dsimp only at hns hw hw9 heq
    obtain ⟨m, rfl⟩ := Int.eq_ofNat_of_zero_le hns.le
    have hm : m < 10 ^ w := by
      have hpow : (10 : Int) ^ w * 10 ^ (9 - w) = 10 ^ 9 := by rw [← Int.pow_add, Nat.add_sub_cancel' hw9]
      have hlt' : (m : Int) * 10 ^ (9 - w) < 10 ^ w * 10 ^ (9 - w) := by rw [heq, hpow]; omega
      have hm := Int.lt_of_mul_lt_mul_right hlt' (Int.pow_nonneg (by decide))
      exact_mod_cast hm
    refine ⟨46#8 :: padded m w, by simp; omega, fun rest => ?_, fun b => ?_⟩
    · have hvalue : ((value (padded m w) * 10 ^ (9 - (padded m w).length) : Nat) : Int) = nano := by
        rw [value_padded, Nat.mod_eq_of_lt hm, length_padded, ← heq]
        push_cast
        rfl
      rw [← hvalue]
      exact .some (by simpa using hw) (by simpa using hw9) (isDigit_padded m w)
    · rw [if_pos hpos, hrun, done_bind, pushAll_cons (show (46#32).setWidth 8 = 46#8 from rfl)]
      show (b.pushByte A fuel 46#32 >>= fun b => pushDigits A fuel b m w) = _
      congr
      funext b'
      rw [pushDigits_eq hns.le hw (by omega)]
      rfl
  · obtain rfl : nano = 0 := by omega
    exact ⟨[], by simp, fun rest => .none, fun b => by rw [if_neg (by decide)]; rfl⟩

/-- **Writing a date** pushes a text of it. -/
theorem pushIso_eq {d : Date} (h : d.Valid) (hfuel : 10 ≤ fuel) :
    ∃ l : List (BitVec 8), l.length ≤ 30 ∧ Text d 0 l ∧ ∀ b : Content σ, pushIso A fuel b d = pushAll A fuel b l := by
  obtain ⟨⟨hy, hy', hm, hm', hd, hd'⟩, hh, hmin, hs, hn⟩ := h
  have hlen : monthLength d.year d.month ≤ 31 := by
    simp only [monthLength]
    split_ifs <;> decide
  obtain ⟨f, hflen, hf, hpush⟩ := exists_fraction (A := A) hn.1 hn.2 hfuel
  have hfield : ∀ {w : Nat} {v : Int}, 0 ≤ v → v < 10 ^ w → ∀ rest, Field w v (padded v.toNat w ++ rest) rest := by
    intro w v h0 hlt rest
    obtain ⟨m, rfl⟩ := Int.eq_ofNat_of_zero_le h0
    exact field_padded (by exact_mod_cast hlt) rest
  refine ⟨padded d.year.toNat 4 ++ (45#8 :: (padded d.month.toNat 2 ++ (45#8 :: (padded d.day.toNat 2 ++ (84#8 ::
    (padded d.hour.toNat 2 ++ (58#8 :: (padded d.minute.toNat 2 ++ (58#8 :: (padded d.second.toNat 2 ++
      (f ++ [90#8]))))))))))), by simp; omega, ?_, fun b => ?_⟩
  · refine ⟨_, _, _, hfield hy (by omega) _, hfield (by omega) (by omega) _, hfield (by omega) (by omega) _, .inr
      ⟨_, _, rfl, .inl rfl, _, _, _, _, hfield hh.1 (by omega) _, hfield hmin.1 (by omega) _, hfield hs.1 (by omega) _,
        hf _, .zulu (.inl rfl)⟩⟩
  · have hstep : ∀ {n : Int} {w : Nat}, 0 ≤ n → 1 ≤ w → w ≤ 4 → ∀ (b : Content σ) (l : List (BitVec 8)),
        pushAll A fuel b (padded n.toNat w ++ l) = pushDigits A fuel b n w >>= fun b => pushAll A fuel b l := by
      intro n w hn hw hw4 b l
      rw [pushAll_append, pushDigits_eq hn hw (by omega)]
    have hbyte : ∀ (c : BitVec 32) (x : BitVec 8), c.setWidth 8 = x → ∀ (b : Content σ) (l : List (BitVec 8)),
        pushAll A fuel b (x :: l) = b.pushByte A fuel c >>= fun b => pushAll A fuel b l := fun c x hc b l => pushAll_cons hc
    rw [pushIso, hstep hy (by decide) le_rfl]
    congr; funext b
    rw [hbyte 45#32 45#8 rfl]
    congr; funext b
    rw [hstep (by omega) (by decide) (by decide)]
    congr; funext b
    rw [hbyte 45#32 45#8 rfl]
    congr; funext b
    rw [hstep (by omega) (by decide) (by decide)]
    congr; funext b
    rw [hbyte 84#32 84#8 rfl]
    congr; funext b
    rw [hstep hh.1 (by decide) (by decide)]
    congr; funext b
    rw [hbyte 58#32 58#8 rfl]
    congr; funext b
    rw [hstep hmin.1 (by decide) (by decide)]
    congr; funext b
    rw [hbyte 58#32 58#8 rfl]
    congr; funext b
    rw [hstep hs.1 (by decide) (by decide)]
    congr; funext b
    rw [hpush, pushAll_append]
    congr; funext b
    exact (pushAll_one rfl).symm

end Aipl.StdDate
