import Aipl.Lib.Bits
import Aipl.Lib.Outcome
import Aipl.Lib.SquareRoot
import Mathlib.Tactic.Linarith

/-! # std/math: divisors, powers and roots

* `gcd`, `pow`, `isqrt` and their 64-bit forms.
* `gcd_ends`, `pow_spec` — one statement for both widths.
* `isqrt_ends`, `isqrtI64_ends` — the root, whatever multiplication is exact where the product fits.
* `integers_exact` — all of it.
-/

namespace Aipl.StdMath

open Lib Lib.Outcome Lib.Wasm Lib.SquareRoot

variable {w : Nat}

/-! ### The functions -/

/-- `abs` and `abs_i64`. -/
def absW (x : BitVec w) : Outcome (BitVec w) := do
  require (x ≠ BitVec.intMin w)
  pure (if x.slt 0 then 0 - x else x)

/-- One round of `while (neq y 0)`. -/
def gcdRound : BitVec w × BitVec w → Outcome ((BitVec w × BitVec w) ⊕ BitVec w)
  | (x, y) => if y ≠ 0 then pure (.inl (y, x.srem y)) else pure (.inr x)

def gcdW (fuel : Nat) (a b : BitVec w) : Outcome (BitVec w) := do
  let x ← absW a
  let y ← absW b
  iterate gcdRound fuel (x, y)

def gcd (fuel : Nat) (a b : BitVec 32) : Outcome (BitVec 32) := gcdW fuel a b

def gcdI64 (fuel : Nat) (a b : BitVec 64) : Outcome (BitVec 64) := gcdW fuel a b

/-- `checked.mul`. -/
def checkedMul (a b : BitVec w) : Outcome (BitVec w) := do
  require (!a.smulOverflow b)
  pure (a * b)

/-- `*`, which wraps. -/
def wrappedMul (a b : BitVec w) : Outcome (BitVec w) := pure (a * b)

/-- One round of `while (gt k 0)`, on what is computed, the base and the exponent that remain. -/
def powRound (mul : BitVec w → BitVec w → Outcome (BitVec w)) :
    BitVec w × BitVec w × BitVec 32 → Outcome ((BitVec w × BitVec w × BitVec 32) ⊕ BitVec w)
  | (result, base, k) =>
    if (0#32).slt k then do
      let result ← (if k &&& 1 ≠ 0 then mul result base else pure result)
      let k := k >>> 1
      let base ← (if (0#32).slt k then mul base base else pure base)
      pure (.inl (result, base, k))
    else pure (.inr result)

/-- The body of `pow`, with the multiplication it uses. -/
def powWith (mul : BitVec w → BitVec w → Outcome (BitVec w)) (fuel : Nat) (x : BitVec w) (n : BitVec 32) :
    Outcome (BitVec w) := do
  require (!n.slt 0)
  iterate (powRound mul) fuel (1, x, n)

def pow (fuel : Nat) (x : BitVec 32) (n : BitVec 32) : Outcome (BitVec 32) := powWith checkedMul fuel x n

def powI64 (fuel : Nat) (x : BitVec 64) (n : BitVec 32) : Outcome (BitVec 64) := powWith checkedMul fuel x n

/-- One round of `while (gt (* r r) x)`. -/
def downRound (mul : BitVec w → BitVec w → Outcome (BitVec w)) (x r : BitVec w) :
    Outcome (BitVec w ⊕ BitVec w) := do
  let square ← mul r r
  if x.slt square then pure (.inl (r - 1)) else pure (.inr r)

/-- One round of the loop up to `last`: the second test is made when the first holds. -/
def upRound (mul : BitVec w → BitVec w → Outcome (BitVec w)) (last x r : BitVec w) :
    Outcome (BitVec w ⊕ BitVec w) :=
  if r.slt last then do
    let square ← mul (r + 1) (r + 1)
    if square.sle x then pure (.inl (r + 1)) else pure (.inr r)
  else pure (.inr r)

variable {φ : Type}

/-- The body of `isqrt`, with the multiplication it uses. -/
def isqrtWith (mul : BitVec 32 → BitVec 32 → Outcome (BitVec 32)) (F : Floats φ) (fuel : Nat) (x : BitVec 32) :
    Outcome (BitVec 32) := do
  require (!x.slt 0)
  let r ← ofOption (F.truncI32S (F.sqrt (F.convertI32S x)))
  iterate (downRound mul x) fuel r

def isqrt (F : Floats φ) (fuel : Nat) (x : BitVec 32) : Outcome (BitVec 32) := isqrtWith wrappedMul F fuel x

def isqrtI64With (mul : BitVec 64 → BitVec 64 → Outcome (BitVec 64)) (F : Floats φ) (fuel : Nat)
    (x : BitVec 64) : Outcome (BitVec 64) := do
  require (!x.slt 0)
  let r ← ofOption (F.truncI64S (F.sqrt (F.convertI64S x)))
  let r := if (3037000499#64).slt r then 3037000499 else r
  let r ← iterate (downRound mul x) fuel r
  iterate (upRound mul 3037000499 x) fuel r

def isqrtI64 (F : Floats φ) (fuel : Nat) (x : BitVec 64) : Outcome (BitVec 64) :=
  isqrtI64With wrappedMul F fuel x

example : gcd 10 (-12#32) 18 = .done 6 := by decide

example : pow 10 (-2#32) 31 = .done (BitVec.intMin 32) := by decide

/-! ### The greatest common divisor -/

@[simp] theorem zero_toInt : (0 : BitVec w).toInt = 0 := BitVec.toInt_zero

theorem toInt_ne_zero {b : BitVec w} (hb : b ≠ 0) : b.toInt ≠ 0 :=
  fun h => hb (BitVec.eq_of_toInt_eq (h.trans zero_toInt.symm))

theorem absW_eq {x : BitVec w} (hx : x ≠ BitVec.intMin w) :
    ∃ y : BitVec w, absW x = done y ∧ y.toInt = x.toInt.natAbs := by
  have hreq : require (x ≠ BitVec.intMin w) = done () := by simp [require, hx]
  have hneg : (0 - x).toInt = -x.toInt := by
    rw [show 0 - x = -x from BitVec.zero_sub x, BitVec.toInt_neg_of_ne_intMin hx]
  refine ⟨if x.slt 0 then 0 - x else x, by rw [absW, hreq, done_bind]; rfl, ?_⟩
  split
  · next hlt =>
    rw [BitVec.slt_iff_toInt_lt, zero_toInt] at hlt
    omega
  · next hlt =>
    rw [BitVec.slt_iff_toInt_lt, zero_toInt] at hlt
    omega

/-- **The divisor.**  Euclid's loop keeps what divides both numbers. -/
theorem gcd_ends {a b : BitVec w} {fuel : Nat} (ha : a ≠ BitVec.intMin w) (hb : b ≠ BitVec.intMin w)
    (hfuel : b.toInt.natAbs < fuel) : Ends (fun r : BitVec w => r.toInt = Int.gcd a.toInt b.toInt) (gcdW fuel a b) := by
  obtain ⟨x, hx, hxa⟩ := absW_eq ha
  obtain ⟨y, hy, hyb⟩ := absW_eq hb
  rw [gcdW, hx, done_bind, hy, done_bind]
  refine iterate_ends
    (fun s => 0 ≤ s.1.toInt ∧ 0 ≤ s.2.toInt ∧ Int.gcd s.1.toInt s.2.toInt = Int.gcd a.toInt b.toInt) _
    (fun s => s.2.toInt.toNat) ?_ fuel (x, y) ⟨by dsimp only; omega, by dsimp only; omega, ?_⟩ (by dsimp only; omega)
  · rintro ⟨x, y⟩ ⟨hx0, hy0, hgcd⟩
    dsimp only at hx0 hy0 hgcd
    rw [gcdRound]
    by_cases hy : y = 0
    · subst hy
      rw [if_neg (by simp)]
      rw [zero_toInt, Int.gcd_zero_right] at hgcd
      show x.toInt = _
      omega
    · rw [if_pos hy]
      have hne := toInt_ne_zero hy
      have hrem : (x.srem y).toInt = x.toInt % y.toInt := by
        rw [BitVec.toInt_srem, Int.tmod_eq_emod_of_nonneg hx0]
      refine ⟨⟨hy0, ?_, ?_⟩, ?_⟩
      · dsimp only
        rw [hrem]
        exact Int.emod_nonneg _ hne
      · dsimp only
        rw [hrem, Int.gcd_comm, Int.gcd_emod, hgcd]
      · dsimp only
        rw [hrem]
        have hlt := Int.emod_lt_of_pos x.toInt (b := y.toInt) (by omega)
        omega
  · dsimp only
    rw [hxa, hyb, Int.gcd, Int.gcd, Int.natAbs_natCast, Int.natAbs_natCast]

/-! ### Powers -/

/-- The number where it is in range, else a stop. -/
def Exactly (n : ℤ) (o : Outcome (BitVec w)) : Prop :=
  (InRange w n → o = done (BitVec.ofInt w n)) ∧ (¬ InRange w n → o = stop)

theorem checkedMul_exactly (a b : BitVec w) : Exactly (a.toInt * b.toInt) (checkedMul a b) := by
  constructor
  · intro h
    rw [checkedMul, not_smulOverflow_iff.mpr h, BitVec.ofInt_mul, BitVec.ofInt_toInt, BitVec.ofInt_toInt]
    rfl
  · intro h
    have hover : a.smulOverflow b = true := by
      by_contra hno
      exact h (not_smulOverflow_iff.mp (Bool.eq_false_iff.mpr hno))
    rw [checkedMul, hover]
    rfl

/-- One round of squaring. -/
theorem pow_halves {M : Type} [Monoid M] (b : M) (k : ℕ) : b ^ k = (if k % 2 = 1 then b else 1) * (b * b) ^ (k / 2) := by
  conv_lhs => rw [← Nat.mod_add_div k 2, pow_add, pow_mul, sq]
  rcases Nat.mod_two_eq_zero_or_one k with h | h
  · rw [h, pow_zero, if_neg (by decide)]
  · rw [h, pow_one, if_pos rfl]

theorem inRange_of_mul {n p : ℤ} (hp : 1 ≤ p) (h : InRange w (n * p)) : InRange w n := by
  obtain ⟨hlo, hhi⟩ := h
  have hpow : (0 : ℤ) < 2 ^ (w - 1) := by positivity
  constructor
  · by_contra hlt
    nlinarith
  · by_contra hlt
    nlinarith

/-- A square that is a factor of what is in range, and is not the bound itself, is in range. -/
theorem inRange_square {r b q : ℤ} (hr : r ≠ 0) (hq : 1 ≤ q) (hbound : b * b ≠ 2 ^ (w - 1))
    (h : InRange w (r * (b * b * q))) : InRange w (b * b) := by
  obtain ⟨hlo, hhi⟩ := h
  have hpow : (0 : ℤ) < 2 ^ (w - 1) := by positivity
  have hsq : 0 ≤ b * b := mul_self_nonneg b
  have hle : b * b ≤ b * b * q := le_mul_of_one_le_right hsq hq
  refine ⟨by omega, lt_of_le_of_ne ?_ hbound⟩
  rcases lt_or_gt_of_ne hr with hneg | hpos
  · have : r * (b * b * q) ≤ -(b * b * q) := by nlinarith
    omega
  · have : b * b * q ≤ r * (b * b * q) := by nlinarith
    omega

theorem one_le_square_pow {b : ℤ} (hb : b ≠ 0) (k : ℕ) : 1 ≤ (b * b) ^ k :=
  one_le_pow₀ (by have := mul_self_pos.mpr hb; omega)

theorem odd_iff (k : BitVec 32) : k &&& 1 ≠ 0 ↔ k.toNat % 2 = 1 := by
  have h : (k &&& 1).toNat = k.toNat % 2 := by
    rw [BitVec.toNat_and]
    exact Nat.and_one_is_mod _
  constructor
  · intro hne
    have : (k &&& 1).toNat ≠ 0 := fun h0 => hne (BitVec.eq_of_toNat_eq h0)
    omega
  · intro hodd h0
    rw [h0] at h
    change 0 = _ at h
    omega

/-- The first product of a round, where the exponent is odd. -/
theorem result_step {r b : BitVec w} {k : BitVec 32} (hw : 0 < w) (hr : b ≠ 0 → r ≠ 0) :
    (¬ InRange w (r.toInt * b.toInt ^ k.toNat) ∧
      (if k &&& 1 ≠ 0 then checkedMul r b else pure r) = stop) ∨
    ∃ r', (if k &&& 1 ≠ 0 then checkedMul r b else pure r) = done r' ∧
      r'.toInt = r.toInt * (if k.toNat % 2 = 1 then b.toInt else 1) ∧ (b ≠ 0 → r' ≠ 0) := by
  by_cases hodd : k &&& 1 ≠ 0
  · rw [if_pos hodd, if_pos ((odd_iff k).mp hodd)]
    by_cases hin : InRange w (r.toInt * b.toInt)
    · have hprod := toInt_ofInt_of_inRange hw hin
      refine .inr ⟨_, (checkedMul_exactly r b).1 hin, hprod, fun hb h0 => ?_⟩
      rw [h0] at hprod
      exact mul_ne_zero (toInt_ne_zero (hr hb)) (toInt_ne_zero hb) (hprod.symm.trans zero_toInt)
    · refine .inl ⟨fun hall => hin ?_, (checkedMul_exactly r b).2 hin⟩
      by_cases hb : b = 0
      · rw [hb, zero_toInt, mul_zero]
        exact ⟨by simp, by positivity⟩
      · rw [pow_halves, if_pos ((odd_iff k).mp hodd), ← mul_assoc] at hall
        exact inRange_of_mul (one_le_square_pow (toInt_ne_zero hb) _) hall
  · rw [if_neg hodd, if_neg (mt (odd_iff k).mpr hodd)]
    exact .inr ⟨r, rfl, (mul_one _).symm, hr⟩

/-- The square of a round, where an exponent remains. -/
theorem base_step {r r' b : BitVec w} {k : BitVec 32} (hw : 0 < w) (hbound : ∀ n : ℤ, n * n ≠ 2 ^ (w - 1))
    (hk : (k >>> 1).toNat < 2 ^ 31) (hr' : r'.toInt = r.toInt * (if k.toNat % 2 = 1 then b.toInt else 1))
    (hne : b ≠ 0 → r' ≠ 0) :
    (¬ InRange w (r.toInt * b.toInt ^ k.toNat) ∧
      (if (0#32).slt (k >>> 1) then checkedMul b b else pure b) = stop) ∨
    ∃ b', (if (0#32).slt (k >>> 1) then checkedMul b b else pure b) = done b' ∧
      r.toInt * b.toInt ^ k.toNat = r'.toInt * b'.toInt ^ (k >>> 1).toNat ∧ (b' ≠ 0 → r' ≠ 0) := by
  have hhalf : (k >>> 1).toNat = k.toNat / 2 := by
    rw [BitVec.toNat_ushiftRight, Nat.shiftRight_eq_div_pow, pow_one]
  have hsplit : r.toInt * b.toInt ^ k.toNat = r'.toInt * (b.toInt * b.toInt) ^ (k >>> 1).toNat := by
    rw [pow_halves, hr', hhalf, mul_assoc]
  by_cases hpos : (0#32).slt (k >>> 1) = true
  · rw [if_pos hpos]
    have hlt := (zero_slt_iff hk).mp hpos
    by_cases hin : InRange w (b.toInt * b.toInt)
    · have hprod := toInt_ofInt_of_inRange hw hin
      refine .inr ⟨_, (checkedMul_exactly b b).1 hin, by rw [hsplit, hprod], fun hb' => hne ?_⟩
      rintro rfl
      rw [zero_toInt, mul_zero] at hb'
      exact hb' (BitVec.ofInt_ofNat w 0)
    · refine .inl ⟨fun hall => hin ?_, (checkedMul_exactly b b).2 hin⟩
      by_cases hb : b = 0
      · rw [hb, zero_toInt, mul_zero]
        exact ⟨by simp, by positivity⟩
      · rw [hsplit, ← Nat.sub_add_cancel hlt, pow_succ'] at hall
        exact inRange_square (toInt_ne_zero (hne hb)) (one_le_square_pow (toInt_ne_zero hb) _) (hbound _) hall
  · rw [if_neg hpos]
    have hzero : (k >>> 1).toNat = 0 := by
      have := mt (zero_slt_iff hk).mpr hpos
      omega
    refine .inr ⟨b, rfl, ?_, hne⟩
    rw [hsplit, hzero, pow_zero, pow_zero]

theorem toNat_half (k : BitVec 32) : (k >>> 1).toNat = k.toNat / 2 := by
  rw [BitVec.toNat_ushiftRight, Nat.shiftRight_eq_div_pow, pow_one]

theorem powRound_pos (mul : BitVec w → BitVec w → Outcome (BitVec w)) (r b : BitVec w) {k : BitVec 32}
    (hk : (0#32).slt k = true) : powRound mul (r, b, k) =
      (if k &&& 1 ≠ 0 then mul r b else pure r) >>= fun r' =>
        (if (0#32).slt (k >>> 1) then mul b b else pure b) >>= fun b' => done (.inl (r', b', k >>> 1)) := by
  rw [powRound, if_pos hk]
  rfl

theorem powRound_zero (mul : BitVec w → BitVec w → Outcome (BitVec w)) (r b : BitVec w) {k : BitVec 32}
    (hk : k.toNat = 0) : powRound mul (r, b, k) = done (.inr r) := by
  rw [powRound, if_neg (mt (zero_slt_iff (by omega)).mp (by omega))]
  rfl

/-- **The loop of powers.** -/
theorem powLoop_spec (hw : 0 < w) (hbound : ∀ n : ℤ, n * n ≠ 2 ^ (w - 1)) :
    ∀ (fuel : Nat) (r b : BitVec w) (k : BitVec 32), k.toNat < 2 ^ 31 → k.toNat < 2 ^ fuel → (b ≠ 0 → r ≠ 0) →
      Exactly (r.toInt * b.toInt ^ k.toNat) (iterate (powRound checkedMul) (fuel + 1) (r, b, k)) := by
  intro fuel
  induction fuel with
  | zero =>
    intro r b k hk hfuel hr
    have hzero : k.toNat = 0 := by omega
    rw [iterate, powRound_zero _ _ _ hzero, hzero, pow_zero, mul_one]
    exact ⟨fun _ => by rw [BitVec.ofInt_toInt]; rfl, fun h => absurd (toInt_inRange r) h⟩
  | succ fuel ih =>
    intro r b k hk hfuel hr
    have hhalf := toNat_half k
    rw [pow_succ] at hfuel
    rcases Nat.eq_zero_or_pos k.toNat with hzero | hpos
    · rw [iterate, powRound_zero _ _ _ hzero, hzero, pow_zero, mul_one]
      exact ⟨fun _ => by rw [BitVec.ofInt_toInt]; rfl, fun h => absurd (toInt_inRange r) h⟩
    rw [iterate, powRound_pos _ _ _ ((zero_slt_iff hk).mpr hpos)]
    rcases result_step (r := r) (k := k) hw hr with ⟨hnot, hstop⟩ | ⟨r', hr', hval, hne⟩
    · rw [hstop]
      exact ⟨fun h => absurd h hnot, fun _ => rfl⟩
    rcases base_step hw hbound (by omega) hval hne with ⟨hnot, hstop⟩ | ⟨b', hb', hall, hne'⟩
    · rw [hr', done_bind, hstop]
      exact ⟨fun h => absurd h hnot, fun _ => rfl⟩
    rw [hr', done_bind, hb', done_bind, done_bind, hall]
    exact ih r' b' (k >>> 1) (by omega) (by omega) hne'

/-- The loop with multiplications that wrap never stops. -/
theorem powLoop_wrapped : ∀ (fuel : Nat) (r b : BitVec w) (k : BitVec 32), k.toNat < 2 ^ 31 → k.toNat < 2 ^ fuel →
    iterate (powRound wrappedMul) (fuel + 1) (r, b, k) = done (r * b ^ k.toNat) := by
  intro fuel
  induction fuel with
  | zero =>
    intro r b k hk hfuel
    have hzero : k.toNat = 0 := by omega
    rw [iterate, powRound_zero _ _ _ hzero, hzero, pow_zero, mul_one]
    rfl
  | succ fuel ih =>
    intro r b k hk hfuel
    have hhalf := toNat_half k
    rw [pow_succ] at hfuel
    rcases Nat.eq_zero_or_pos k.toNat with hzero | hpos
    · rw [iterate, powRound_zero _ _ _ hzero, hzero, pow_zero, mul_one]
      rfl
    have hresult : (if k &&& 1 ≠ 0 then wrappedMul r b else pure r) =
        done (r * if k.toNat % 2 = 1 then b else 1) := by
      by_cases hodd : k &&& 1 ≠ 0
      · rw [if_pos hodd, if_pos ((odd_iff k).mp hodd)]
        rfl
      · rw [if_neg hodd, if_neg (mt (odd_iff k).mpr hodd), mul_one]
        rfl
    rw [iterate, powRound_pos _ _ _ ((zero_slt_iff hk).mpr hpos), hresult, done_bind, pow_halves, ← mul_assoc, ← hhalf]
    by_cases hmore : (0#32).slt (k >>> 1) = true
    · rw [if_pos hmore]
      exact ih _ (b * b) (k >>> 1) (by omega) (by omega)
    · have hzero : (k >>> 1).toNat = 0 := by
        have := mt (zero_slt_iff (by omega)).mpr hmore
        omega
      rw [if_neg hmore, pure_eq, done_bind, done_bind]
      dsimp only
      rw [ih _ b (k >>> 1) (by omega) (by omega), hzero, pow_zero, pow_zero]

theorem not_neg {n : BitVec w} (hn : 0 ≤ n.toInt) : require (!n.slt 0) = done () := by
  have : ¬ n.slt 0 = true := by
    rw [BitVec.slt_iff_toInt_lt, zero_toInt]
    omega
  rw [Bool.not_eq_true] at this
  rw [this]
  rfl

/-- **Powers**: exact where they fit, else a stop; and only its multiplications make it stop. -/
theorem pow_spec {x : BitVec w} {n : BitVec 32} {fuel : Nat} (hw : 1 < w) (hbound : ∀ n : ℤ, n * n ≠ 2 ^ (w - 1))
    (hn : 0 ≤ n.toInt) (hfuel : 32 ≤ fuel) :
    Exactly (x.toInt ^ n.toNat) (powWith checkedMul fuel x n) ∧ powWith wrappedMul fuel x n = done (x ^ n.toNat) := by
  obtain ⟨-, hlt⟩ := toInt_of_nonneg hn
  obtain ⟨f, rfl⟩ : ∃ f, fuel = f + 1 := ⟨fuel - 1, by omega⟩
  have hpow : n.toNat < 2 ^ f := hlt.trans_le (Nat.pow_le_pow_right (by decide) (by omega))
  rw [powWith, powWith, not_neg hn, done_bind, done_bind]
  constructor
  · have hone : (1 : BitVec w).toInt = 1 := BitVec.toInt_one hw
    have hloop := powLoop_spec (by omega) hbound f 1 x n hlt hpow fun _ h0 => by
      rw [h0, zero_toInt] at hone
      exact absurd hone (by decide)
    rwa [hone, one_mul] at hloop
  · rw [powLoop_wrapped f 1 x n hlt hpow, one_mul]

/-! ### Roots -/

/-- The largest number whose square is at most `x`. -/
def IsRoot (x : ℤ) (r : ℤ) : Prop := IsGreatest {s : ℤ | s * s ≤ x} r

theorem isRoot_of_between {x r : ℤ} (hr : 0 ≤ r) (hle : r * r ≤ x) (hlt : x < (r + 1) * (r + 1)) : IsRoot x r := by
  refine ⟨hle, fun s hs => ?_⟩
  by_contra hmore
  have hs' : s * s ≤ x := hs
  have : (r + 1) * (r + 1) ≤ s * s := mul_le_mul (by omega) (by omega) (by omega) (by omega)
  omega

/-- A multiplication that is exact where the product fits; the checked and the wrapping one are. -/
def Exact (mul : BitVec w → BitVec w → Outcome (BitVec w)) : Prop :=
  ∀ a b, InRange w (a.toInt * b.toInt) → ∃ c, mul a b = done c ∧ c.toInt = a.toInt * b.toInt

theorem exact_checkedMul (hw : 0 < w) : Exact (checkedMul (w := w)) := fun a b h =>
  ⟨_, (checkedMul_exactly a b).1 h, toInt_ofInt_of_inRange hw h⟩

theorem exact_wrappedMul : Exact (wrappedMul (w := w)) := fun a b h =>
  ⟨_, rfl, BitVec.toInt_mul_of_not_smulOverflow (by simpa using not_smulOverflow_iff.mpr h)⟩

/-- Where the squares up to `last` fit, a multiplication that is exact gives them. -/
theorem Exact.square {mul : BitVec w → BitVec w → Outcome (BitVec w)} (hmul : Exact mul) {last : ℤ}
    (hlast : last * last < 2 ^ (w - 1)) {r : BitVec w} (hr : 0 ≤ r.toInt) (hle : r.toInt ≤ last) :
    ∃ c, mul r r = done c ∧ c.toInt = r.toInt * r.toInt := by
  have hsq : r.toInt * r.toInt ≤ last * last := mul_le_mul hle hle hr (hr.trans hle)
  have hpow : (0 : ℤ) < 2 ^ (w - 1) := by positivity
  have hpos := mul_self_nonneg r.toInt
  exact hmul r r ⟨by omega, by omega⟩

theorem toInt_add_one {r : BitVec w} (hw : 1 < w) (h : InRange w (r.toInt + 1)) : (r + 1).toInt = r.toInt + 1 := by
  have hone : (1 : BitVec w).toInt = 1 := BitVec.toInt_one hw
  rw [BitVec.toInt_add_of_not_saddOverflow, hone]
  rw [Bool.not_eq_true]
  exact not_saddOverflow_iff.mpr (by rwa [hone])

theorem toInt_sub_one {r : BitVec w} (hw : 1 < w) (h : InRange w (r.toInt - 1)) : (r - 1).toInt = r.toInt - 1 := by
  have hone : (1 : BitVec w).toInt = 1 := BitVec.toInt_one hw
  rw [BitVec.toInt_sub_of_not_ssubOverflow, hone]
  rw [Bool.not_eq_true]
  exact not_ssubOverflow_iff.mpr (by rwa [hone])

variable {mul : BitVec w → BitVec w → Outcome (BitVec w)} {x r : BitVec w} {m : ℤ} {fuel : Nat}

/-- **The loop down.**  It ends at a square that is small enough, and does not leave the root behind. -/
theorem down_ends (hw : 1 < w) (hmul : Exact mul) (hlast : m * m < 2 ^ (w - 1)) (hx : 0 ≤ x.toInt)
    (hr : 0 ≤ r.toInt) (hle : r.toInt ≤ m) (hfuel : r.toInt.toNat < fuel) :
    Ends (fun s => (0 ≤ s.toInt ∧ s.toInt ≤ m) ∧ s.toInt * s.toInt ≤ x.toInt ∧
      (x.toInt < (r.toInt + 1) * (r.toInt + 1) → x.toInt < (s.toInt + 1) * (s.toInt + 1)))
      (iterate (downRound mul x) fuel r) := by
  refine iterate_ends (fun s => (0 ≤ s.toInt ∧ s.toInt ≤ m) ∧
    (x.toInt < (r.toInt + 1) * (r.toInt + 1) → x.toInt < (s.toInt + 1) * (s.toInt + 1))) _
    (fun s => s.toInt.toNat) ?_ fuel r ⟨⟨hr, hle⟩, id⟩ hfuel
  rintro s ⟨⟨hs, hsl⟩, hroot⟩
  obtain ⟨c, hc, hcv⟩ := hmul.square hlast hs hsl
  rw [downRound, hc, done_bind]
  by_cases hlt : x.slt c = true
  · rw [if_pos hlt]
    rw [BitVec.slt_iff_toInt_lt, hcv] at hlt
    have hspos : 0 < s.toInt := by
      rcases hs.lt_or_eq with h | h
      · exact h
      · rw [← h] at hlt
        omega
    have hrange := toInt_inRange s
    obtain ⟨-, hshi⟩ := hrange
    have hpow : (0 : ℤ) < 2 ^ (w - 1) := by positivity
    have hsub := toInt_sub_one hw (r := s) ⟨by omega, by omega⟩
    refine ⟨⟨?_, fun _ => ?_⟩, ?_⟩
    · rw [hsub]
      omega
    · rw [hsub, Int.sub_add_cancel]
      exact hlt
    · rw [hsub]
      omega
  · rw [if_neg hlt]
    rw [BitVec.slt_iff_toInt_lt, hcv] at hlt
    exact ⟨⟨hs, hsl⟩, by omega, hroot⟩

/-- **The loop up.** -/
theorem up_ends {last : BitVec w} (hw : 1 < w) (hmul : Exact mul) (hlast : last.toInt * last.toInt < 2 ^ (w - 1))
    (hend : x.toInt < (last.toInt + 1) * (last.toInt + 1)) (hr : 0 ≤ r.toInt) (hle : r.toInt ≤ last.toInt)
    (hsq : r.toInt * r.toInt ≤ x.toInt) (hfuel : (last.toInt - r.toInt).toNat < fuel) :
    Ends (fun s => IsRoot x.toInt s.toInt) (iterate (upRound mul last x) fuel r) := by
  refine iterate_ends (fun s => 0 ≤ s.toInt ∧ s.toInt ≤ last.toInt ∧ s.toInt * s.toInt ≤ x.toInt) _
    (fun s => (last.toInt - s.toInt).toNat) ?_ fuel r ⟨hr, hle, hsq⟩ hfuel
  rintro s ⟨hs, hsl, hsx⟩
  rw [upRound]
  by_cases hlt : s.slt last = true
  · rw [if_pos hlt]
    rw [BitVec.slt_iff_toInt_lt] at hlt
    have hpow : (0 : ℤ) < 2 ^ (w - 1) := by positivity
    have hadd := toInt_add_one hw (r := s) ⟨by omega, by have := (toInt_inRange last).2; omega⟩
    obtain ⟨c, hc, hcv⟩ := hmul.square hlast (r := s + 1) (by omega) (by omega)
    rw [hc, done_bind]
    by_cases hle : c.sle x = true
    · rw [if_pos hle]
      rw [BitVec.sle_iff_toInt_le, hcv, hadd] at hle
      refine ⟨⟨?_, ?_, ?_⟩, ?_⟩
      · rw [hadd]
        omega
      · rw [hadd]
        omega
      · rwa [hadd]
      · rw [hadd]
        omega
    · rw [if_neg hle]
      rw [BitVec.sle_iff_toInt_le, hcv, hadd] at hle
      exact isRoot_of_between hs hsx (by omega)
  · rw [if_neg hlt]
    rw [BitVec.slt_iff_toInt_lt] at hlt
    have heq : s.toInt = last.toInt := by omega
    exact isRoot_of_between hs hsx (by rwa [heq])

theorem isqrt_ends {F : Floats φ} {value : φ → Option ℝ} {round : ℝ → ℝ} (h : F.Rounding value round)
    {mul : BitVec 32 → BitVec 32 → Outcome (BitVec 32)} (hmul : Exact mul) {x : BitVec 32} (hx : 0 ≤ x.toInt)
    {fuel : Nat} (hfuel : 46340 < fuel) : Ends (fun r => IsRoot x.toInt r.toInt) (isqrtWith mul F fuel x) := by
  obtain ⟨t, ht, htpos, htle, hlt⟩ := h.root32 hx
  rw [isqrtWith, not_neg hx, done_bind, ht, ofOption, done_bind]
  refine (down_ends (by decide) hmul (m := 46340) (by decide) hx htpos htle (by omega)).mono ?_
  rintro s ⟨⟨hs, -⟩, hsq, hroot⟩
  exact isRoot_of_between hs hsq (hroot hlt)

theorem isqrtI64_ends {F : Floats φ} {value : φ → Option ℝ} {round : ℝ → ℝ} (h : F.Rounding value round)
    {mul : BitVec 64 → BitVec 64 → Outcome (BitVec 64)} (hmul : Exact mul) {x : BitVec 64} (hx : 0 ≤ x.toInt)
    {fuel : Nat} (hfuel : 3037000499 < fuel) :
    Ends (fun r => IsRoot x.toInt r.toInt) (isqrtI64With mul F fuel x) := by
  obtain ⟨t, ht, htpos⟩ := h.root64 hx
  have hlast : (3037000499 : BitVec 64).toInt = 3037000499 := by decide
  rw [isqrtI64With, not_neg hx, done_bind, ht, ofOption, done_bind]
  have hclamp : ∃ r, (if (3037000499#64).slt t then 3037000499 else t) = r ∧ 0 ≤ r.toInt ∧ r.toInt ≤ 3037000499 := by
    refine ⟨_, rfl, ?_⟩
    have hiff : (3037000499#64).slt t = true ↔ 3037000499 < t.toInt := by
      rw [BitVec.slt_iff_toInt_lt, show (3037000499#64).toInt = 3037000499 by decide]
    split
    · rw [hlast]
      exact ⟨by decide, le_rfl⟩
    · next hle =>
      rw [hiff] at hle
      omega
  obtain ⟨r, hr, hrpos, hrle⟩ := hclamp
  dsimp only
  rw [hr]
  refine ends_bind (down_ends (by decide) hmul (m := 3037000499) (by decide) hx hrpos hrle (by omega)) ?_
  rintro s ⟨⟨hs, hsle⟩, hsq, -⟩
  have hxlt := BitVec.toInt_lt (x := x)
  exact up_ends (by decide) hmul (by decide) (by rw [hlast]; omega) hs (by rwa [hlast]) hsq (by rw [hlast]; omega)

/-- Two runs that end with the root end the same. -/
theorem eq_of_isRoot {n : ℤ} {o o' : Outcome (BitVec w)} (h : Ends (fun r => IsRoot n r.toInt) o)
    (h' : Ends (fun r => IsRoot n r.toInt) o') : o = o' := by
  obtain ⟨r, rfl, hr⟩ := h.exists
  obtain ⟨r', rfl, hr'⟩ := h'.exists
  rw [BitVec.eq_of_toInt_eq (IsGreatest.unique hr hr')]

theorem square_ne_32 (n : ℤ) : n * n ≠ 2 ^ (32 - 1) := by
  intro h
  have hlo : |n| < 46341 := abs_lt_of_sq_lt_sq (by rw [sq, h]; norm_num) (by norm_num)
  have hhi : 46340 < |n| := by
    by_contra hle
    have := mul_le_mul (not_lt.mp hle) (not_lt.mp hle) (abs_nonneg n) (by norm_num)
    rw [abs_mul_abs_self, h] at this
    norm_num at this
  omega

theorem square_ne_64 (n : ℤ) : n * n ≠ 2 ^ (64 - 1) := by
  intro h
  have hlo : |n| < 3037000500 := abs_lt_of_sq_lt_sq (by rw [sq, h]; norm_num) (by norm_num)
  have hhi : 3037000499 < |n| := by
    by_contra hle
    have := mul_le_mul (not_lt.mp hle) (not_lt.mp hle) (abs_nonneg n) (by norm_num)
    rw [abs_mul_abs_self, h] at this
    norm_num at this
  omega

/-- **Powers, roots and divisors are exact.**  A power that does not fit stops at a checked multiplication,
since with multiplications that wrap there is a result; no product of a root wraps, since the checked
multiplications give the same. -/
theorem integers_exact {F : Floats φ} {value : φ → Option ℝ} {round : ℝ → ℝ} (h : F.Rounding value round) :
    (∀ (fuel : Nat) (x n : BitVec 32), 32 ≤ fuel → 0 ≤ n.toInt →
      Exactly (x.toInt ^ n.toNat) (pow fuel x n) ∧ powWith wrappedMul fuel x n = done (x ^ n.toNat)) ∧
    (∀ (fuel : Nat) (x : BitVec 64) (n : BitVec 32), 32 ≤ fuel → 0 ≤ n.toInt →
      Exactly (x.toInt ^ n.toNat) (powI64 fuel x n) ∧ powWith wrappedMul fuel x n = done (x ^ n.toNat)) ∧
    (∀ (fuel : Nat) (x : BitVec 32), 46340 < fuel → 0 ≤ x.toInt →
      Ends (fun r => IsRoot x.toInt r.toInt) (isqrt F fuel x) ∧
        isqrtWith checkedMul F fuel x = isqrt F fuel x) ∧
    (∀ (fuel : Nat) (x : BitVec 64), 3037000499 < fuel → 0 ≤ x.toInt →
      Ends (fun r => IsRoot x.toInt r.toInt) (isqrtI64 F fuel x) ∧
        isqrtI64With checkedMul F fuel x = isqrtI64 F fuel x) ∧
    (∀ (fuel : Nat) (a b : BitVec 32), b.toInt.natAbs < fuel → a ≠ BitVec.intMin 32 → b ≠ BitVec.intMin 32 →
      Ends (fun r : BitVec 32 => r.toInt = Int.gcd a.toInt b.toInt) (gcd fuel a b)) ∧
    ∀ (fuel : Nat) (a b : BitVec 64), b.toInt.natAbs < fuel → a ≠ BitVec.intMin 64 → b ≠ BitVec.intMin 64 →
      Ends (fun r : BitVec 64 => r.toInt = Int.gcd a.toInt b.toInt) (gcdI64 fuel a b) := by
  refine ⟨?_, ?_, ?_, ?_, ?_, ?_⟩
  · intro fuel x n hfuel hn
    exact pow_spec (by decide) square_ne_32 hn hfuel
  · intro fuel x n hfuel hn
    exact pow_spec (by decide) square_ne_64 hn hfuel
  · intro fuel x hfuel hx
    have hends := isqrt_ends h exact_wrappedMul hx hfuel
    exact ⟨hends, eq_of_isRoot (isqrt_ends h (exact_checkedMul (by decide)) hx hfuel) hends⟩
  · intro fuel x hfuel hx
    have hends := isqrtI64_ends h exact_wrappedMul hx hfuel
    exact ⟨hends, eq_of_isRoot (isqrtI64_ends h (exact_checkedMul (by decide)) hx hfuel) hends⟩
  · intro fuel a b hfuel ha hb
    exact gcd_ends ha hb hfuel
  · intro fuel a b hfuel ha hb
    exact gcd_ends ha hb hfuel

/-- Floats that hold every real number. -/
noncomputable def reals : Floats ℝ where
  convertI32S i := i.toInt
  convertI64S i := i.toInt
  sqrt := Real.sqrt
  truncI32S p := if 0 ≤ p ∧ p < 2 ^ 31 then some (BitVec.ofInt 32 ⌊p⌋) else none
  truncI64S p := if 0 ≤ p ∧ p < 2 ^ 63 then some (BitVec.ofInt 64 ⌊p⌋) else none

theorem reals_rounding : reals.Rounding some id where
  mono := monotone_id
  exact _ _ _ _ _ := rfl
  convertI32S _ := rfl
  convertI64S _ := rfl
  sqrt := by
    rintro x p ⟨⟩ -
    rfl
  truncI32S := by
    rintro x p ⟨⟩ h0 hlt
    refine ⟨_, if_pos ⟨h0, hlt⟩, toInt_ofInt_of_inRange (by decide) ⟨?_, ?_⟩⟩
    · have := Int.floor_nonneg.mpr h0
      omega
    · rw [Int.floor_lt]
      exact_mod_cast hlt
  truncI64S := by
    rintro x p ⟨⟩ h0 hlt
    refine ⟨_, if_pos ⟨h0, hlt⟩, toInt_ofInt_of_inRange (by decide) ⟨?_, ?_⟩⟩
    · have := Int.floor_nonneg.mpr h0
      omega
    · rw [Int.floor_lt]
      exact_mod_cast hlt

theorem integers_exact_reals :
    pow 32 (-2#32) 31 = done (BitVec.intMin 32) ∧ powI64 32 (3#64) 40 = stop ∧
    Ends (fun r => IsRoot 100 r.toInt) (isqrt reals 46341 100) ∧
    Ends (fun r => IsRoot 10000000000000000 r.toInt) (isqrtI64 reals 3037000500 10000000000000000) ∧
    Ends (fun r : BitVec 32 => r.toInt = 6) (gcd 19 (-12#32) 18) ∧
    Ends (fun r : BitVec 64 => r.toInt = 6) (gcdI64 19 (-12#64) 18) := by
  obtain ⟨hpow, hpow64, hroot, hroot64, hgcd, hgcd64⟩ := integers_exact reals_rounding
  refine ⟨?_, ?_, ?_, ?_, ?_, ?_⟩
  · exact ((hpow 32 (-2#32) 31 (by decide) (by decide)).1.1 ⟨by decide, by decide⟩).trans (by decide)
  · refine (hpow64 32 (3#64) 40 (by decide) (by decide)).1.2 fun h => absurd h.2 (by decide)
  · exact (hroot 46341 100 (by decide) (by decide)).1
  · exact (hroot64 3037000500 10000000000000000 (by decide) (by decide)).1
  · exact hgcd 19 (-12#32) 18 (by decide) (by decide) (by decide)
  · exact hgcd64 19 (-12#64) 18 (by decide) (by decide) (by decide)

end Aipl.StdMath
