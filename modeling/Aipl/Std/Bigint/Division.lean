import Aipl.Lib.Floats
import Aipl.Std.Bigint.Calls

/-! # The quotient of `std/bigint`'s `div_small_quotient`: its estimate

The quotient is estimated from the top limbs, in floating point, and then corrected.  The floating
point operations are a parameter; whatever their rounding, the estimate of a quotient below `2^31` is
found, and is not negative (`estimate_ends`).
-/

namespace Aipl.StdBigint

open Aipl.Lib Aipl.Lib.Outcome Aipl.Lib.Radix Aipl.Lib.F64 Aipl.Std

section

variable {ι σ φ : Type} (F : F64 φ) (A : ι → Allocator σ) (fuel : Nat)

/-- `top_f64`: the number from the limbs `unit - 2` up. -/
def topF64 (w : World ι σ) (x : Nat) (unit : BitVec 32) : Outcome φ := do
  let lo := if unit.slt 2#32 then 0#32 else unit - 2#32
  let r ← forLoop fuel 1#32 ((w.ints x).len - lo + 1#32)
    (fun j r => do
      let l ← limb w x ((w.ints x).len - j)
      pure (F.add (F.mul r (F.literal 4294967296)) (F.convertI64S l)))
    (F.literal 0)
  forLoop fuel 1#32 (unit - lo + 1#32) (fun _ r => pure (F.div r (F.literal 4294967296))) r

/-- `(if (gte est 2147483647.0) 2147483647 (i32.wrap (i64.trunc_f64_s est)))`. -/
def clamped (est : φ) : Outcome (BitVec 32) :=
  if F.ge est (F.literal 2147483647) then done 2147483647#32
  else do
    let t ← ofOption (F.truncI64S est)
    pure (t.setWidth 32)

def estimate (w : World ι σ) (a b : Nat) : Outcome (BitVec 32) := do
  let unit := (w.ints b).len - 1#32
  let ta ← topF64 F fuel w a unit
  let tb ← topF64 F fuel w b unit
  clamped F (F.div ta tb)

/-- A round of `(while (lt (call sign a) 0) (call add a b) (set! q (- q 1)))`. -/
def addBack (a b : Nat) (s : World ι σ × BitVec 32) :
    Outcome ((World ι σ × BitVec 32) ⊕ (World ι σ × BitVec 32)) :=
  if (sign s.1 a).slt 0#32 then do
    let w ← addMulSmall A fuel s.1 a b 1#32
    pure (.inl (w, s.2 - 1#32))
  else done (.inr s)

/-- A round of `(while (gte (call compare a b) 0) (call sub a b) (set! q (+ q 1)))`. -/
def takeOff (a b : Nat) (s : World ι σ × BitVec 32) :
    Outcome ((World ι σ × BitVec 32) ⊕ (World ι σ × BitVec 32)) := do
  let c ← compare fuel s.1 a b
  if (0#32).sle c then do
    let w ← addMulSmall A fuel s.1 a b (-1#32)
    pure (.inl (w, s.2 + 1#32))
  else pure (.inr s)

/-- The steps of `div_small_quotient` after the guess `q`: the quotient, and the remainder in `a`. -/
def correct (w : World ι σ) (a b : Nat) (q : BitVec 32) : Outcome (BitVec 32 × World ι σ) := do
  let w ← subMulSmall A fuel w a b q
  let s ← iterate (addBack A fuel a b) fuel (w, q)
  let s ← iterate (takeOff A fuel a b) fuel s
  pure (s.2, s.1)

def divSmallQuotient (w : World ι σ) (a b : Nat) : Outcome (BitVec 32 × World ι σ) := do
  require ((0#32).sle (sign w a))
  require ((0#32).slt (sign w b))
  let q ← estimate F fuel w a b
  correct A fuel w a b q

end

/-! ### The top limbs -/

section

variable {ι σ φ : Type} {F : F64 φ} {value : φ → Option ℚ} {round : ℚ → ℚ} {fuel : Nat}
  {w : World ι σ}

/-- A limb, as an `i64`. -/
theorem Shape.toInt_digit {n : BigInt ι} (h : Shape n) (i : Nat) :
    (digit n.limbs i).toInt = (digit n.limbs i).toNat := by
  have := h.toNat_lt i
  exact BitVec.toInt_eq_toNat_of_lt (by omega)

/-- Whether the highest limb is there: 0 or 1, a lower bound of it. -/
def topBound (n : BigInt ι) : ℚ := if digit n.limbs (n.len.toNat - 1) = 0#64 then 0 else 1

theorem kept_topBound (n : BigInt ι) {k : Nat} (hk : k ≤ 1023) : Kept (topBound n * 2 ^ k) := by
  rw [topBound]
  split
  · rw [zero_mul]
    exact kept_zero
  · rw [one_mul]
    exact kept_pow hk

theorem topBound_le (n : BigInt ι) :
    topBound n ≤ ((digit n.limbs (n.len.toNat - 1)).toNat : ℚ) := by
  rw [topBound]
  split
  · exact Nat.cast_nonneg _
  · rename_i h
    have hpos : 1 ≤ (digit n.limbs (n.len.toNat - 1)).toNat := by
      refine Nat.one_le_iff_ne_zero.mpr fun h0 => h (BitVec.eq_of_toNat_eq h0)
    exact_mod_cast hpos

/-- What the number read from the top limbs is at least, after the limbs before the `j`-th. -/
def lowerBound (n : BigInt ι) (j : Nat) : ℚ := if j = 1 then 0 else topBound n * 2 ^ (32 * (j - 2))

theorem lowerBound_kept (n : BigInt ι) {j : Nat} (hj : 32 * (j - 2) ≤ 1023) :
    Kept (lowerBound n j) := by
  rw [lowerBound]
  split
  · exact kept_zero
  · exact kept_topBound n hj

/-- One more limb: the number so far is moved up by 32 bits, and the limb added. -/
theorem horner_between (h : F.Rounding value round) {n : BigInt ι} (hn : Shape n) {j : Nat} {r : φ}
    (hj : 1 ≤ j) (hj4 : j ≤ 4) (hr : Between value (lowerBound n j) (2 ^ (33 * (j - 1))) r) :
    Between value (lowerBound n (j + 1)) (2 ^ (33 * j))
      (F.add (F.mul r (F.literal 4294967296)) (F.convertI64S (digit n.limbs (n.len.toNat - j)))) := by
  have hradix : value (F.literal 4294967296) = some (2 ^ 32) := by
    rw [h.literal 4294967296 (by decide)]
    norm_num
  have hlimb : ((digit n.limbs (n.len.toNat - j)).toInt : ℚ)
      = ((digit n.limbs (n.len.toNat - j)).toNat : ℚ) := by
    rw [hn.toInt_digit]
    rfl
  have hlt : ((digit n.limbs (n.len.toNat - j)).toNat : ℚ) ≤ 2 ^ 32 := by
    exact_mod_cast (hn.toNat_lt (n.len.toNat - j)).le
  -- the bounds of the number moved up
  have hup : (2 : ℚ) ^ (33 * (j - 1)) * 2 ^ 32 = 2 ^ (33 * (j - 1) + 32) := by rw [pow_add]
  have hhi : (2 : ℚ) ^ (33 * (j - 1) + 32) + 2 ^ 32 ≤ 2 ^ (33 * j) := by
    have h1 : (2 : ℚ) ^ 32 ≤ 2 ^ (33 * (j - 1) + 32) := pow_le_pow_right₀ one_le_two (by omega)
    calc (2 : ℚ) ^ (33 * (j - 1) + 32) + 2 ^ 32
        ≤ 2 ^ (33 * (j - 1) + 32) + 2 ^ (33 * (j - 1) + 32) := by gcongr
      _ = 2 ^ (33 * (j - 1) + 32 + 1) := by rw [pow_succ _ (33 * (j - 1) + 32), mul_two]
      _ = 2 ^ (33 * j) := by rw [show 33 * (j - 1) + 32 + 1 = 33 * j by omega]
  rcases Nat.eq_or_lt_of_le hj with rfl | hj2
  · -- the highest limb
    have hmul := h.mul_between hr hradix (by positivity) kept_zero
      (kept_pow (k := 33 * (1 - 1) + 32) (by decide)) (by rw [lowerBound, if_pos rfl, zero_mul])
      hup.le
    have hconv : Between value (topBound n * 2 ^ 0) (2 ^ 32)
        (F.convertI64S (digit n.limbs (n.len.toNat - 1))) := by
      refine h.convert_between (kept_topBound n (by decide)) (kept_pow (by decide)) ?_ ?_
      · rw [hlimb, pow_zero, mul_one]
        exact topBound_le n
      · rw [hlimb]
        exact hlt
    refine h.add_between hmul hconv (lowerBound_kept n (by decide)) (kept_pow (by decide)) ?_ hhi
    rw [lowerBound, if_neg (by decide), zero_add]
  · have hmul : Between value (lowerBound n (j + 1)) (2 ^ (33 * (j - 1) + 32))
        (F.mul r (F.literal 4294967296)) := by
      refine h.mul_between hr hradix (by positivity) (lowerBound_kept n (by omega))
        (kept_pow (by omega)) ?_ hup.le
      have hexp : 32 * (j + 1 - 2) = 32 * (j - 2) + 32 := by omega
      rw [lowerBound, lowerBound, if_neg (by omega), if_neg (by omega), hexp, pow_add, mul_assoc]
    have hconv : Between value 0 (2 ^ 32) (F.convertI64S (digit n.limbs (n.len.toNat - j))) := by
      refine h.convert_between kept_zero (kept_pow (by decide)) ?_ ?_
      · rw [hlimb]
        exact Nat.cast_nonneg _
      · rw [hlimb]
        exact hlt
    exact h.add_between hmul hconv (lowerBound_kept n (by omega)) (kept_pow (by omega))
      (by rw [add_zero]) hhi

theorem forLoop_none {α : Type} {body : BitVec 32 → α → Outcome α} {lo hi : BitVec 32} {a : α}
    (h : (hi - 1#32).slt lo = true) (hfuel : 0 < fuel) : forLoop fuel lo hi body a = done a := by
  obtain ⟨f, rfl⟩ : ∃ f, fuel = f + 1 := ⟨fuel - 1, by omega⟩
  rw [forLoop, countedLoop, if_pos h]

/-- The loop over the limbs of number `x` down to `lo`, of which there are at most 4. -/
theorem horner_ends (h : F.Rounding value round) {x : Nat} (hx : Shape (w.ints x)) {lo : BitVec 32}
    (hlo : lo.toNat < 2 ^ 28) (hlen : (w.ints x).len.toNat ≤ lo.toNat + 4) (hfuel : 2 ^ 30 ≤ fuel) :
    Ends (Between value (lowerBound (w.ints x) ((w.ints x).len.toNat - lo.toNat + 1)) (2 ^ 132))
      (forLoop fuel 1#32 ((w.ints x).len - lo + 1#32)
        (fun j r => do
          let l ← limb w x ((w.ints x).len - j)
          pure (F.add (F.mul r (F.literal 4294967296)) (F.convertI64S l)))
        (F.literal 0)) := by
  have hlx := hx.len_lt
  have h1 : (1#32).toNat = 1 := rfl
  have hstart : Between value (lowerBound (w.ints x) 1) (2 ^ (33 * (1 - 1))) (F.literal 0) :=
    ⟨0, h.literal 0 (Nat.zero_le _), by rw [lowerBound, if_pos rfl], by positivity⟩
  rcases Nat.lt_or_ge (w.ints x).len.toNat lo.toNat with hlt | hge
  · -- no limb is read
    have hslt : ((w.ints x).len - lo + 1#32 - 1#32).slt 1#32 = true := by
      rw [BitVec.add_sub_cancel, BitVec.slt_eq_decide, decide_eq_true_eq, BitVec.toInt_sub,
        toInt_eq_toNat (by omega), toInt_eq_toNat (by omega), Int.bmod_eq_of_le (by omega) (by omega)]
      change _ < (1 : Int)
      omega
    rw [forLoop_none hslt (by omega), ends_done, Nat.sub_eq_zero_of_le hlt.le]
    exact hstart.mono le_rfl (pow_le_pow_right₀ one_le_two (by decide))
  · have hhi : ((w.ints x).len - lo + 1#32).toNat = (w.ints x).len.toNat - lo.toNat + 1 := by
      rw [toNat_succ (by rw [toNat_sub_of_le hge]; omega), toNat_sub_of_le hge]
    refine Ends.mono (forLoop_range_ends (by omega) (by omega) (by omega)
      (fun j r => Between value (lowerBound (w.ints x) j) (2 ^ (33 * (j - 1))) r) hstart ?_)
      fun r hr => ?_
    · intro j r hj1 hj hr
      rw [h1] at hj1
      have hi : ((w.ints x).len - BitVec.ofNat 32 j).toNat = (w.ints x).len.toNat - j := by
        have hofNat : (BitVec.ofNat 32 j).toNat = j := toNat_ofNat_of_lt (by omega)
        rw [toNat_sub_of_le (by omega), hofNat]
      have hroom := hx.len
      rw [limb, arrGet_eq (by rw [hi]; exact getElem?_digit (by omega)), done_bind, pure_eq, ends_done]
      exact horner_between h hx hj1 (by omega) hr
    · rw [hhi] at hr
      exact hr.mono le_rfl (pow_le_pow_right₀ one_le_two (by omega))

/-- Dividing by `2^32` as often as there are limbs below the unit, at most twice. -/
theorem scale_ends (h : F.Rounding value round) {d : Nat} {c : ℚ} (hc : ∀ i ≤ 1023, Kept (c * 2 ^ i))
    {r : φ} {hi : BitVec 32} (hhi : hi.toNat = d + 1) (hd : d ≤ 2)
    (hr : Between value (c * 2 ^ (32 * d)) (2 ^ 132) r) (hfuel : 2 ^ 30 ≤ fuel) :
    Ends (Between value c (2 ^ 132))
      (forLoop fuel 1#32 hi (fun _ r => pure (F.div r (F.literal 4294967296))) r) := by
  have h1 : (1#32).toNat = 1 := rfl
  have hradix : value (F.literal 4294967296) = some (2 ^ 32) := by
    rw [h.literal 4294967296 (by decide)]
    norm_num
  refine Ends.mono (forLoop_range_ends (by omega) (by omega) (by omega)
    (fun j r => Between value (c * 2 ^ (32 * (d + 1 - j))) (2 ^ 132) r) hr ?_) fun r hr => ?_
  · intro j r hj1 hj hr
    rw [h1] at hj1
    rw [pure_eq, ends_done]
    refine h.div_between hr hradix (one_le_pow₀ one_le_two) (hc _ (by omega)) (kept_pow (by decide))
      ?_ le_rfl (hc _ (by omega)).nonneg
    have hexp : 32 * (d + 1 - j) = 32 * (d + 1 - (j + 1)) + 32 := by omega
    rw [hexp, pow_add, ← mul_assoc, mul_div_assoc, div_self (by positivity), mul_one]
  · rw [hhi, Nat.sub_self, pow_zero, mul_one] at hr
    exact hr

theorem toNat_lo (unit : BitVec 32) (hunit : unit.toNat < 2 ^ 28) :
    (if unit.slt 2#32 then 0#32 else unit - 2#32).toNat = unit.toNat - 2 := by
  have hslt := slt_iff (x := unit) (y := 2#32) (by omega) (by decide)
  have h2 : (2#32).toNat = 2 := rfl
  rw [h2] at hslt
  split
  · have := hslt.mp ‹_›
    change 0 = _
    omega
  · have : ¬ unit.toNat < 2 := fun h => by
      have := hslt.mpr h
      contradiction
    rw [toNat_sub_of_le (by omega), h2]

/-- The number read from the top limbs, when at most two of them are above the unit. -/
theorem topF64_ends (h : F.Rounding value round) {x : Nat} (hx : Shape (w.ints x)) {unit : BitVec 32}
    (hunit : unit.toNat < 2 ^ 28) (hlen : (w.ints x).len.toNat ≤ unit.toNat + 2)
    {c : ℚ} (hc : ∀ i ≤ 1023, Kept (c * 2 ^ i))
    (hlow : c * 2 ^ (32 * (unit.toNat - (unit.toNat - 2)))
      ≤ lowerBound (w.ints x) ((w.ints x).len.toNat - (unit.toNat - 2) + 1))
    (hfuel : 2 ^ 30 ≤ fuel) :
    Ends (Between value c (2 ^ 132)) (topF64 F fuel w x unit) := by
  have hlo := toNat_lo unit hunit
  rw [topF64]
  generalize (if unit.slt 2#32 then 0#32 else unit - 2#32) = lo at hlo ⊢
  refine ends_bind (horner_ends h hx (by omega) (by omega) hfuel) fun r hr => ?_
  rw [hlo] at hr
  refine scale_ends h hc (d := unit.toNat - (unit.toNat - 2)) ?_ (by omega)
    (hr.mono hlow le_rfl) hfuel
  rw [toNat_succ (by rw [toNat_sub_of_le (by omega)]; omega), toNat_sub_of_le (by omega), hlo]

/-! ### The estimate -/

theorem clamped_ends (h : F.Rounding value round) {est : φ} {u : ℚ} (hest : Between value 0 u est) :
    Ends (fun q => 0 ≤ q.toInt) (clamped F est) := by
  obtain ⟨p, hp, hp0, -⟩ := hest
  have htop : value (F.literal 2147483647) = some 2147483647 := h.literal 2147483647 (by decide)
  rw [clamped, h.ge hp htop]
  by_cases hge : (2147483647 : ℚ) ≤ p
  · rw [if_pos (decide_eq_true hge)]
    exact (by decide : (0 : Int) ≤ (2147483647#32).toInt)
  · rw [if_neg (by simpa using hge)]
    have hlt : p < 2147483647 := not_le.mp hge
    obtain ⟨t, ht, hfloor⟩ := h.trunc hp hp0 (hlt.trans (by norm_num))
    have h0 : 0 ≤ t.toInt := by
      rw [hfloor]
      exact Int.floor_nonneg.mpr hp0
    have hsmall : t.toInt < 2147483647 := by
      rw [hfloor, Int.floor_lt]
      exact_mod_cast hlt
    rw [ht]
    change 0 ≤ (t.setWidth 32).toInt
    have hnat : t.toInt = t.toNat := by
      have hcond := BitVec.toInt_eq_toNat_cond t
      have hlt := t.isLt
      split at hcond <;> omega
    rw [toInt_eq_toNat (by rw [BitVec.toNat_setWidth]; omega)]
    exact Int.natCast_nonneg _

theorem estimate_ends (h : F.Rounding value round) {a b : Nat} (ha : Shape (w.ints a))
    (hb : Canonical (w.ints b)) (hpos : 0 < (w.ints b).len.toNat)
    (hlen : (w.ints a).len.toNat ≤ (w.ints b).len.toNat + 1) (hfuel : 2 ^ 30 ≤ fuel) :
    Ends (fun q => 0 ≤ q.toInt) (estimate F fuel w a b) := by
  have hlb := hb.len_lt
  have h1 : (1#32).toNat = 1 := rfl
  have hunit : ((w.ints b).len - 1#32).toNat = (w.ints b).len.toNat - 1 :=
    toNat_sub_of_le (by omega)
  have htop : topBound (w.ints b) = 1 :=
    if_neg (hb.top _ (by omega))
  rw [estimate]
  refine ends_bind (topF64_ends h ha (c := 0) (by omega) (by omega)
    (fun _ _ => by rw [zero_mul]; exact kept_zero) ?_ hfuel) fun ta hta => ?_
  · rw [zero_mul]
    exact (lowerBound_kept _ (by omega)).nonneg
  refine ends_bind (topF64_ends h hb.toShape (c := 1) (by omega) (by omega)
    (fun _ hi => by rw [one_mul]; exact kept_pow hi) ?_ hfuel) fun tb htb => ?_
  · rw [lowerBound, if_neg (by omega), htop, one_mul, one_mul, hunit]
    exact pow_le_pow_right₀ one_le_two (by omega)
  obtain ⟨q, hq, hq1, -⟩ := htb
  exact clamped_ends h (h.div_between hta hq hq1 kept_zero (kept_pow (k := 132) (by decide))
    (by rw [zero_div]) le_rfl le_rfl)

end

end Aipl.StdBigint
