import Aipl.Std.Fmt.Model
import Mathlib.Data.Nat.Bitwise
import Mathlib.Tactic.Ring

/-! # The big integers of `std/fmt`

Forty limbs hold a number below `2 ^ 1280`, and each operation holds the exact result.

* `Holds` — the number that limbs hold.
* `bigShl_holds`, `bigMask_holds`, `bigMulSmall_holds`, `bigDivmodSmall_holds` — the operations in place.
* `bigBit_eq`, `bigDigitAt_eq`, `bigIsZero_eq` — what is read of a number.
-/

namespace Aipl.StdFmt

open Aipl.Lib Aipl.Lib.Outcome

/-- The limb `i` of a number. -/
def limb (X i : Nat) : Nat := X / 2 ^ (32 * i) % 2 ^ 32

/-- Forty limbs, by their values. -/
def Is (f : Nat → Nat) (a : Limbs) : Prop := a.length = bigLimbs ∧ ∀ i < bigLimbs, ∃ x, a[i]? = some x ∧ x.toNat = f i

/-- What forty limbs cannot hold. -/
def limit : Nat := 2 ^ (32 * bigLimbs)

/-- **The number that limbs hold.** -/
def Holds (X : Nat) (a : Limbs) : Prop := X < limit ∧ Is (limb X) a

variable {X Y i j k s : Nat} {f g : Nat → Nat} {a : Limbs} {x : BitVec 64}

theorem limb_lt (X i : Nat) : limb X i < 2 ^ 32 := Nat.mod_lt _ (by decide)

theorem testBit_limb (X i j : Nat) : (limb X i).testBit j = (decide (j < 32) && X.testBit (32 * i + j)) := by
  rw [limb, Nat.testBit_mod_two_pow, Nat.testBit_div_two_pow, Nat.add_comm]

theorem Is.congr (h : Is f a) (hfg : ∀ i < bigLimbs, f i = g i) : Is g a := by
  refine ⟨h.1, fun i hi => ?_⟩
  obtain ⟨x, hx, hval⟩ := h.2 i hi
  exact ⟨x, hx, hval.trans (hfg i hi)⟩

theorem getLimb_eq (h : Is f a) (hi : i < bigLimbs) : ∃ x, getLimb a i = done x ∧ x.toNat = f i := by
  obtain ⟨x, hx, hval⟩ := h.2 i hi
  exact ⟨x, by rw [getLimb, hx]; rfl, hval⟩

theorem setLimb_is (h : Is f a) (hi : i < bigLimbs) (hg : ∀ k < bigLimbs, k ≠ i → g k = f k) (hx : x.toNat = g i) :
    Ends (Is g) (setLimb a i x) := by
  have hlen := h.1
  rw [setLimb, if_pos (by omega)]
  refine ⟨by rw [List.length_set, hlen], fun k hk => ?_⟩
  by_cases hki : k = i
  · subst hki
    exact ⟨x, by rw [List.getElem?_set_self (by omega)], hx⟩
  · obtain ⟨y, hy, hval⟩ := h.2 k hk
    exact ⟨y, by rw [List.getElem?_set_ne (Ne.symm hki), hy], by rw [hval, hg k hk hki]⟩

/-- A number is determined by its limbs. -/
theorem eq_of_limbs (hX : X < limit) (hY : Y < limit) (h : ∀ i < bigLimbs, limb X i = limb Y i) : X = Y := by
  refine Nat.eq_of_testBit_eq fun k => ?_
  rcases Nat.lt_or_ge k (32 * bigLimbs) with hk | hk
  · have hlimb : (limb X (k / 32)).testBit (k % 32) = (limb Y (k / 32)).testBit (k % 32) := by
      rw [h (k / 32) (Nat.div_lt_of_lt_mul hk)]
    rw [testBit_limb, testBit_limb, Nat.div_add_mod, decide_eq_true (Nat.mod_lt _ (by decide))] at hlimb
    exact hlimb
  · have hpow : limit ≤ 2 ^ k := Nat.pow_le_pow_right (by decide) hk
    rw [Nat.testBit_lt_two_pow (hX.trans_le hpow), Nat.testBit_lt_two_pow (hY.trans_le hpow)]

theorem foldr_limbs : ∀ (a : Limbs) (X : Nat), X < 2 ^ (32 * a.length) → (∀ i (x : BitVec 64), a[i]? = some x → x.toNat = limb X i) →
    limbsValue a = X
  | [], X, hX, _ => by
      rw [List.length_nil, Nat.mul_zero, Nat.pow_zero, Nat.lt_one_iff] at hX
      exact hX.symm
  | x :: a, X, hX, h => by
      have hrest : limbsValue a = X / 2 ^ 32 := by
        refine foldr_limbs a (X / 2 ^ 32) ?_ fun i y hy => ?_
        · rw [List.length_cons, Nat.mul_succ, pow_add] at hX
          exact Nat.div_lt_of_lt_mul (by rwa [Nat.mul_comm])
        · rw [h (i + 1) y hy, limb, limb, Nat.div_div_eq_div_mul, ← pow_add, Nat.mul_succ, Nat.add_comm]
      have hfirst : x.toNat = X % 2 ^ 32 := by
        rw [h 0 x rfl, limb, Nat.mul_zero, Nat.pow_zero, Nat.div_one]
      rw [limbsValue, List.foldr_cons, hfirst, show a.foldr (fun x n => x.toNat + 2 ^ 32 * n) 0 = X / 2 ^ 32 from hrest,
        Nat.mod_add_div]

theorem limbsValue_eq (h : Holds X a) : limbsValue a = X := by
  refine foldr_limbs a X (by rw [h.2.1]; exact h.1) fun i x hx => ?_
  have hi : i < bigLimbs := h.2.1 ▸ (List.getElem?_eq_some_iff.mp hx).1
  obtain ⟨y, hy, hval⟩ := h.2.2 i hi
  rw [hx] at hy
  rw [Option.some.inj hy, hval]

/-- No bit of the result is lost. -/
theorem kept {strict : Bool} {c : Prop} [Decidable c] (h : c) : require (!strict || decide c) = done () := by
  rw [decide_eq_true h, Bool.or_true]
  rfl

variable {strict : Bool}

/-! ### Shifting -/

theorem getLsbD_mask (j : Nat) : (4294967295#64).getLsbD j = decide (j < 32) := by
  rw [show 4294967295#64 = BitVec.ofNat 64 (2 ^ 32 - 1) from rfl, BitVec.getLsbD_ofNat, Nat.testBit_two_pow_sub_one,
    ← Bool.decide_and]
  exact decide_eq_decide.mpr (by omega)

/-- One limb of a number shifted to the left. -/
theorem shl_limb {hi lo : BitVec 64} (hhi : hi.toNat = if s / 32 ≤ i then limb X (i - s / 32) else 0)
    (hlo : lo.toNat = if s / 32 + 1 ≤ i ∧ s % 32 ≠ 0 then limb X (i - s / 32 - 1) else 0) :
    ((hi <<< (s % 32) ||| (if s % 32 = 0 then 0#64 else lo >>> (32 - s % 32))) &&& 4294967295#64).toNat =
      limb (X * 2 ^ s) i := by
  refine Nat.eq_of_testBit_eq fun j => ?_
  have hhi' : ∀ n, hi.getLsbD n = (if s / 32 ≤ i then limb X (i - s / 32) else 0).testBit n := fun n => by
    rw [← hhi, BitVec.testBit_toNat]
  have hlo' : ∀ n, lo.getLsbD n = (if s / 32 + 1 ≤ i ∧ s % 32 ≠ 0 then limb X (i - s / 32 - 1) else 0).testBit n :=
    fun n => by rw [← hlo, BitVec.testBit_toNat]
  have hlow : (if s % 32 = 0 then 0#64 else lo >>> (32 - s % 32)).getLsbD j = lo.getLsbD (32 - s % 32 + j) := by
    by_cases hr : s % 32 = 0
    · rw [if_pos hr, hlo', if_neg (by omega)]
      simp
    · rw [if_neg hr, BitVec.getLsbD_ushiftRight]
  rw [BitVec.testBit_toNat, BitVec.getLsbD_and, BitVec.getLsbD_or, BitVec.getLsbD_shiftLeft, hlow, getLsbD_mask, testBit_limb,
    Nat.testBit_mul_two_pow]
  by_cases hj : j < 32
  · by_cases hjr : j < s % 32
    · -- the low bits come from the limb below
      rw [hlo']
      by_cases hq : s / 32 + 1 ≤ i
      · rw [if_pos ⟨hq, by omega⟩, testBit_limb]
        have hidx : 32 * (i - s / 32 - 1) + (32 - s % 32 + j) = 32 * i + j - s := by omega
        rw [hidx]
        simp [hj, hjr, show 32 - s % 32 + j < 32 by omega, show s ≤ 32 * i + j by omega]
      · rw [if_neg (by omega)]
        simp [hjr, show ¬ s ≤ 32 * i + j by omega]
    · -- the high bits come from the limb itself
      rw [hlo', hhi']
      have hhigh : (if s / 32 + 1 ≤ i ∧ s % 32 ≠ 0 then limb X (i - s / 32 - 1) else 0).testBit (32 - s % 32 + j) = false := by
        split
        · rw [testBit_limb, decide_eq_false (by omega)]
          rfl
        · exact Nat.zero_testBit _
      rw [hhigh]
      by_cases hq : s / 32 ≤ i
      · rw [if_pos hq, testBit_limb]
        have hidx : 32 * (i - s / 32) + (j - s % 32) = 32 * i + j - s := by omega
        rw [hidx]
        simp [hj, hjr, show j < 64 by omega, show j - s % 32 < 32 by omega, show s ≤ 32 * i + j by omega]
      · rw [if_neg hq]
        simp [show ¬ s ≤ 32 * i + j by omega]
  · simp [hj]

theorem shlRound_is (hj : j < bigLimbs)
    (h : Is (fun i => if bigLimbs - j ≤ i then limb (X * 2 ^ s) i else limb X i) a) :
    Ends (Is fun i => if bigLimbs - (j + 1) ≤ i then limb (X * 2 ^ s) i else limb X i) (shlRound s a j) := by
  have hbig : bigLimbs = 40 := rfl
  rw [shlRound]
  refine ends_bind (Q := fun hi => hi.toNat = if s / 32 ≤ bigLimbs - 1 - j then limb X (bigLimbs - 1 - j - s / 32) else 0)
    ?_ fun hi hhi => ?_
  · by_cases hq : s / 32 ≤ bigLimbs - 1 - j
    · obtain ⟨x, hx, hval⟩ := getLimb_eq h (show bigLimbs - 1 - j - s / 32 < bigLimbs by omega)
      rw [if_neg (by omega)] at hval
      rw [if_pos hq, if_pos hq, hx]
      exact hval
    · rw [if_neg hq, if_neg hq]
      rfl
  refine ends_bind (Q := fun lo => lo.toNat = if s / 32 + 1 ≤ bigLimbs - 1 - j ∧ s % 32 ≠ 0
    then limb X (bigLimbs - 1 - j - s / 32 - 1) else 0) ?_ fun lo hlo => ?_
  · by_cases hq : s / 32 + 1 ≤ bigLimbs - 1 - j ∧ s % 32 ≠ 0
    · obtain ⟨x, hx, hval⟩ := getLimb_eq h (show bigLimbs - 1 - j - s / 32 - 1 < bigLimbs by omega)
      rw [if_neg (by omega)] at hval
      rw [if_pos hq, if_pos hq, hx]
      exact hval
    · rw [if_neg hq, if_neg hq]
      rfl
  refine setLimb_is h (by omega) (fun k hk hne => ?_) ?_
  · exact if_congr (by omega) rfl rfl
  · have hdone : bigLimbs - (j + 1) ≤ bigLimbs - 1 - j := by omega
    exact (shl_limb hhi hlo).trans (if_pos hdone).symm

/-- **Shifting** loses no bit of a number that fits. -/
theorem bigShl_holds (h : Holds X a) (hs : X * 2 ^ s < limit) : Ends (Holds (X * 2 ^ s)) (bigShl strict a s) := by
  rw [bigShl, limbsValue_eq h, kept (show X * 2 ^ s < 2 ^ (32 * bigLimbs) from hs), done_bind]
  refine (foldAll_range_ends (fun j => Is fun i => if bigLimbs - j ≤ i then limb (X * 2 ^ s) i else limb X i) ?_ bigLimbs
    fun j a hj ha => shlRound_is hj ha).mono fun a' ha' => ⟨hs, ha'.congr fun i _ => if_pos (by omega)⟩
  exact h.2.congr fun i hi => (if_neg (by omega)).symm

/-! ### Masking, and single bits -/

/-- One limb of the low bits of a number. -/
theorem mask_limb (hx : x.toNat = limb X (k / 32)) :
    (x &&& ((1#64 <<< (k % 32)) - 1#64)).toNat = limb (X % 2 ^ k) (k / 32) := by
  have hpow : (1#64 <<< (k % 32)) - 1#64 = BitVec.ofNat 64 (2 ^ (k % 32) - 1) := by
    have hlt : 2 ^ (k % 32) < 2 ^ 32 := Nat.pow_lt_pow_right (by decide) (Nat.mod_lt _ (by decide))
    have hpos := Nat.two_pow_pos (k % 32)
    apply BitVec.eq_of_toNat_eq
    rw [BitVec.toNat_sub, BitVec.toNat_shiftLeft, Nat.shiftLeft_eq, BitVec.toNat_ofNat, BitVec.toNat_ofNat, Nat.one_mul]
    omega
  refine Nat.eq_of_testBit_eq fun j => ?_
  rw [BitVec.testBit_toNat, BitVec.getLsbD_and, ← BitVec.testBit_toNat, hx, hpow, BitVec.getLsbD_ofNat,
    Nat.testBit_two_pow_sub_one, testBit_limb, testBit_limb, Nat.testBit_mod_two_pow]
  by_cases hj : j < k % 32
  · simp [hj, show j < 32 by omega, show j < 64 by omega, show 32 * (k / 32) + j < k by omega]
  · simp [hj, show ¬ 32 * (k / 32) + j < k by omega]

theorem limb_mod_below (h : i < k / 32) : limb (X % 2 ^ k) i = limb X i := by
  refine Nat.eq_of_testBit_eq fun j => ?_
  rw [testBit_limb, testBit_limb, Nat.testBit_mod_two_pow]
  by_cases hj : j < 32
  · simp [show 32 * i + j < k by omega]
  · simp [hj]

theorem limb_mod_above (h : k / 32 < i) : limb (X % 2 ^ k) i = 0 := by
  refine Nat.eq_of_testBit_eq fun j => ?_
  rw [testBit_limb, Nat.testBit_mod_two_pow, Nat.zero_testBit]
  simp [show ¬ 32 * i + j < k by omega]

theorem maskRound_is (hi : i < bigLimbs) (h : Is (fun j => if j < i then limb (X % 2 ^ k) j else limb X j) a) :
    Ends (Is fun j => if j < i + 1 then limb (X % 2 ^ k) j else limb X j) (maskRound k a i) := by
  have hother : ∀ j < bigLimbs, j ≠ i → (if j < i + 1 then limb (X % 2 ^ k) j else limb X j) =
      if j < i then limb (X % 2 ^ k) j else limb X j := fun j _ hne => if_congr (by omega) rfl rfl
  rw [maskRound]
  by_cases habove : k / 32 < i
  · rw [if_pos habove]
    refine setLimb_is h hi hother ?_
    rw [if_pos (Nat.lt_succ_self i), limb_mod_above habove]
    rfl
  · rw [if_neg habove]
    by_cases heq : i = k / 32
    · obtain ⟨x, hx, hval⟩ := getLimb_eq h hi
      rw [if_neg (lt_irrefl i)] at hval
      rw [if_pos heq, hx, done_bind]
      refine setLimb_is h hi hother ?_
      rw [if_pos (Nat.lt_succ_self i)]
      subst heq
      exact mask_limb hval
    · rw [if_neg heq]
      refine h.congr fun j _ => ?_
      by_cases hj : j = i
      · subst hj
        rw [if_neg (lt_irrefl j), if_pos (Nat.lt_succ_self j), limb_mod_below (by omega)]
      · exact (if_congr (by omega) rfl rfl)

/-- **Masking** keeps the low bits. -/
theorem bigMask_holds (h : Holds X a) (k : Nat) : Ends (Holds (X % 2 ^ k)) (bigMask a k) := by
  refine (foldAll_range_ends (fun i => Is fun j => if j < i then limb (X % 2 ^ k) j else limb X j) ?_ bigLimbs
    fun i a hi ha => maskRound_is hi ha).mono fun a' ha' => ⟨(Nat.mod_le _ _).trans_lt h.1, ha'.congr fun i hi => if_pos hi⟩
  exact h.2.congr fun i hi => (if_neg (by omega)).symm

theorem bigBit_eq (h : Holds X a) (hk : k < 32 * bigLimbs) : bigBit a k = done (X.testBit k).toNat := by
  obtain ⟨x, hx, hval⟩ := getLimb_eq h.2 (show k / 32 < bigLimbs from Nat.div_lt_of_lt_mul hk)
  have hbit : x.getLsbD (k % 32) = X.testBit k := by
    rw [← BitVec.testBit_toNat, hval, testBit_limb, Nat.div_add_mod, decide_eq_true (Nat.mod_lt _ (by decide)), Bool.true_and]
  have hone : (x >>> (k % 32)) &&& 1#64 = if X.testBit k then 1#64 else 0#64 := by
    refine BitVec.eq_of_getLsbD_eq fun j hj => ?_
    rw [BitVec.getLsbD_and, BitVec.getLsbD_ushiftRight]
    by_cases hj0 : j = 0
    · subst hj0
      rw [Nat.add_zero, hbit]
      cases X.testBit k <;> rfl
    · have h1 : (1#64).getLsbD j = false := by simp [BitVec.getLsbD_one, hj0]
      rw [h1, Bool.and_false]
      cases X.testBit k
      · simp
      · simp [BitVec.getLsbD_one, hj0]
  rw [bigBit, hx, done_bind, hone]
  cases X.testBit k <;> rfl

/-- The digit that stands above the fraction. -/
theorem bigDigitAt_eq (h : Holds X a) (hk : k + 3 < 32 * bigLimbs) (hX : X < 16 * 2 ^ k) :
    bigDigitAt strict a k = done (X / 2 ^ k) := by
  have hq : X / 2 ^ k < 16 := Nat.div_lt_of_lt_mul (by rwa [Nat.mul_comm])
  have hbit : ∀ i, (X.testBit (k + i)).toNat = X / 2 ^ k / 2 ^ i % 2 := fun i => by
    rw [Nat.toNat_testBit, Nat.div_div_eq_div_mul, ← pow_add]
  rw [bigDigitAt, limbsValue_eq h, kept hX, done_bind, bigBit_eq h (by omega), done_bind, bigBit_eq h (by omega), done_bind, bigBit_eq h (by omega), done_bind,
    bigBit_eq h hk, done_bind, show (X.testBit k).toNat = X / 2 ^ k / 2 ^ 0 % 2 from hbit 0, hbit 1, hbit 2, hbit 3, pure_eq]
  congr 1
  generalize X / 2 ^ k = q at hq
  simp only [Nat.pow_zero, Nat.div_one, Nat.pow_one, show 2 ^ 2 = 4 from rfl, show 2 ^ 3 = 8 from rfl]
  omega

theorem holds_zero_iff (h : Holds X a) : X = 0 ↔ ∀ i < bigLimbs, limb X i = 0 := by
  constructor
  · rintro rfl i -
    simp [limb]
  · intro hz
    exact eq_of_limbs h.1 (Nat.two_pow_pos _) fun i hi => by rw [hz i hi]; simp [limb]

theorem bigIsZero_eq (h : Holds X a) : bigIsZero a = done (decide (X = 0)) := by
  have hround : ∀ i ∈ List.range bigLimbs, (do pure (if (← getLimb a i) ≠ 0#64 then some false else none) : Outcome (Option Bool))
      = done (if limb X i = 0 then none else some false) := by
    intro i hi
    obtain ⟨x, hx, hval⟩ := getLimb_eq h.2 (List.mem_range.mp hi)
    rw [hx, done_bind, ← hval]
    by_cases hx0 : x = 0#64
    · subst hx0
      rfl
    · rw [if_pos hx0, if_neg (by simpa [BitVec.toNat_eq] using hx0)]
      rfl
  rw [bigIsZero, firstOf_eq hround, done_bind]
  by_cases hX : X = 0
  · have hnone : (List.range bigLimbs).findSome? (fun i => if limb X i = 0 then none else some false) = none := by
      rw [List.findSome?_eq_none_iff]
      exact fun i hi => if_pos ((holds_zero_iff h).mp hX i (List.mem_range.mp hi))
    rw [hnone, decide_eq_true hX]
    rfl
  · rw [decide_eq_false hX]
    cases hsome : (List.range bigLimbs).findSome? fun i => if limb X i = 0 then none else some false with
    | none =>
      rw [List.findSome?_eq_none_iff] at hsome
      refine absurd ((holds_zero_iff h).mpr fun i hi => ?_) hX
      have hi' := hsome i (List.mem_range.mpr hi)
      by_contra hne
      rw [if_neg hne] at hi'
      cases hi'
    | some b =>
      obtain ⟨i, -, hb⟩ := List.exists_of_findSome?_eq_some hsome
      split at hb
      · cases hb
      · cases hb
        rfl

/-! ### Multiplying and dividing by a digit -/

theorem toNat_and_mask (t : BitVec 64) : (t &&& 4294967295#64).toNat = t.toNat % 2 ^ 32 := by
  rw [BitVec.toNat_and, show (4294967295#64).toNat = 2 ^ 32 - 1 from rfl, Nat.and_two_pow_sub_one_eq_mod]

theorem toNat_shiftRight (t : BitVec 64) (n : Nat) : (t >>> n).toNat = t.toNat / 2 ^ n := by
  rw [BitVec.toNat_ushiftRight, Nat.shiftRight_eq_div_pow]

/-- One limb of a product, and what is carried to the next. -/
theorem mul_limb (X F m : Nat) :
    (X / 2 ^ m % 2 ^ 32 * F + X % 2 ^ m * F / 2 ^ m) % 2 ^ 32 = X * F / 2 ^ m % 2 ^ 32 ∧
      (X / 2 ^ m % 2 ^ 32 * F + X % 2 ^ m * F / 2 ^ m) / 2 ^ 32 = X % 2 ^ (m + 32) * F / 2 ^ (m + 32) := by
  have hpos := Nat.two_pow_pos m
  have hdiv : ∀ n : Nat, (n * 2 ^ m + X % 2 ^ m) * F / 2 ^ m = n * F + X % 2 ^ m * F / 2 ^ m := fun n => by
    rw [Nat.add_mul, Nat.mul_right_comm, Nat.add_comm, Nat.add_mul_div_right _ _ hpos, Nat.add_comm]
  constructor
  · have hX : X * F / 2 ^ m = X / 2 ^ m * F + X % 2 ^ m * F / 2 ^ m := by
      conv_lhs => rw [← Nat.div_add_mod' X (2 ^ m)]
      exact hdiv _
    rw [hX, Nat.add_mod, Nat.mod_mul_mod, ← Nat.add_mod]
  · have hX : X % 2 ^ (m + 32) = X / 2 ^ m % 2 ^ 32 * 2 ^ m + X % 2 ^ m := by
      rw [pow_add, Nat.mod_mul, Nat.mul_comm, Nat.add_comm]
    rw [hX, pow_add, ← Nat.div_div_eq_div_mul, hdiv]

theorem mulRound_is {d c : BitVec 64} (hd : d.toNat ≤ 10) (hi : i < bigLimbs)
    (h : Is (fun j => if j < i then limb (X * d.toNat) j else limb X j) a)
    (hc : c.toNat = X % 2 ^ (32 * i) * d.toNat / 2 ^ (32 * i)) :
    Ends (fun s => Is (fun j => if j < i + 1 then limb (X * d.toNat) j else limb X j) s.1 ∧
      s.2.toNat = X % 2 ^ (32 * (i + 1)) * d.toNat / 2 ^ (32 * (i + 1))) (mulRound d (a, c) i) := by
  obtain ⟨x, hx, hval⟩ := getLimb_eq h hi
  rw [if_neg (lt_irrefl i)] at hval
  have hlt := limb_lt X i
  have hclt : c.toNat ≤ 10 := by
    rw [hc]
    refine Nat.div_le_of_le_mul ?_
    exact Nat.mul_le_mul (Nat.mod_lt _ (Nat.two_pow_pos _)).le hd
  have hprod : limb X i * d.toNat ≤ 2 ^ 32 * 10 := Nat.mul_le_mul hlt.le hd
  have ht : (x * d + c).toNat = limb X i * d.toNat + c.toNat := by
    rw [BitVec.toNat_add, BitVec.toNat_mul, hval, Nat.mod_eq_of_lt (show limb X i * d.toNat < 2 ^ 64 by omega),
      Nat.mod_eq_of_lt (by omega)]
  obtain ⟨hlow, hcarry⟩ := mul_limb X d.toNat (32 * i)
  rw [← hc] at hlow hcarry
  rw [mulRound, hx, done_bind]
  refine ends_bind (Q := Is fun j => if j < i + 1 then limb (X * d.toNat) j else limb X j) ?_ fun a' ha' => ⟨ha', ?_⟩
  · refine setLimb_is h hi (fun k _ hne => if_congr (by omega) rfl rfl) ?_
    rw [if_pos (Nat.lt_succ_self i), toNat_and_mask, ht]
    exact hlow
  · dsimp only
    rw [toNat_shiftRight, ht, Nat.mul_succ]
    exact hcarry

/-- **Multiplying** by a digit, or by ten, is exact where the product fits. -/
theorem bigMulSmall_holds {d : BitVec 64} (h : Holds X a) (hd : d.toNat ≤ 10) (hfit : X * d.toNat < limit) :
    Ends (Holds (X * d.toNat)) (bigMulSmall strict a d) := by
  rw [bigMulSmall, limbsValue_eq h, kept (show X * d.toNat < 2 ^ (32 * bigLimbs) from hfit), done_bind]
  refine ends_bind (foldAll_range_ends (fun i s => Is (fun j => if j < i then limb (X * d.toNat) j else limb X j) s.1 ∧
    s.2.toNat = X % 2 ^ (32 * i) * d.toNat / 2 ^ (32 * i)) ⟨?_, ?_⟩ bigLimbs ?_) ?_
  · exact h.2.congr fun i hi => (if_neg (by omega)).symm
  · simp [Nat.mod_one]
  · rintro i ⟨a, c⟩ hi ⟨ha, hc⟩
    exact mulRound_is hd hi ha hc
  · rintro ⟨a', c⟩ ⟨ha', -⟩
    exact ⟨hfit, ha'.congr fun i hi => if_pos hi⟩

/-- One limb of a quotient, and the remainder that goes down. -/
theorem div_limb (X m : Nat) {D : Nat} (hD : 0 < D) :
    (X / 2 ^ (m + 32) % D * 2 ^ 32 + X / 2 ^ m % 2 ^ 32) / D = X / D / 2 ^ m % 2 ^ 32 ∧
      (X / 2 ^ (m + 32) % D * 2 ^ 32 + X / 2 ^ m % 2 ^ 32) % D = X / 2 ^ m % D := by
  have hY : X / 2 ^ m = X / 2 ^ (m + 32) * 2 ^ 32 + X / 2 ^ m % 2 ^ 32 := by
    rw [pow_add, ← Nat.div_div_eq_div_mul, Nat.div_add_mod']
  have hlt := Nat.mod_lt (X / 2 ^ m) (show 0 < 2 ^ 32 by decide)
  generalize X / 2 ^ m % 2 ^ 32 = l at hY hlt ⊢
  generalize X / 2 ^ (m + 32) = Y at hY ⊢
  have hr := Nat.mod_lt Y hD
  have hsplit : X / 2 ^ m = Y % D * 2 ^ 32 + l + Y / D * 2 ^ 32 * D := by
    rw [hY]
    conv_lhs => rw [← Nat.div_add_mod' Y D]
    ring
  have hsmall : (Y % D * 2 ^ 32 + l) / D < 2 ^ 32 := by
    refine Nat.div_lt_of_lt_mul ?_
    calc Y % D * 2 ^ 32 + l < Y % D * 2 ^ 32 + 2 ^ 32 := by omega
      _ = (Y % D + 1) * 2 ^ 32 := by ring
      _ ≤ D * 2 ^ 32 := Nat.mul_le_mul_right _ hr
  constructor
  · rw [Nat.div_div_eq_div_mul, Nat.mul_comm D, ← Nat.div_div_eq_div_mul, hsplit, Nat.add_mul_div_right _ _ hD,
      Nat.add_mul_mod_self_right, Nat.mod_eq_of_lt hsmall]
  · rw [hsplit, Nat.add_mul_mod_self_right]

theorem divmodRound_is {d r : BitVec 64} (hd : 0 < d.toNat) (hd10 : d.toNat ≤ 10) (hj : j < bigLimbs)
    (h : Is (fun i => if bigLimbs - j ≤ i then limb (X / d.toNat) i else limb X i) a)
    (hr : r.toNat = X / 2 ^ (32 * (bigLimbs - j)) % d.toNat) :
    Ends (fun s => Is (fun i => if bigLimbs - (j + 1) ≤ i then limb (X / d.toNat) i else limb X i) s.1 ∧
      s.2.toNat = X / 2 ^ (32 * (bigLimbs - (j + 1))) % d.toNat) (divmodRound d (a, r) j) := by
  obtain ⟨x, hx, hval⟩ := getLimb_eq h (show bigLimbs - 1 - j < bigLimbs by omega)
  rw [if_neg (by omega)] at hval
  have hlt := limb_lt X (bigLimbs - 1 - j)
  have hrlt := Nat.mod_lt (X / 2 ^ (32 * (bigLimbs - j))) hd
  have ht : (r <<< 32 ||| x).toNat = r.toNat * 2 ^ 32 + limb X (bigLimbs - 1 - j) := by
    rw [BitVec.toNat_or, BitVec.toNat_shiftLeft, hval, Nat.mod_eq_of_lt (by rw [Nat.shiftLeft_eq]; omega),
      ← Nat.shiftLeft_add_eq_or_of_lt hlt, Nat.shiftLeft_eq]
  obtain ⟨hquot, hrem⟩ := div_limb X (32 * (bigLimbs - 1 - j)) hd
  rw [show 32 * (bigLimbs - 1 - j) + 32 = 32 * (bigLimbs - j) by omega, ← hr] at hquot hrem
  rw [divmodRound, hx, done_bind]
  refine ends_bind (Q := Is fun i => if bigLimbs - (j + 1) ≤ i then limb (X / d.toNat) i else limb X i) ?_ fun a' ha' =>
    ⟨ha', ?_⟩
  · have hdone : bigLimbs - (j + 1) ≤ bigLimbs - 1 - j := by omega
    refine setLimb_is h (by omega) (fun k _ hne => if_congr (by omega) rfl rfl) ?_
    refine Eq.trans ?_ (if_pos hdone).symm
    rw [BitVec.toNat_udiv, ht]
    exact hquot
  · dsimp only
    rw [BitVec.toNat_umod, ht, show bigLimbs - (j + 1) = bigLimbs - 1 - j by omega]
    exact hrem

/-- **Dividing** by ten gives the quotient and the remainder. -/
theorem bigDivmodSmall_holds {d : BitVec 64} (h : Holds X a) (hd : 0 < d.toNat) (hd10 : d.toNat ≤ 10) :
    Ends (fun s => Holds (X / d.toNat) s.1 ∧ s.2.toNat = X % d.toNat) (bigDivmodSmall a d) := by
  rw [bigDivmodSmall]
  refine (foldAll_range_ends (fun j s => Is (fun i => if bigLimbs - j ≤ i then limb (X / d.toNat) i else limb X i) s.1 ∧
    s.2.toNat = X / 2 ^ (32 * (bigLimbs - j)) % d.toNat) ⟨?_, ?_⟩ bigLimbs ?_).mono ?_
  · exact h.2.congr fun i hi => (if_neg (by omega)).symm
  · have hzero : X / 2 ^ (32 * (bigLimbs - 0)) = 0 := Nat.div_eq_of_lt (by rw [Nat.sub_zero]; exact h.1)
    rw [hzero, Nat.zero_mod]
    rfl
  · rintro j ⟨a, r⟩ hj ⟨ha, hr⟩
    exact divmodRound_is hd hd10 hj ha hr
  · rintro ⟨a', r⟩ ⟨ha', hr⟩
    refine ⟨⟨(Nat.div_le_self _ _).trans_lt h.1, ha'.congr fun i _ => if_pos (by omega)⟩, ?_⟩
    dsimp only at hr ⊢
    rw [hr, Nat.sub_self, Nat.mul_zero, Nat.pow_zero, Nat.div_one]

end Aipl.StdFmt
