import Mathlib.Data.BitVec
import Mathlib.Tactic.Ring

/-! # Library — the parity of machine words

Which results of arithmetic and bitwise operations on 32-bit words are even, whatever wraps.  Nothing
here names a program.

* `isEven_mul_iff`, `isEven_add_iff`, … — the lowest bit of a result.
* `sdiv_two` — an even word is halved by an arithmetic shift.
-/

namespace Aipl.Lib

/-- The lowest bit is zero. -/
def IsEven (x : BitVec 32) : Prop := x.toNat % 2 = 0

instance (x : BitVec 32) : Decidable (IsEven x) := inferInstanceAs (Decidable (_ = _))

variable {x y : BitVec 32}

theorem isEven_iff_getLsbD : IsEven x ↔ x.getLsbD 0 = false := by
  rw [IsEven, BitVec.getLsbD, Nat.testBit_zero]
  simp

theorem and_one_iff : (x &&& 1#32 == 0#32) = true ↔ IsEven x := by
  rw [beq_iff_eq, IsEven, ← BitVec.toNat_inj, BitVec.toNat_and]
  simp

theorem isEven_add_iff : IsEven (x + y) ↔ (IsEven x ↔ IsEven y) := by
  simp only [IsEven, BitVec.toNat_add]
  omega

theorem isEven_sub_iff : IsEven (x - y) ↔ (IsEven x ↔ IsEven y) := by
  have hy := y.isLt
  simp only [IsEven, BitVec.toNat_sub]
  omega

theorem isEven_mul_iff : IsEven (x * y) ↔ IsEven x ∨ IsEven y := by
  rw [IsEven, BitVec.toNat_mul, Nat.mod_mod_of_dvd _ (by decide : 2 ∣ 2 ^ 32), Nat.mul_mod]
  simp only [IsEven]
  rcases Nat.mod_two_eq_zero_or_one x.toNat with hx | hx <;>
    rcases Nat.mod_two_eq_zero_or_one y.toNat with hy | hy <;> simp [hx, hy]

theorem isEven_and_iff : IsEven (x &&& y) ↔ IsEven x ∨ IsEven y := by
  simp only [isEven_iff_getLsbD, BitVec.getLsbD_and, Bool.and_eq_false_iff]

theorem isEven_or_iff : IsEven (x ||| y) ↔ IsEven x ∧ IsEven y := by
  simp [isEven_iff_getLsbD]

theorem isEven_xor_iff : IsEven (x ^^^ y) ↔ (IsEven x ↔ IsEven y) := by
  simp only [isEven_iff_getLsbD, BitVec.getLsbD_xor]
  cases x.getLsbD 0 <;> cases y.getLsbD 0 <;> decide

theorem isEven_shl {n : Nat} (hn : 0 < n) : IsEven (x <<< n) := by
  rw [isEven_iff_getLsbD, BitVec.getLsbD_shiftLeft]
  simp [hn]

theorem isEven_toInt (h : IsEven x) : ∃ k, x.toInt = 2 * k := by
  refine ⟨x.toInt / 2, ?_⟩
  rw [IsEven] at h
  rw [BitVec.toInt_eq_toNat_cond]
  split <;> omega

/-- An even word is halved by an arithmetic shift. -/
theorem sdiv_two (h : IsEven x) : x.sdiv 2#32 = x.sshiftRight 1 := by
  obtain ⟨k, hk⟩ := isEven_toInt h
  have hlt := BitVec.toInt_lt (x := x)
  have hle := BitVec.le_toInt x
  apply BitVec.eq_of_toInt_eq
  rw [BitVec.toInt_sdiv_of_ne_or_ne _ _ (.inr (by decide)), BitVec.toInt_sshiftRight, hk]
  have htwo : (2#32).toInt = 2 := rfl
  rw [htwo, Int.mul_tdiv_cancel_left _ (by decide), Int.shiftRight_eq_div_pow]
  norm_num

end Aipl.Lib
