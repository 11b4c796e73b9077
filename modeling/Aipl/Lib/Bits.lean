import Mathlib.Data.BitVec
import Mathlib.Data.Nat.Bitwise

/-! # Library — masks and rounding of machine words

What a mask of low bits computes, as arithmetic on naturals.  Nothing here names a program.

* `toNat_and_sub_one` — masking with `2^j - 1` is the remainder by `2^j`.
* `toNat_and_neg_eight` — masking with `-8` rounds down to a multiple of 8; `toNat_round8` —
  adding 7 first rounds up, while the sum does not wrap.
-/

namespace Aipl.Lib

theorem toNat_two_pow_sub_one {j : Nat} (hj : j < 32) :
    (BitVec.ofNat 32 (2 ^ j) - 1#32).toNat = 2 ^ j - 1 := by
  have hlt : 2 ^ j < 2 ^ 32 := Nat.pow_lt_pow_right (by decide) hj
  have hpos : 0 < 2 ^ j := Nat.two_pow_pos j
  simp only [BitVec.toNat_sub, BitVec.toNat_ofNat]
  omega

/-- Masking with `2^j - 1` keeps the remainder by `2^j`. -/
theorem toNat_and_sub_one {j : Nat} (hj : j < 32) (x : BitVec 32) :
    (x &&& (BitVec.ofNat 32 (2 ^ j) - 1#32)).toNat = x.toNat % 2 ^ j := by
  rw [BitVec.toNat_and, toNat_two_pow_sub_one hj, Nat.and_two_pow_sub_one_eq_mod]

/-- The successor of a word, masked: the wrap of the sum at `2^32` does not show. -/
theorem toNat_succ_and_sub_one {j : Nat} (hj : j < 32) (x : BitVec 32) :
    ((x + 1#32) &&& (BitVec.ofNat 32 (2 ^ j) - 1#32)).toNat = (x.toNat + 1) % 2 ^ j := by
  rw [toNat_and_sub_one hj, BitVec.toNat_add]
  exact Nat.mod_mod_of_dvd _ (Nat.pow_dvd_pow 2 hj.le)

/-! ### Signed operations on words below `2^31` -/

theorem toInt_eq_toNat {x : BitVec 32} (h : x.toNat < 2 ^ 31) : x.toInt = x.toNat := by
  rw [BitVec.toInt_eq_toNat_cond]
  omega

/-- A word that is not negative is its own natural number. -/
theorem toInt_of_nonneg {x : BitVec 32} (h : 0 ≤ x.toInt) : x.toInt = x.toNat ∧ x.toNat < 2 ^ 31 := by
  have hlt := x.isLt
  rw [BitVec.toInt_eq_toNat_cond] at h ⊢
  by_cases hx : 2 * x.toNat < 2 ^ 32
  · rw [if_pos hx]
    omega
  · rw [if_neg hx] at h
    omega

theorem toNat_add_of_lt {x y : BitVec 32} (h : x.toNat + y.toNat < 2 ^ 32) :
    (x + y).toNat = x.toNat + y.toNat := by
  rw [BitVec.toNat_add]
  exact Nat.mod_eq_of_lt h

theorem toNat_succ {n : BitVec 32} (h : n.toNat < 2 ^ 31) : (n + 1#32).toNat = n.toNat + 1 := by
  rw [BitVec.toNat_add]
  simp only [BitVec.toNat_ofNat]
  omega

theorem toNat_sub_of_le {x y : BitVec 32} (h : y.toNat ≤ x.toNat) :
    (x - y).toNat = x.toNat - y.toNat := by
  rw [BitVec.toNat_sub]
  have := x.isLt
  omega

theorem toNat_ofNat_of_lt {n : Nat} (h : n < 2 ^ 32) : (BitVec.ofNat 32 n).toNat = n :=
  Nat.mod_eq_of_lt h

theorem slt_iff {x y : BitVec 32} (hx : x.toNat < 2 ^ 31) (hy : y.toNat < 2 ^ 31) :
    x.slt y = true ↔ x.toNat < y.toNat := by
  rw [BitVec.slt_eq_decide, decide_eq_true_eq, toInt_eq_toNat hx, toInt_eq_toNat hy]
  omega

theorem sle_iff {x y : BitVec 32} (hx : x.toNat < 2 ^ 31) (hy : y.toNat < 2 ^ 31) :
    x.sle y = true ↔ x.toNat ≤ y.toNat := by
  rw [BitVec.sle_eq_decide, decide_eq_true_eq, toInt_eq_toNat hx, toInt_eq_toNat hy]
  omega

theorem zero_slt_iff {x : BitVec 32} (hx : x.toNat < 2 ^ 31) : (0#32).slt x = true ↔ 0 < x.toNat :=
  slt_iff (by decide) hx

theorem zero_sle {x : BitVec 32} (hx : x.toNat < 2 ^ 31) : (0#32).sle x = true :=
  (sle_iff (by decide) hx).mpr (Nat.zero_le _)

theorem not_slt_zero {x : BitVec 32} (hx : x.toNat < 2 ^ 31) : x.slt 0#32 = false := by
  rw [← Bool.not_eq_true, slt_iff hx (by decide)]
  exact Nat.not_lt_zero _

theorem msb_eq_false {x : BitVec 32} (h : x.toNat < 2 ^ 31) : x.msb = false := by
  rw [BitVec.msb_eq_decide]
  exact decide_eq_false (by omega)

theorem toNat_sdiv {x y : BitVec 32} (hx : x.toNat < 2 ^ 31) (hy : y.toNat < 2 ^ 31) :
    (x.sdiv y).toNat = x.toNat / y.toNat := by
  rw [BitVec.sdiv_eq, msb_eq_false hx, msb_eq_false hy]
  exact BitVec.toNat_udiv

theorem toNat_srem {x y : BitVec 32} (hx : x.toNat < 2 ^ 31) (hy : y.toNat < 2 ^ 31) :
    (x.srem y).toNat = x.toNat % y.toNat := by
  rw [BitVec.srem_eq, msb_eq_false hx, msb_eq_false hy]
  exact BitVec.toNat_umod

/-- `shl`: the count is taken modulo 32. -/
def shl (x k : BitVec 32) : BitVec 32 := x <<< (k.toNat % 32)

theorem toNat_shl_one {k : BitVec 32} (h : k.toNat < 32) : (shl 1#32 k).toNat = 2 ^ k.toNat := by
  have hlt : 2 ^ k.toNat < 2 ^ 32 := Nat.pow_lt_pow_right (by decide) h
  rw [shl, Nat.mod_eq_of_lt h, BitVec.toNat_shiftLeft, Nat.shiftLeft_eq]
  have h1 : (1#32).toNat = 1 := rfl
  rw [h1, Nat.one_mul, Nat.mod_eq_of_lt hlt]

/-! ### Rounding to multiples of 8 -/

theorem and_neg_eight (x : BitVec 32) : x &&& -8#32 = (x >>> 3) <<< 3 := by
  refine BitVec.eq_of_getLsbD_eq fun i hi => ?_
  have hmask : ∀ i < 32, (-8#32).getLsbD i = decide (3 ≤ i) := by decide
  rw [BitVec.getLsbD_and, hmask i hi, BitVec.getLsbD_shiftLeft, BitVec.getLsbD_ushiftRight]
  by_cases h : 3 ≤ i
  · rw [Nat.add_sub_cancel' h]
    simp [h, hi]
  · simp [h]

/-- Masking with `-8` rounds down to a multiple of 8. -/
theorem toNat_and_neg_eight (x : BitVec 32) : (x &&& -8#32).toNat = x.toNat / 8 * 8 := by
  have hx := x.isLt
  rw [and_neg_eight, BitVec.toNat_shiftLeft, BitVec.toNat_ushiftRight, Nat.shiftLeft_eq,
    Nat.shiftRight_eq_div_pow]
  omega

/-- `n` rounded up to a multiple of 8, in wrapping arithmetic. -/
def round8 (n : BitVec 32) : BitVec 32 := (n + 7#32) &&& -8#32

theorem dvd_toNat_round8 (n : BitVec 32) : 8 ∣ (round8 n).toNat := by
  rw [round8, toNat_and_neg_eight]
  exact Nat.dvd_mul_left 8 _

theorem toNat_round8 {n : BitVec 32} (h : n.toNat + 7 < 2 ^ 32) :
    (round8 n).toNat = (n.toNat + 7) / 8 * 8 := by
  have h7 : (n + 7#32).toNat = n.toNat + 7 := by
    rw [BitVec.toNat_add]
    exact Nat.mod_eq_of_lt h
  rw [round8, toNat_and_neg_eight, h7]

end Aipl.Lib
