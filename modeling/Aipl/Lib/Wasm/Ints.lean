import Mathlib.Data.BitVec
import Mathlib.Data.Nat.Size

/-! # Library — WebAssembly's integer operators

The operators on integers of a width, as the number their operands stand for give them: unsigned, or
signed where the operator is; results wrap, shift counts are taken modulo the width, and a division may
trap.  Nothing here names a program.

* `iadd`, `idivS`, `ishl`, … — the operators.
* `iadd_eq`, `idivS_eq`, … — the same by machine words.
* `add_test`, `sub_test`, `mul_test` — tests of whether a result is out of range, by its sign or a division.
* `sdiv_twoPow`, `srem_twoPow`, `umod_twoPow` — a quotient or a remainder by `2 ^ k`, by shifts and masks; a signed one
  rounds toward zero, so a negative number is biased by `2 ^ k - 1` first, which is its sign, shifted.
-/

namespace Aipl.Lib.Wasm

section

variable {w : Nat} (x y : BitVec w)

def iadd : BitVec w := BitVec.ofNat w (x.toNat + y.toNat)

def isub : BitVec w := BitVec.ofNat w (2 ^ w - y.toNat + x.toNat)

def imul : BitVec w := BitVec.ofNat w (x.toNat * y.toNat)

/-- The signed quotient, cut towards zero; a trap (`none`) where it does not exist or does not fit. -/
def idivS : Option (BitVec w) :=
  if y.toNat = 0 then none
  else if x.toInt.tdiv y.toInt = 2 ^ (w - 1) then none
  else some (BitVec.ofInt w (x.toInt.tdiv y.toInt))

/-- The remainder that goes with the signed quotient. -/
def iremS : Option (BitVec w) :=
  if y.toNat = 0 then none
  else some (BitVec.ofInt w (x.toInt - y.toInt * x.toInt.tdiv y.toInt))

/-- The unsigned quotient; a trap where it does not exist. -/
def idivU : Option (BitVec w) := if y.toNat = 0 then none else some (BitVec.ofNat w (x.toNat / y.toNat))

def iremU : Option (BitVec w) := if y.toNat = 0 then none else some (BitVec.ofNat w (x.toNat - y.toNat * (x.toNat / y.toNat)))

def ishl : BitVec w := BitVec.ofNat w (x.toNat * 2 ^ (y.toNat % w))

def ishrS : BitVec w := BitVec.ofInt w (x.toInt / 2 ^ (y.toNat % w))

def ishrU : BitVec w := BitVec.ofNat w (x.toNat / 2 ^ (y.toNat % w))

def irotl : BitVec w := x.rotateLeft (y.toNat % w)

def irotr : BitVec w := x.rotateRight (y.toNat % w)

/-- The number of zero bits above the highest one. -/
def iclz : Nat := w - x.toNat.size

/-- The number of zero bits below the lowest one. -/
def ictz : Nat := ((List.range w).takeWhile fun i => !x.getLsbD i).length

def ipopcnt : Nat := (List.range w).countP fun i => x.getLsbD i

/-! ### By machine words -/

theorem iadd_eq : iadd x y = x + y := by
  rw [iadd, BitVec.ofNat_add, BitVec.ofNat_toNat, BitVec.ofNat_toNat, BitVec.setWidth_eq,
    BitVec.setWidth_eq]

theorem imul_eq : imul x y = x * y := by
  rw [imul, BitVec.ofNat_mul, BitVec.ofNat_toNat, BitVec.ofNat_toNat, BitVec.setWidth_eq,
    BitVec.setWidth_eq]

theorem isub_eq : isub x y = x - y := (BitVec.sub_def x y).symm

theorem ishl_eq : ishl x y = x <<< (y.toNat % w) := by
  apply BitVec.eq_of_toNat_eq
  rw [ishl, BitVec.toNat_ofNat, BitVec.toNat_shiftLeft, Nat.shiftLeft_eq]

theorem ishrU_eq : ishrU x y = x >>> (y.toNat % w) := by
  apply BitVec.eq_of_toNat_eq
  rw [ishrU, BitVec.toNat_ofNat, BitVec.toNat_ushiftRight, Nat.shiftRight_eq_div_pow]
  exact Nat.mod_eq_of_lt (Nat.lt_of_le_of_lt (Nat.div_le_self _ _) x.isLt)

theorem ishrS_eq : ishrS x y = x.sshiftRight (y.toNat % w) := by
  rw [ishrS, BitVec.sshiftRight, Int.shiftRight_eq_div_pow]
  norm_cast

variable {x y}

theorem toInt_tdiv (hy : ¬ (x = BitVec.intMin w ∧ y = -1#w)) :
    BitVec.ofInt w (x.toInt.tdiv y.toInt) = x.sdiv y := by
  rw [← BitVec.toInt_sdiv_of_ne_or_ne x y (by tauto), BitVec.ofInt_toInt]

theorem iremS_eq (hy : y ≠ 0) : iremS x y = some (x.srem y) := by
  have hne : y.toNat ≠ 0 := fun h => hy (BitVec.eq_of_toNat_eq h)
  rw [iremS, if_neg hne, ← Int.tmod_def, ← BitVec.toInt_srem, BitVec.ofInt_toInt]

theorem idivS_eq (hw : 1 < w) (hy : y ≠ 0) :
    idivS x y = if x = BitVec.intMin w ∧ y = -1#w then none else some (x.sdiv y) := by
  have hne : y.toNat ≠ 0 := fun h => hy (BitVec.eq_of_toNat_eq h)
  rw [idivS, if_neg hne]
  by_cases h : x = BitVec.intMin w ∧ y = -1#w
  · obtain ⟨rfl, rfl⟩ := h
    have hneg : (-1#w).toInt = -1 := by
      rw [BitVec.neg_one_eq_allOnes, BitVec.toInt_allOnes, if_pos (by omega)]
    have hquot : (BitVec.intMin w).toInt.tdiv (-1#w).toInt = 2 ^ (w - 1) := by
      rw [hneg, BitVec.toInt_intMin_of_pos (by omega)]
      simp
    simp [hquot]
  · rw [if_neg h, toInt_tdiv h, if_neg]
    rw [← BitVec.toInt_sdiv_of_ne_or_ne x y (by tauto)]
    have hlt := BitVec.toInt_lt (x := x.sdiv y)
    omega

theorem idivU_eq (hy : y ≠ 0) : idivU x y = some (x / y) := by
  have hne : y.toNat ≠ 0 := fun h => hy (BitVec.eq_of_toNat_eq h)
  rw [idivU, if_neg hne, ← BitVec.toNat_udiv, BitVec.ofNat_toNat, BitVec.setWidth_eq]

theorem iremU_eq (hy : y ≠ 0) : iremU x y = some (x % y) := by
  have hne : y.toNat ≠ 0 := fun h => hy (BitVec.eq_of_toNat_eq h)
  rw [iremU, if_neg hne, ← Nat.mod_eq_sub, ← BitVec.toNat_umod, BitVec.ofNat_toNat, BitVec.setWidth_eq]

/-! ### Tests of overflow -/

/-- The signed numbers of a width. -/
def InRange (w : Nat) (n : Int) : Prop := -2 ^ (w - 1) ≤ n ∧ n < 2 ^ (w - 1)

theorem toInt_inRange {w : Nat} (x : BitVec w) : InRange w x.toInt := ⟨BitVec.le_toInt x, BitVec.toInt_lt⟩

theorem toInt_ofInt_of_inRange {w : Nat} {n : Int} (hw : 0 < w) (h : InRange w n) :
    (BitVec.ofInt w n).toInt = n := by
  obtain ⟨hlo, hhi⟩ := h
  have hpow : (2 : Int) ^ w = 2 * 2 ^ (w - 1) := by
    obtain ⟨k, rfl⟩ := Nat.exists_eq_succ_of_ne_zero hw.ne'
    rw [Nat.succ_sub_one, pow_succ']
  rw [BitVec.toInt_ofInt, Int.bmod_eq_of_le_mul_two] <;> push_cast <;> omega

/-- A number that fits in fewer bits is what they stand for. -/
theorem toInt_setWidth_of_inRange {w l : Nat} {x : BitVec w} (hl : 0 < l) (hle : l ≤ w) (h : InRange l x.toInt) :
    (x.setWidth l).toInt = x.toInt := by
  obtain ⟨hlo, hhi⟩ := h
  have hpow : (2 : Int) ^ l = 2 * 2 ^ (l - 1) := by
    obtain ⟨k, rfl⟩ := Nat.exists_eq_succ_of_ne_zero hl.ne'
    rw [Nat.succ_sub_one, pow_succ']
  have hdvd : (2 ^ l : Nat) ∣ 2 ^ w := pow_dvd_pow 2 hle
  have hmod : Int.bmod x.toNat (2 ^ l) = Int.bmod x.toInt (2 ^ l) := by
    rw [BitVec.toInt_eq_toNat_bmod, Int.bmod_bmod_of_dvd hdvd]
  rw [BitVec.toInt_setWidth, hmod, Int.bmod_eq_of_le_mul_two] <;> push_cast <;> omega

theorem not_saddOverflow_iff {w : Nat} {x y : BitVec w} :
    x.saddOverflow y = false ↔ InRange w (x.toInt + y.toInt) := by
  simp only [BitVec.saddOverflow, InRange, Bool.or_eq_false_iff, decide_eq_false_iff_not]
  omega

theorem not_ssubOverflow_iff {w : Nat} {x y : BitVec w} :
    x.ssubOverflow y = false ↔ InRange w (x.toInt - y.toInt) := by
  simp only [BitVec.ssubOverflow, InRange, Bool.or_eq_false_iff, decide_eq_false_iff_not]
  omega

theorem not_smulOverflow_iff {w : Nat} {x y : BitVec w} :
    x.smulOverflow y = false ↔ InRange w (x.toInt * y.toInt) := by
  simp only [BitVec.smulOverflow, InRange, Bool.or_eq_false_iff, decide_eq_false_iff_not]
  omega

/-- The sign test of a sum. -/
theorem add_test {w : Nat} (x y : BitVec w) :
    ((x ^^^ (x + y)) &&& (y ^^^ (x + y))).slt 0#w = x.saddOverflow y := by
  rw [BitVec.slt_zero_eq_msb, BitVec.msb_and, BitVec.msb_xor, BitVec.msb_xor]
  cases w with
  | zero => simp [BitVec.saddOverflow, BitVec.of_length_zero]
  | succ w =>
    rw [BitVec.saddOverflow_eq]
    cases x.msb <;> cases y.msb <;> cases (x + y).msb <;> rfl

theorem sub_test {w : Nat} (x y : BitVec w) :
    ((x ^^^ y) &&& (x ^^^ (x - y))).slt 0#w = x.ssubOverflow y := by
  rw [BitVec.slt_zero_eq_msb, BitVec.msb_and, BitVec.msb_xor, BitVec.msb_xor]
  cases w with
  | zero => simp [BitVec.ssubOverflow, BitVec.of_length_zero]
  | succ w =>
    rw [BitVec.ssubOverflow_eq]
    cases x.msb <;> cases y.msb <;> cases (x - y).msb <;> rfl

/-- **The division test** of a product: the wrapped product over one operand is the other exactly when the
product is in range. -/
theorem mul_test {w : Nat} {x y : BitVec w} (hw : 1 < w) (hx : x ≠ 0) :
    idivS (imul x y) x = some y ↔ InRange w (x.toInt * y.toInt) := by
  have hne : x.toNat ≠ 0 := fun h => hx (BitVec.eq_of_toNat_eq h)
  have hxInt : x.toInt ≠ 0 := fun h => hx (BitVec.eq_of_toInt_eq (by simpa using h))
  have hpos : 0 < w := by omega
  rw [imul_eq]
  constructor
  · intro h
    have hcong : (2 : Int) ^ w ∣ (x * y).toInt - x.toInt * y.toInt := by
      rw [BitVec.toInt_mul]
      have hb := Int.dvd_bmod_sub_self (x := x.toInt * y.toInt) (m := 2 ^ w)
      push_cast at hb
      exact hb
    rw [idivS, if_neg hne] at h
    by_cases hover : (x * y).toInt.tdiv x.toInt = 2 ^ (w - 1)
    · rw [if_pos hover] at h
      cases h
    rw [if_neg hover] at h
    injection h with h
    have hR := toInt_inRange (x * y)
    have habs := Int.natAbs_tdiv_le_natAbs (x * y).toInt x.toInt
    have hfits : InRange w ((x * y).toInt.tdiv x.toInt) := by
      obtain ⟨hlo, hhi⟩ := hR
      constructor <;> omega
    have hquot : (x * y).toInt.tdiv x.toInt = y.toInt := by
      rw [← toInt_ofInt_of_inRange hpos hfits, h]
    have hdiv := Int.mul_tdiv_add_tmod (x * y).toInt x.toInt
    rw [hquot] at hdiv
    have hrem := Int.natAbs_tmod (x * y).toInt x.toInt
    have hlt : (x * y).toInt.natAbs % x.toInt.natAbs < x.toInt.natAbs := Nat.mod_lt _ (by omega)
    -- the remainder is a multiple of `2 ^ w` below `2 ^ (w - 1)`
    have hzero : (x * y).toInt - x.toInt * y.toInt = 0 := by
      refine Int.eq_zero_of_abs_lt_dvd hcong ?_
      have hxr := toInt_inRange x
      have hpow : (2 : Int) ^ w = 2 * 2 ^ (w - 1) := by
        obtain ⟨k, rfl⟩ := Nat.exists_eq_succ_of_ne_zero hpos.ne'
        rw [Nat.succ_sub_one, pow_succ']
      obtain ⟨hlo, hhi⟩ := hxr
      rw [← hdiv, add_sub_cancel_left, hpow, Int.abs_eq_natAbs, hrem]
      omega
    rw [Int.sub_eq_zero.mp hzero] at hR
    exact hR
  · intro h
    have hprod : (x * y).toInt = x.toInt * y.toInt :=
      BitVec.toInt_mul_of_not_smulOverflow (by simpa using not_smulOverflow_iff.mpr h)
    have hquot : (x * y).toInt.tdiv x.toInt = y.toInt := by
      rw [hprod, Int.mul_tdiv_cancel_left _ hxInt]
    rw [idivS, if_neg hne, hquot, if_neg, BitVec.ofInt_toInt]
    have := (toInt_inRange y).2
    omega

end

/-! ## Division by powers of two -/

section

variable {w k : Nat} {x : BitVec w}

theorem sshiftRight_sign (x : BitVec w) : x.sshiftRight (w - 1) = if x.msb then BitVec.allOnes w else 0#w := by
  ext i hi
  rw [BitVec.getElem_sshiftRight]
  have hsign : (if h : w - 1 + i < w then x[w - 1 + i] else x.msb) = x.msb := by
    split
    · obtain rfl : i = 0 := by omega
      rw [BitVec.msb_eq_getLsbD_last, BitVec.getLsbD_eq_getElem (by omega)]
      rfl
    · rfl
  rw [hsign]
  cases x.msb <;> simp

/-- The sign, shifted: `2 ^ k - 1` for a negative number. -/
theorem bias_eq (hk : k ≤ w) : (x.sshiftRight (w - 1)) >>> (w - k) = if x.msb then BitVec.ofNat w (2 ^ k - 1) else 0#w := by
  have hpow : 2 ^ w = 2 ^ k * 2 ^ (w - k) := by rw [← pow_add, Nat.add_sub_cancel' hk]
  have hpos : 0 < 2 ^ (w - k) := Nat.two_pow_pos _
  have hone : 1 ≤ 2 ^ k := Nat.one_le_two_pow
  rw [sshiftRight_sign]
  cases x.msb with
  | false => simp
  | true =>
    refine BitVec.eq_of_toNat_eq ?_
    have hle : 2 ^ k ≤ 2 ^ w := Nat.pow_le_pow_right (by decide) hk
    rw [if_pos rfl, if_pos rfl, BitVec.toNat_ushiftRight, Nat.shiftRight_eq_div_pow, BitVec.toNat_allOnes, BitVec.toNat_ofNat,
      Nat.mod_eq_of_lt (by omega)]
    refine Nat.div_eq_of_lt_le ?_ ?_
    · rw [Nat.sub_mul, ← hpow]
      omega
    · rw [Nat.sub_add_cancel hone, ← hpow]
      omega

/-- Rounding toward zero, by rounding down. -/
theorem tdiv_eq_ediv_bias (n : Int) {d : Int} (hd : 0 < d) : n.tdiv d = (n + if n < 0 then d - 1 else 0) / d := by
  split
  · have hrem := Int.mul_tdiv_add_tmod (-n) d
    have hlo := Int.tmod_nonneg d (show 0 ≤ -n by omega)
    have hhi := Int.tmod_lt_of_pos (-n) hd
    rw [Int.neg_tdiv, Int.mul_neg] at hrem
    have hsplit : n + (d - 1) = (d - 1 - (-n).tmod d) + d * n.tdiv d := by omega
    rw [hsplit, Int.add_mul_ediv_left _ _ hd.ne', Int.ediv_eq_zero_of_lt (by omega) (by omega), Int.zero_add]
  · rw [Int.add_zero, Int.tdiv_eq_ediv_of_nonneg (by omega)]

theorem toInt_twoPow_of_lt (hk : k < w - 1) : (BitVec.twoPow w k).toInt = 2 ^ k := by
  rw [BitVec.toInt_twoPow, if_neg (by omega), if_neg (by omega)]

theorem twoPow_ne (hk : k < w - 1) : BitVec.twoPow w k ≠ -1#w := fun h => by
  have htwo := toInt_twoPow_of_lt hk
  have hneg : (-1#w).toInt = -1 := by rw [BitVec.neg_one_eq_allOnes, BitVec.toInt_allOnes, if_pos (by omega)]
  have hpos : (0 : Int) < 2 ^ k := Int.pow_pos (by decide)
  rw [h, hneg] at htwo
  omega

/-- A number with the bias added. -/
theorem toInt_biased (hk : k < w - 1) (x : BitVec w) :
    (x + (x.sshiftRight (w - 1)) >>> (w - k)).toInt = x.toInt + if x.toInt < 0 then 2 ^ k - 1 else 0 := by
  have hsmall : (2 : Int) ^ k ≤ 2 ^ (w - 1) := by exact_mod_cast Nat.pow_le_pow_right (show 0 < 2 by decide) hk.le
  have hone : (1 : Int) ≤ 2 ^ k := by exact_mod_cast Nat.one_le_two_pow
  have hfits : InRange w (x.toInt + if x.toInt < 0 then 2 ^ k - 1 else 0) := by
    obtain ⟨hlo, hhi⟩ := toInt_inRange x
    constructor <;> split <;> omega
  have hbias : (x.sshiftRight (w - 1)) >>> (w - k) = BitVec.ofInt w (if x.toInt < 0 then 2 ^ k - 1 else 0) := by
    have hmsb : x.msb = decide (x.toInt < 0) := BitVec.msb_eq_toInt
    rw [bias_eq (by omega), hmsb]
    by_cases hneg : x.toInt < 0
    · have hcast : (2 : Int) ^ k - 1 = ((2 ^ k - 1 : Nat) : Int) := by
        rw [Nat.cast_sub Nat.one_le_two_pow]
        norm_cast
      rw [if_pos (decide_eq_true hneg), if_pos hneg, hcast, BitVec.ofInt_natCast]
    · rw [if_neg (by simpa using hneg), if_neg hneg]
      rfl
  rw [← toInt_ofInt_of_inRange (by omega) hfits, BitVec.ofInt_add, BitVec.ofInt_toInt, hbias]

/-- **A signed quotient** by a power of two. -/
theorem sdiv_twoPow (hk : k < w - 1) (x : BitVec w) :
    (x + (x.sshiftRight (w - 1)) >>> (w - k)).sshiftRight k = x.sdiv (BitVec.twoPow w k) := by
  have hpos : (0 : Int) < 2 ^ k := Int.pow_pos (by decide)
  have htwo := toInt_twoPow_of_lt hk
  have hnot : BitVec.twoPow w k ≠ -1#w := twoPow_ne hk
  refine BitVec.eq_of_toInt_eq ?_
  rw [BitVec.toInt_sdiv_of_ne_or_ne _ _ (by tauto), htwo, tdiv_eq_ediv_bias _ hpos, BitVec.toInt_sshiftRight, toInt_biased hk,
    Int.shiftRight_eq_div_pow]
  norm_cast

theorem and_neg_twoPow (k : Nat) (y : BitVec w) : y &&& -BitVec.twoPow w k = y.sshiftRight k <<< k := by
  have hones : -BitVec.twoPow w k = BitVec.allOnes w <<< k := by
    rw [BitVec.shiftLeft_eq_mul_twoPow, ← BitVec.neg_one_eq_allOnes, BitVec.neg_mul, BitVec.one_mul]
  rw [hones]
  ext i hi
  rw [BitVec.getElem_and, BitVec.getElem_shiftLeft, BitVec.getElem_shiftLeft]
  by_cases hlt : i < k
  · simp [hlt]
  · simp [hlt, BitVec.getElem_sshiftRight, Nat.add_sub_cancel' (Nat.le_of_not_lt hlt), hi]

/-- **A signed remainder** by a power of two. -/
theorem srem_twoPow (hk : k < w - 1) (x : BitVec w) :
    x - ((x.sshiftRight (w - 1)) >>> (w - k) + x &&& -BitVec.twoPow w k) = x.srem (BitVec.twoPow w k) := by
  have hnot : ¬ (x = BitVec.intMin w ∧ BitVec.twoPow w k = -1#w) := fun ⟨_, h⟩ => twoPow_ne hk h
  rw [BitVec.add_comm, and_neg_twoPow, sdiv_twoPow hk, BitVec.shiftLeft_eq_mul_twoPow, ← BitVec.ofInt_toInt (x := x.srem _), BitVec.toInt_srem, Int.tmod_def,
    Int.sub_eq_add_neg, BitVec.ofInt_add, BitVec.ofInt_neg, BitVec.ofInt_mul, toInt_tdiv hnot, BitVec.ofInt_toInt, BitVec.ofInt_toInt, BitVec.mul_comm,
    BitVec.sub_eq_add_neg]

/-- **An unsigned remainder** by a power of two. -/
theorem umod_twoPow (hk : k < w) (x : BitVec w) : x &&& (BitVec.twoPow w k - 1#w) = x % BitVec.twoPow w k := by
  refine BitVec.eq_of_toNat_eq ?_
  have hone : (1#w).toNat = 1 := by
    rw [BitVec.toNat_ofNat, Nat.mod_eq_of_lt (Nat.one_lt_two_pow (by omega))]
  have hle : 1#w ≤ BitVec.twoPow w k := by
    rw [BitVec.le_def, hone, BitVec.toNat_twoPow_of_lt hk]
    exact Nat.one_le_two_pow
  rw [BitVec.toNat_and, BitVec.toNat_sub_of_le hle, hone, BitVec.toNat_umod, BitVec.toNat_twoPow_of_lt hk, Nat.and_two_pow_sub_one_eq_mod]

end

end Aipl.Lib.Wasm
