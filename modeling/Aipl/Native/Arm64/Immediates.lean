import Aipl.Native.Arm64.Moves

/-! # Immediates and offsets in their fields

* `logicImmField_spec` — the field of a bitmask, and when there is one.
* `fpImm8_double`, `fpImm8_single` — the same of floating-point immediates.
* `patchB_returns`, `patchCond_returns`, `patchAdr_returns` — the offset that a patch sets.
* `immediates_mean` — all of it, with the constants.
-/

namespace Aipl.Arm64

open Lib Lib.Outcome Aipl.Std StdBuf Lib.Arm64

/-! ### Bitmasks -/

section Logic

variable {M : Nat} (x : BitVec M)

/-- What the loop compares, as a rotation of `M` bits. -/
theorem rot_eq {r : Nat} (hM : M ≤ 64) (hr : r < M) :
    (if r = 0 then x.setWidth 64 else ((x.setWidth 64 <<< r) ||| (x.setWidth 64 >>> (M - r))) &&& ones 64 M) =
      (x.rotateLeft r).setWidth 64 := by
  apply BitVec.eq_of_getLsbD_eq
  intro i hi
  rw [BitVec.getLsbD_setWidth, decide_eq_true hi, Bool.true_and, getLsbD_rotl x hr]
  by_cases hzero : r = 0
  · subst hzero
    rw [if_pos rfl, if_neg (by omega), BitVec.getLsbD_setWidth, decide_eq_true hi, Bool.true_and, Nat.sub_zero]
    by_cases him : i < M
    · rw [decide_eq_true him, Bool.true_and]
    · rw [BitVec.getLsbD_of_ge x i (by omega), Bool.and_false]
  rw [if_neg hzero, BitVec.getLsbD_and, BitVec.getLsbD_or, BitVec.getLsbD_shiftLeft, BitVec.getLsbD_ushiftRight,
    BitVec.getLsbD_setWidth, BitVec.getLsbD_setWidth, getLsbD_ones hi, decide_eq_true hi]
  by_cases him : i < M
  · rw [decide_eq_true him]
    by_cases hir : i < r
    · rw [if_pos hir, decide_eq_true hir, decide_eq_true (by omega : M - r + i < 64)]
      simp
    · rw [if_neg hir, decide_eq_false hir, BitVec.getLsbD_of_ge x (M - r + i) (by omega),
        decide_eq_true (by omega : i - r < 64)]
      simp
  · rw [if_neg (by omega), decide_eq_false him]
    simp

theorem low_eq {n : Nat} (hn : n < 64) : (1#64 <<< n) - 1 = ones 64 n := by
  apply BitVec.eq_of_toNat_eq
  have hpow : 2 ^ n < 2 ^ 64 := Nat.pow_lt_pow_right (by decide) hn
  have hpos := Nat.two_pow_pos n
  have h1 : (1#64 <<< n).toNat = 2 ^ n := by
    rw [BitVec.toNat_shiftLeft, Nat.shiftLeft_eq]
    change 1 * 2 ^ n % 2 ^ 64 = _
    rw [Nat.one_mul, Nat.mod_eq_of_lt hpow]
  rw [BitVec.toNat_sub_of_le (by rw [BitVec.le_def, h1]; exact hpos), h1, ones, BitVec.toNat_setWidth,
    BitVec.toNat_allOnes, Nat.mod_eq_of_lt (by omega)]
  rfl

theorem setWidth_ones {n : Nat} (hn : n ≤ M) : (ones M n).setWidth 64 = ones 64 n := by
  apply BitVec.eq_of_getLsbD_eq
  intro i hi
  rw [BitVec.getLsbD_setWidth, decide_eq_true hi, Bool.true_and, getLsbD_ones hi]
  by_cases him : i < M
  · rw [getLsbD_ones him]
  · rw [BitVec.getLsbD_of_ge _ i (by omega), decide_eq_false (by omega)]

theorem setWidth_inj_64 {y : BitVec M} (hM : M ≤ 64) : x.setWidth 64 = y.setWidth 64 ↔ x = y := by
  refine ⟨fun h => ?_, fun h => by rw [h]⟩
  have hw := congrArg (fun z : BitVec 64 => z.setWidth M) h
  simpa [BitVec.setWidth_setWidth_of_le _ hM] using hw

/-- The bits counted are those of `x`. -/
theorem count_bits (hM : M ≤ 64) :
    (List.range M).foldl (fun n k => if (x.setWidth 64 >>> k) &&& 1 ≠ 0 then n + 1 else n) 0 = Wasm.ipopcnt x := by
  rw [foldl_count, Nat.zero_add, Wasm.ipopcnt]
  refine List.countP_congr fun k hk => ?_
  have hlt := List.mem_range.mp hk
  have hbit : (x.setWidth 64 >>> k) &&& 1 ≠ 0 ↔ x.getLsbD k = true := by
    have hval : ((x.setWidth 64 >>> k) &&& 1).toNat = (x.toNat >>> k) % 2 := by
      rw [BitVec.toNat_and, BitVec.toNat_ushiftRight, BitVec.toNat_setWidth_of_le hM]
      exact Nat.and_one_is_mod _
    rw [BitVec.getLsbD, Nat.testBit_eq_decide_div_mod_eq, decide_eq_true_eq, ← Nat.shiftRight_eq_div_pow, ← hval]
    constructor
    · intro hne
      have : ((x.setWidth 64 >>> k) &&& 1).toNat ≠ 0 := fun h0 => hne (BitVec.eq_of_toNat_eq h0)
      omega
    · intro h h0
      rw [h0] at h
      exact absurd h (by decide)
  rw [decide_eq_true_eq, hbit]

end Logic

/-- The bits of an operand. -/
def bits (b : Bool) : Nat := if b then 64 else 32

/-- The value of an operand of the size. -/
def operand (b : Bool) (v : BitVec 64) : BitVec (bits b) := v.setWidth (bits b)

/-- The bits 12 to 0 of the field: `N`, `immr`, `imms`. -/
def decodeField (b : Bool) (f : BitVec 32) : Option (BitVec (bits b)) :=
  decodeBitMasks (bits b) (f.extractLsb' 12 1) (f.extractLsb' 0 6) (f.extractLsb' 6 6)

/-- The field of a run and a rotation. -/
def fieldOf (b : Bool) (n r : Nat) : BitVec 32 :=
  (if size b = 64 then 1#32 else 0#32) <<< 12 ||| (BitVec.ofNat 32 r <<< 6 ||| (BitVec.ofNat 32 n - 1))

theorem size_toNat (b : Bool) : (size b).toNat = bits b := by cases b <;> rfl

theorem bits_le (b : Bool) : bits b ≤ 64 := by cases b <;> decide

theorem masked_eq (b : Bool) (v : BitVec 64) :
    (if size b = 32 then v &&& 4294967295 else v) = (operand b v).setWidth 64 := by
  cases b with
  | true =>
    change v = (v.setWidth 64).setWidth 64
    rw [BitVec.setWidth_eq, BitVec.setWidth_eq]
  | false =>
    change v &&& ones 64 32 = (v.setWidth 32).setWidth 64
    apply BitVec.eq_of_getLsbD_eq
    intro i hi
    rw [BitVec.getLsbD_and, getLsbD_ones hi, BitVec.getLsbD_setWidth, BitVec.getLsbD_setWidth, decide_eq_true hi,
      Bool.true_and, Bool.and_comm]

theorem mask_eq (b : Bool) : (if size b = 32 then 4294967295 else -1 : BitVec 64) = ones 64 (bits b) := by
  cases b <;> rfl

/-- One round of the loop. -/
theorem logicImmRound_eq (b : Bool) (x : BitVec (bits b)) {n r : Nat} (hn : n < bits b) (hr : r < bits b) :
    logicImmRound (size b) (x.setWidth 64) ((1#64 <<< n) - 1) (if size b = 32 then 4294967295 else -1) n r =
      if x = (ones (bits b) n).rotateRight r then some (fieldOf b n r) else none := by
  have hle := bits_le b
  rw [logicImmRound, mask_eq, size_toNat, low_eq (by omega), rot_eq x hle hr, ← setWidth_ones (M := bits b) hn.le]
  simp only [setWidth_inj_64 _ hle, rotateLeft_eq_iff hr]
  rfl

theorem toNat_fieldOf {b : Bool} {n r : Nat} (hn : 0 < n) (hnb : n < bits b) (hr : r < bits b) :
    (fieldOf b n r).extractLsb' 12 1 = BitVec.ofBool b ∧ (fieldOf b n r).extractLsb' 6 6 = BitVec.ofNat 6 r ∧
      (fieldOf b n r).extractLsb' 0 6 = BitVec.ofNat 6 (n - 1) ∧ (fieldOf b n r).extractLsb' 13 19 = 0#19 := by
  have hle := bits_le b
  have hN : (if size b = 64 then 1#32 else 0#32) = (BitVec.ofBool b).setWidth 32 := by cases b <;> rfl
  have hs : (BitVec.ofNat 32 n - 1 : BitVec 32) = BitVec.ofNat 32 (n - 1) <<< (0 : Nat) := by
    rw [BitVec.shiftLeft_zero]
    apply BitVec.eq_of_toNat_eq
    rw [BitVec.toNat_sub_of_le (by rw [BitVec.le_def, BitVec.toNat_ofNat, Nat.mod_eq_of_lt (by omega)]; exact hn),
      BitVec.toNat_ofNat, BitVec.toNat_ofNat, Nat.mod_eq_of_lt (by omega), Nat.mod_eq_of_lt (by omega)]
    rfl
  have hN1 : ((BitVec.ofBool b).setWidth 32).toNat < 2 ^ 1 := toNat_setWidth_lt _ (by decide)
  have hr6 : (BitVec.ofNat 32 r).toNat < 2 ^ 6 := by rw [BitVec.toNat_ofNat]; omega
  have hn6 : (BitVec.ofNat 32 (n - 1)).toNat < 2 ^ 6 := by rw [BitVec.toNat_ofNat]; omega
  rw [fieldOf, hN, hs]
  simp only [BitVec.extractLsb'_or]
  refine ⟨?_, ?_, ?_, ?_⟩
  · rw [extract_shl _ (by decide), extract_shl_above hr6 (by decide), extract_shl_above hn6 (by decide)]
    simp [BitVec.setWidth_setWidth_of_le]
  · rw [extract_shl_below (by decide), extract_shl _ (by decide), extract_shl_above hn6 (by decide)]
    simp [BitVec.setWidth_ofNat_of_le]
  · rw [extract_shl_below (by decide), extract_shl_below (by decide), extract_shl _ (by decide)]
    simp [BitVec.setWidth_ofNat_of_le]
  · rw [extract_shl_above hN1 (by decide), extract_shl_above hr6 (by decide), extract_shl_above hn6 (by decide)]
    simp

theorem decodeField_fieldOf {b : Bool} {n r : Nat} (hn : 0 < n) (hnb : n < bits b) (hr : r < bits b) :
    decodeField b (fieldOf b n r) = some ((ones (bits b) n).rotateRight r) := by
  obtain ⟨hN, himmr, himms, -⟩ := toNat_fieldOf hn hnb hr
  rw [decodeField, hN, himmr, himms]
  obtain ⟨k, rfl⟩ : ∃ k, n = k + 1 := ⟨n - 1, by omega⟩
  rw [Nat.add_sub_cancel]
  cases b with
  | true => exact decodeBitMasks_64 (Nat.lt_of_succ_lt_succ hnb) hr
  | false => exact decodeBitMasks_32 (Nat.lt_of_succ_lt_succ hnb) hr

theorem fieldOf_ne {b : Bool} {n r : Nat} (hn : 0 < n) (hnb : n < bits b) (hr : r < bits b) : fieldOf b n r ≠ -1 := by
  intro h
  obtain ⟨-, -, -, habove⟩ := toNat_fieldOf hn hnb hr
  rw [h] at habove
  exact absurd habove (by decide)

/-- What the function returns, by the rotations it tries. -/
theorem logicImmField_eq (b : Bool) (v : BitVec 64) : logicImmField (size b) v =
    if Wasm.ipopcnt (operand b v) = 0 ∨ Wasm.ipopcnt (operand b v) = bits b then -1
    else ((List.range (bits b)).findSome? fun r =>
      logicImmRound (size b) ((operand b v).setWidth 64) ((1#64 <<< Wasm.ipopcnt (operand b v)) - 1)
        (if size b = 32 then 4294967295 else -1) (Wasm.ipopcnt (operand b v)) r).getD (-1) := by
  rw [logicImmField, masked_eq, size_toNat]
  dsimp only
  rw [count_bits (operand b v) (bits_le b)]

theorem ipopcnt_le {M : Nat} (x : BitVec M) : Wasm.ipopcnt x ≤ M := by
  have h := List.countP_le_length (p := fun i => x.getLsbD i) (l := List.range M)
  rwa [List.length_range] at h

/-- **The bitmask field.**  There is one exactly for the rotated runs, and it decodes to the operand. -/
theorem logicImmField_spec (b : Bool) (v : BitVec 64) :
    (logicImmField (size b) v ≠ -1 ↔ IsRotatedRun (operand b v)) ∧
    (logicImmField (size b) v ≠ -1 → decodeField b (logicImmField (size b) v) = some (operand b v) ∧
      (logicImmField (size b) v).toNat < 2 ^ 13) := by
  have hle := ipopcnt_le (operand b v)
  by_cases hrun : IsRotatedRun (operand b v)
  · obtain ⟨n, r, hn, hnb, hx⟩ := hrun
    have hrb : r % bits b < bits b := Nat.mod_lt _ (by omega)
    rw [← BitVec.rotateRight_mod_eq_rotateRight] at hx
    have hcount : Wasm.ipopcnt (operand b v) = n := by
      rw [← ipopcnt_rotateLeft (operand b v) hrb, (rotateLeft_eq_iff hrb).mpr hx, ipopcnt_ones hnb.le]
    have hfound : ∃ r' < bits b, logicImmField (size b) v = fieldOf b n r' ∧
        operand b v = (ones (bits b) n).rotateRight r' := by
      rw [logicImmField_eq, hcount, if_neg (by omega)]
      cases hfind : (List.range (bits b)).findSome? fun r => logicImmRound (size b) ((operand b v).setWidth 64)
          ((1#64 <<< n) - 1) (if size b = 32 then 4294967295 else -1) n r with
      | none =>
        have hnone := List.findSome?_eq_none_iff.mp hfind (r % bits b) (List.mem_range.mpr hrb)
        rw [logicImmRound_eq b _ hnb hrb, if_pos hx] at hnone
        cases hnone
      | some f =>
        obtain ⟨r', hr', hsome⟩ := List.exists_of_findSome?_eq_some hfind
        have hlt := List.mem_range.mp hr'
        rw [logicImmRound_eq b _ hnb hlt] at hsome
        by_cases heq : operand b v = (ones (bits b) n).rotateRight r'
        · rw [if_pos heq] at hsome
          exact ⟨r', hlt, (Option.some.inj hsome).symm, heq⟩
        · rw [if_neg heq] at hsome
          cases hsome
    obtain ⟨r', hlt, hfield, heq⟩ := hfound
    rw [hfield]
    refine ⟨iff_of_true (fieldOf_ne hn hnb hlt) ⟨n, r', hn, hnb, heq⟩, fun _ => ⟨?_, ?_⟩⟩
    · rw [decodeField_fieldOf hn hnb hlt, ← heq]
    · have habove := congrArg BitVec.toNat (toNat_fieldOf hn hnb hlt).2.2.2
      rw [BitVec.extractLsb'_toNat, Nat.shiftRight_eq_div_pow, BitVec.toNat_ofNat] at habove
      have := (fieldOf b n r').isLt
      omega
  · have hnone : logicImmField (size b) v = -1 := by
      rw [logicImmField_eq]
      split
      · rfl
      · next hcount =>
        cases hfind : (List.range (bits b)).findSome? fun r => logicImmRound (size b) ((operand b v).setWidth 64)
            ((1#64 <<< Wasm.ipopcnt (operand b v)) - 1) (if size b = 32 then 4294967295 else -1)
              (Wasm.ipopcnt (operand b v)) r with
        | none => rfl
        | some f =>
          obtain ⟨r', hr', hsome⟩ := List.exists_of_findSome?_eq_some hfind
          rw [logicImmRound_eq b _ (by omega) (List.mem_range.mp hr')] at hsome
          by_cases heq : operand b v = (ones (bits b) (Wasm.ipopcnt (operand b v))).rotateRight r'
          · exact absurd ⟨_, r', by omega, by omega, heq⟩ hrun
          · rw [if_neg heq] at hsome
            cases hsome
    rw [hnone]
    exact ⟨iff_of_false (fun h => h rfl) hrun, fun h => absurd rfl h⟩

/-! ### Floating-point immediates -/

/-- The field that the parts make. -/
theorem imm8_parts : ∀ s < 2, ∀ e < 8, ∀ f < 16,
    BitVec.ofNat 32 s <<< 7 ||| ((if (BitVec.ofNat 32 e).slt 4 then (1 : BitVec 32) else 0) <<< 6 |||
      ((BitVec.ofNat 32 e).srem 4 <<< 4 ||| BitVec.ofNat 32 f)) =
      BitVec.ofNat 32 (s * 128 + (if e < 4 then 64 else 0) + e % 4 * 16 + f) := by decide +kernel

theorem field_eq (v : BitVec 64) (n : Nat) {k : Nat} (hk : k ≤ 64) :
    (v >>> n) &&& BitVec.ofNat 64 (2 ^ k - 1) = BitVec.ofNat 64 (v.toNat / 2 ^ n % 2 ^ k) := by
  have hpow : 2 ^ k ≤ 2 ^ 64 := Nat.pow_le_pow_right (by decide) hk
  have hpos := Nat.two_pow_pos k
  have hlt := Nat.mod_lt (v.toNat / 2 ^ n) hpos
  apply BitVec.eq_of_toNat_eq
  rw [BitVec.toNat_and, BitVec.toNat_ushiftRight, Nat.shiftRight_eq_div_pow, BitVec.toNat_ofNat, BitVec.toNat_ofNat,
    Nat.mod_eq_of_lt (by omega : 2 ^ k - 1 < 2 ^ 64), Nat.and_two_pow_sub_one_eq_mod]
  exact (Nat.mod_eq_of_lt (hlt.trans_le hpow)).symm

/-- The parts of the field, of the numbers in the fields of a pattern. -/
theorem parts_eq {base S E F L : Nat} (hS : S < 2) (hE : E < 2 ^ 11) (hF : F < 16) (hL : L < 2 ^ 64)
    (hbase : base ≤ 1020) :
    (if BitVec.ofNat 64 L = 0 ∧ (BitVec.ofNat 32 base).sle (BitVec.ofNat 32 E) = true ∧
        (BitVec.ofNat 32 E).sle (BitVec.ofNat 32 base + 7) = true then
      BitVec.ofNat 32 S <<< 7 ||| ((if (BitVec.ofNat 32 E - BitVec.ofNat 32 base).slt 4 then (1 : BitVec 32) else 0) <<< 6 |||
        ((BitVec.ofNat 32 E - BitVec.ofNat 32 base).srem 4 <<< 4 ||| BitVec.ofNat 32 F))
    else -1) = if L = 0 ∧ base ≤ E ∧ E ≤ base + 7 then
      BitVec.ofNat 32 (S * 128 + (if E - base < 4 then 64 else 0) + (E - base) % 4 * 16 + F) else -1 := by
  have hzero : BitVec.ofNat 64 L = 0 ↔ L = 0 := by
    refine ⟨fun h => ?_, fun h => by rw [h]; rfl⟩
    have := congrArg BitVec.toNat h
    rwa [BitVec.toNat_ofNat, Nat.mod_eq_of_lt hL] at this
  have hbaseN : (BitVec.ofNat 32 base).toNat = base := by rw [BitVec.toNat_ofNat]; omega
  have hEN : (BitVec.ofNat 32 E).toNat = E := by rw [BitVec.toNat_ofNat]; omega
  have hsum : (BitVec.ofNat 32 base + 7).toNat = base + 7 := by
    rw [BitVec.toNat_add, hbaseN]
    change (base + 7) % 2 ^ 32 = _
    omega
  have hlo : (BitVec.ofNat 32 base).sle (BitVec.ofNat 32 E) = true ↔ base ≤ E := by
    rw [sle_iff (by omega) (by omega), hbaseN, hEN]
  have hhi : (BitVec.ofNat 32 E).sle (BitVec.ofNat 32 base + 7) = true ↔ E ≤ base + 7 := by
    rw [sle_iff (by omega) (by omega), hsum, hEN]
  simp only [hzero, hlo, hhi]
  split
  · next h =>
    have hsub : BitVec.ofNat 32 E - BitVec.ofNat 32 base = BitVec.ofNat 32 (E - base) := by
      apply BitVec.eq_of_toNat_eq
      rw [BitVec.toNat_sub_of_le (by rw [BitVec.le_def]; omega), hEN, hbaseN, BitVec.toNat_ofNat]
      omega
    rw [hsub]
    exact imm8_parts S hS (E - base) (by omega) F hF
  · rfl

/-- The value of a field, in its parts. -/
theorem ofNat_eq_imm8 (imm8 : BitVec 8) {S e F : Nat} (hS : S < 2) (he : e < 8) (hF : F < 16) :
    BitVec.ofNat 32 (S * 128 + (if e < 4 then 64 else 0) + e % 4 * 16 + F) = imm8.setWidth 32 ↔
      S = imm8.toNat / 128 ∧ e = (if imm8.toNat / 64 % 2 = 1 then 0 else 4) + imm8.toNat / 16 % 4 ∧
        F = imm8.toNat % 16 := by
  have hlt := imm8.isLt
  rw [← BitVec.toNat_inj, BitVec.toNat_ofNat, BitVec.toNat_setWidth]
  constructor
  · intro h
    split at h <;> split <;> omega
  · rintro ⟨rfl, rfl, rfl⟩
    split <;> split <;> omega

/-- A field, as a word. -/
theorem field_word (v : BitVec 64) (n : Nat) {k : Nat} (hk : k ≤ 32) :
    ((v >>> n) &&& BitVec.ofNat 64 (2 ^ k - 1)).setWidth 32 = BitVec.ofNat 32 (v.toNat / 2 ^ n % 2 ^ k) := by
  rw [field_eq v n (by omega), BitVec.setWidth_ofNat_of_le (by decide)]

theorem low_field (v : BitVec 64) {k : Nat} (hk : k ≤ 64) :
    v &&& BitVec.ofNat 64 (2 ^ k - 1) = BitVec.ofNat 64 (v.toNat % 2 ^ k) := by
  have h := field_eq v 0 hk
  rwa [BitVec.ushiftRight_zero, pow_zero, Nat.div_one] at h

/-- What the function returns, where the pattern is of `b`, `S`, `E`, `F` and `L`; and the pattern they are of. -/
theorem answers {b : Nat} {pattern : BitVec 8 → Prop} {S E F L : Nat} {f : BitVec 32} (hS : S < 2) (hF : F < 16)
    (hf : f = if L = 0 ∧ b ≤ E ∧ E ≤ b + 7 then
      BitVec.ofNat 32 (S * 128 + (if E - b < 4 then 64 else 0) + (E - b) % 4 * 16 + F) else -1)
    (hpat : ∀ imm8, pattern imm8 ↔ L = 0 ∧ b ≤ E ∧ E ≤ b + 7 ∧ S = imm8.toNat / 128 ∧
      E - b = (if imm8.toNat / 64 % 2 = 1 then 0 else 4) + imm8.toNat / 16 % 4 ∧ F = imm8.toNat % 16) :
    (∀ imm8, f = imm8.setWidth 32 ↔ pattern imm8) ∧ ((¬ ∃ imm8, pattern imm8) → f = -1) := by
  by_cases h : L = 0 ∧ b ≤ E ∧ E ≤ b + 7
  · rw [if_pos h] at hf
    have hiff : ∀ imm8, f = imm8.setWidth 32 ↔ pattern imm8 := fun imm8 => by
      rw [hf, ofNat_eq_imm8 imm8 hS (by omega) hF, hpat]
      exact ⟨fun hparts => ⟨h.1, h.2.1, h.2.2, hparts⟩, fun hall => hall.2.2.2⟩
    refine ⟨hiff, fun hnone => absurd ⟨f.setWidth 8, (hiff _).mp ?_⟩ hnone⟩
    have hlt : f.toNat < 256 := by
      rw [hf, BitVec.toNat_ofNat]
      split <;> omega
    apply BitVec.eq_of_toNat_eq
    rw [BitVec.toNat_setWidth, BitVec.toNat_setWidth]
    omega
  · rw [if_neg h] at hf
    refine ⟨fun imm8 => iff_of_false ?_ fun hp => ?_, fun _ => hf⟩
    · rw [hf]
      intro heq
      have := congrArg BitVec.toNat heq
      rw [BitVec.toNat_setWidth] at this
      have hlt := imm8.isLt
      have hneg : (-1 : BitVec 32).toNat = 2 ^ 32 - 1 := rfl
      omega
    · obtain ⟨hL, hlo, hhi, -⟩ := (hpat imm8).mp hp
      exact h ⟨hL, hlo, hhi⟩

/-- **Doubles.** -/
theorem fpImm8_double (v : BitVec 64) : (∀ imm8, fpImm8 1 v = imm8.setWidth 32 ↔ vfpExpandImm 11 52 imm8 = v) ∧
    ((¬ ∃ imm8, vfpExpandImm 11 52 imm8 = v) → fpImm8 1 v = -1) := by
  have hv := v.isLt
  refine answers (b := 1020) (S := v.toNat / 2 ^ 63 % 2 ^ 1) (E := v.toNat / 2 ^ 52 % 2 ^ 11)
    (F := v.toNat / 2 ^ 48 % 2 ^ 4) (L := v.toNat % 2 ^ 48) (by omega) (by omega) ?_ fun imm8 => ?_
  · rw [← parts_eq (by omega) (by omega) (by omega) (by omega) (by omega), ← low_field v (by decide),
      ← field_word v 63 (by decide), ← field_word v 52 (by decide), ← field_word v 48 (by decide)]
    rfl
  · have hlt := imm8.isLt
    rw [← BitVec.toNat_inj, toNat_vfpExpandImm_double]
    constructor
    · intro h
      split at h <;> split <;> omega
    · rintro ⟨hL, hlo, hhi, hS, hE, hF⟩
      split at hE <;> split <;> omega

/-- **Single floats**, in the low 32 bits. -/
theorem fpImm8_single {ft : BitVec 32} (hft : ft ≠ 1) (v : BitVec 64) :
    (∀ imm8, fpImm8 ft v = imm8.setWidth 32 ↔ vfpExpandImm 8 23 imm8 = v.setWidth 32) ∧
    ((¬ ∃ imm8, vfpExpandImm 8 23 imm8 = v.setWidth 32) → fpImm8 ft v = -1) := by
  refine answers (b := 124) (S := v.toNat / 2 ^ 31 % 2 ^ 1) (E := v.toNat / 2 ^ 23 % 2 ^ 8)
    (F := v.toNat / 2 ^ 19 % 2 ^ 4) (L := v.toNat % 2 ^ 19) (by omega) (by omega) ?_ fun imm8 => ?_
  · rw [← parts_eq (by omega) (by omega) (by omega) (by omega) (by omega), ← low_field v (by decide),
      ← field_word v 31 (by decide), ← field_word v 23 (by decide), ← field_word v 19 (by decide), fpImm8]
    simp only [if_neg hft]
    rfl
  · have hlt := imm8.isLt
    rw [← BitVec.toNat_inj, toNat_vfpExpandImm_single, BitVec.toNat_setWidth]
    constructor
    · intro h
      split at h <;> split <;> omega
    · rintro ⟨hL, hlo, hhi, hS, hE, hF⟩
      split at hE <;> split <;> omega

/-! ### Patches -/

section Patch

variable {R : Runtime} {m m' : Mem} {c : Buf} {at_ target keep bits : BitVec 32}

theorem store8_eq_done {a v : BitVec 32} :
    store8 R m a v = done m' ↔ R.writable a = true ∧ a.toNat < m.size ∧ m' = m.setByte a.toNat v := by
  rw [store8, require]
  cases R.writable a with
  | false => exact ⟨fun h => (by cases h), fun h => (by cases h.1)⟩
  | true =>
    rw [if_pos rfl, done_bind]
    split
    · next h => exact ⟨fun heq => ⟨rfl, h, (Outcome.done.inj heq).symm⟩, fun h => by rw [h.2.2]⟩
    · next h => exact ⟨fun heq => (by cases heq), fun h' => absurd h'.2.1 h⟩

/-- A place that may be written is not past the end of the address space. -/
theorem toNat_place {p : BitVec 32} {k : Nat} (hk : k < 4) (h : R.writable (p + BitVec.ofNat 32 k) = true) :
    (p + BitVec.ofNat 32 k).toNat = p.toNat + k := by
  rw [Runtime.writable, Bool.and_eq_true, Bool.not_eq_true', ← Bool.not_eq_true, BitVec.ult_iff_lt, BitVec.lt_def] at h
  have hp := p.isLt
  have h4 : (4#32).toNat = 4 := rfl
  have hsum : (p + BitVec.ofNat 32 k).toNat = (p.toNat + k) % 2 ^ 32 := by
    rw [BitVec.toNat_add, BitVec.toNat_ofNat, Nat.mod_eq_of_lt (a := k) (by omega)]
  omega

/-- Where a word may be patched. -/
structure Patchable (R : Runtime) (m : Mem) (c : Buf) (at_ : BitVec 32) : Prop where
  position : ((0#32).sle at_ && (at_ + 4).sle c.len) = true
  inside : (c.data + at_).toNat + 4 ≤ m.size
  writable : ∀ k < 4, R.writable (c.data + at_ + BitVec.ofNat 32 k) = true

/-- The bytes of a word, stored one by one. -/
def stored (m : Mem) (p : Nat) (v : BitVec 32) : Mem :=
  (List.range 4).foldl (fun m k => m.setByte (p + k) ((v >>> (8 * k)) &&& 255)) m

theorem byte_stored (m : Mem) (p : Nat) (v : BitVec 32) (x : Nat) : (stored m p v).byte x =
    if p ≤ x ∧ x < p + 4 then ((v >>> (8 * (x - p))) &&& 255).setWidth 8 else m.byte x := by
  have hrange : List.range 4 = [0, 1, 2, 3] := rfl
  rw [stored, hrange]
  simp only [List.foldl_cons, List.foldl_nil, Mem.byte_setByte]
  by_cases h : p ≤ x ∧ x < p + 4
  · rw [if_pos h]
    obtain ⟨k, rfl⟩ : ∃ k, x = p + k := ⟨x - p, by omega⟩
    have hk : k < 4 := by omega
    rw [Nat.add_sub_cancel_left]
    interval_cases k <;> simp
  · rw [if_neg h, if_neg (by omega), if_neg (by omega), if_neg (by omega), if_neg (by omega)]

theorem word32_stored (m : Mem) (p : Nat) (v : BitVec 32) : (stored m p v).word32 p = v := by
  have hread : (stored m p v).read p 4 = v.toNat % 256 ^ 4 := by
    refine Mem.read_of_bytes fun i hi => ?_
    rw [byte_stored, if_pos ⟨by omega, by omega⟩, Nat.add_sub_cancel_left, setWidth_and_255]
    apply BitVec.eq_of_toNat_eq
    rw [BitVec.toNat_setWidth, BitVec.toNat_ushiftRight, Nat.shiftRight_eq_div_pow, BitVec.toNat_ofNat, pow_mul]
    rfl
  rw [Mem.word32, hread, Nat.mod_eq_of_lt (show v.toNat < 256 ^ 4 from v.isLt), BitVec.ofNat_toNat, BitVec.setWidth_eq]

/-- A word that was stored. -/
theorem setWord_returns {v : BitVec 32} (h : setWord R m c at_ v = done m') :
    m' = stored m (c.data + at_).toNat v := by
  have hrange : List.range 4 = [0, 1, 2, 3] := rfl
  rw [setWord, hrange] at h
  obtain ⟨m₀, h₀, h⟩ := bind_eq_done h
  obtain ⟨m₁, h₁, h⟩ := bind_eq_done h
  obtain ⟨m₂, h₂, h⟩ := bind_eq_done h
  obtain ⟨m₃, h₃, h⟩ := bind_eq_done h
  obtain ⟨w₀, -, rfl⟩ := store8_eq_done.mp h₀
  obtain ⟨w₁, -, rfl⟩ := store8_eq_done.mp h₁
  obtain ⟨w₂, -, rfl⟩ := store8_eq_done.mp h₂
  obtain ⟨w₃, -, rfl⟩ := store8_eq_done.mp h₃
  rw [toNat_place (by decide) w₀, toNat_place (by decide) w₁, toNat_place (by decide) w₂, toNat_place (by decide) w₃] at h
  rw [stored, hrange]
  exact (Outcome.done.inj h).symm

theorem setWord_done (hp : Patchable R m c at_) (v : BitVec 32) :
    setWord R m c at_ v = done (stored m (c.data + at_).toNat v) := by
  have hstore : ∀ (k : Nat) (m' : Mem), k < 4 → m'.size = m.size → ∀ x,
      store8 R m' (c.data + at_ + BitVec.ofNat 32 k) x = done (m'.setByte ((c.data + at_).toNat + k) x) := by
    intro k m' hk hsize x
    have hplace := toNat_place hk (hp.writable k hk)
    have hinside := hp.inside
    exact store8_eq_done.mpr ⟨hp.writable k hk, by omega, by rw [hplace]⟩
  have hrange : List.range 4 = [0, 1, 2, 3] := rfl
  rw [setWord, stored, hrange, foldAll, hstore 0 m (by decide) rfl _, done_bind, foldAll,
    hstore 1 (m.setByte _ _) (by decide) rfl _, done_bind, foldAll, hstore 2 ((m.setByte _ _).setByte _ _) (by decide) rfl _,
    done_bind, foldAll, hstore 3 (((m.setByte _ _).setByte _ _).setByte _ _) (by decide) rfl _]
  rfl

/-- What a patch leaves: the word with its bits set, and every other byte. -/
structure Patched (m m' : Mem) (p : Nat) (keep bits : BitVec 32) : Prop where
  word : m'.word32 p = (m.word32 p &&& keep) ||| bits
  others : ∀ x, x < p ∨ p + 4 ≤ x → m'.byte x = m.byte x

theorem patched_stored (m : Mem) (p : Nat) :
    Patched m (stored m p ((m.word32 p &&& keep) ||| bits)) p keep bits where
  word := word32_stored _ _ _
  others x hx := by rw [byte_stored, if_neg (by omega)]

theorem patch_returns (h : patch R m c at_ keep bits = done m') : Patched m m' (c.data + at_).toNat keep bits := by
  obtain ⟨w, hw, h⟩ := bind_eq_done h
  obtain ⟨-, -, hw⟩ := bind_eq_done hw
  rw [load32] at hw
  split at hw
  · cases hw
    rw [setWord_returns h]
    exact patched_stored _ _
  · cases hw

theorem patch_done (hp : Patchable R m c at_) : ∃ m', patch R m c at_ keep bits = done m' := by
  have hword : wordAt m c at_ = done (m.word32 (c.data + at_).toNat) := by
    rw [wordAt, hp.position, load32, if_pos hp.inside]
    rfl
  rw [patch, hword, done_bind, setWord_done hp]
  exact ⟨_, rfl⟩

/-- Every bit but those of `field` is as it was. -/
def Unchanged (field : Nat → Prop) (m m' : Mem) (p : Nat) : Prop :=
  (∀ i < 32, ¬ field i → (m'.word32 p).getLsbD i = (m.word32 p).getLsbD i) ∧
    ∀ x, x < p ∨ p + 4 ≤ x → m'.byte x = m.byte x

theorem Patched.unchanged {p : Nat} {field : Nat → Prop} (h : Patched m m' p keep bits)
    (hfield : ∀ i < 32, ¬ field i → keep.getLsbD i = true ∧ bits.getLsbD i = false) : Unchanged field m m' p := by
  refine ⟨fun i hi hout => ?_, h.others⟩
  obtain ⟨hkeep, hbits⟩ := hfield i hi hout
  rw [h.word, BitVec.getLsbD_or, BitVec.getLsbD_and, hkeep, hbits, Bool.and_true, Bool.or_false]

/-- A field that is not kept. -/
theorem Patched.extract {p s l : Nat} (h : Patched m m' p keep bits) (hkeep : keep.extractLsb' s l = 0#l) :
    (m'.word32 p).extractLsb' s l = bits.extractLsb' s l := by
  have hand : (m.word32 p &&& keep).extractLsb' s l = 0#l := by
    apply BitVec.eq_of_getLsbD_eq
    intro i hi
    have hbit := congrArg (fun z : BitVec l => z.getLsbD i) hkeep
    rw [BitVec.getLsbD_extractLsb', BitVec.getLsbD_zero, decide_eq_true hi, Bool.true_and] at hbit
    rw [BitVec.getLsbD_extractLsb', BitVec.getLsbD_and, hbit, BitVec.getLsbD_zero, Bool.and_false, Bool.and_false]
  rw [h.word, BitVec.extractLsb'_or, hand, BitVec.zero_or]

/-! #### The offsets -/

theorem mask_setWidth {l : Nat} (x : BitVec 32) (hl : l ≤ 32) :
    (x &&& BitVec.ofNat 32 (2 ^ l - 1)).setWidth l = x.setWidth l := by
  have hpow : 2 ^ l ≤ 2 ^ 32 := Nat.pow_le_pow_right (by decide) hl
  have hpos := Nat.two_pow_pos l
  apply BitVec.eq_of_toNat_eq
  rw [BitVec.toNat_setWidth, BitVec.toNat_setWidth, BitVec.toNat_and, BitVec.toNat_ofNat,
    Nat.mod_eq_of_lt (by omega : 2 ^ l - 1 < 2 ^ 32), Nat.and_two_pow_sub_one_eq_mod, Nat.mod_mod]

/-- A difference that four divides, by its quarter. -/
theorem quarter {d : BitVec 32} (h : d.srem 4 = 0) : 4 * (d.sdiv 4).toInt = d.toInt := by
  have hdiv : (d.sdiv 4).toInt = d.toInt.tdiv 4 := BitVec.toInt_sdiv_of_ne_or_ne d 4 (.inr (by decide))
  have hrem : d.toInt.tmod 4 = 0 := by
    have := congrArg BitVec.toInt h
    rwa [BitVec.toInt_srem] at this
  have hsplit := Int.mul_tdiv_add_tmod d.toInt 4
  rw [hdiv]
  omega

theorem srem_of_dvd {d : BitVec 32} (h : 4 ∣ d.toInt) : d.srem 4 = 0 := by
  apply BitVec.eq_of_toInt_eq
  rw [BitVec.toInt_srem]
  exact Int.tmod_eq_zero_of_dvd h

theorem require_eq_done {b : Bool} : require b = done () ↔ b = true := by cases b <;> simp [require]

theorem between_iff {d lo hi : BitVec 32} : (lo.sle d && d.sle hi) = true ↔ lo.toInt ≤ d.toInt ∧ d.toInt ≤ hi.toInt := by
  rw [Bool.and_eq_true, BitVec.sle_iff_toInt_le, BitVec.sle_iff_toInt_le]

/-- The bits of `imm26`. -/
def branchField (i : Nat) : Prop := i < 26

/-- The bits of `imm19`. -/
def condField (i : Nat) : Prop := 5 ≤ i ∧ i < 24

/-- The bits of `immhi` and `immlo`. -/
def adrField (i : Nat) : Prop := condField i ∨ i = 29 ∨ i = 30

instance : DecidablePred branchField := fun i => inferInstanceAs (Decidable (i < 26))

instance : DecidablePred condField := fun i => inferInstanceAs (Decidable (5 ≤ i ∧ i < 24))

instance : DecidablePred adrField := fun i => inferInstanceAs (Decidable (condField i ∨ i = 29 ∨ i = 30))

theorem patchB_returns (h : patchB R m c at_ target = done m') :
    branchOffset (m'.word32 (c.data + at_).toNat) = (target - at_).toInt ∧
      Unchanged branchField m m' (c.data + at_).toNat := by
  obtain ⟨_, halign, h⟩ := bind_eq_done h
  obtain ⟨_, hrange, h⟩ := bind_eq_done h
  have hquarter := quarter (beq_iff_eq.mp (require_eq_done.mp halign))
  have hbounds := between_iff.mp (require_eq_done.mp hrange)
  have hp := patch_returns h
  have hmask := mask_setWidth (l := 26) ((target - at_).sdiv 4) (by decide)
  refine ⟨?_, hp.unchanged fun i hi hout => ⟨?_, ?_⟩⟩
  · have hoff := Wasm.toInt_setWidth_of_inRange (l := 26) (by decide) (by decide) ⟨hbounds.1, Int.lt_add_one_of_le hbounds.2⟩
    rw [branchOffset, hp.extract (by decide), ← BitVec.setWidth_eq_extractLsb' (by decide), ← hquarter, ← hoff, ← hmask]
    rfl
  · have hkeep : ∀ i < 32, ¬ branchField i → (-67108864 : BitVec 32).getLsbD i = true := by decide
    exact hkeep i hi hout
  · have hbits : ∀ i < 32, ¬ branchField i → (67108863 : BitVec 32).getLsbD i = false := by decide
    rw [BitVec.getLsbD_and, hbits i hi hout, Bool.and_false]

theorem patchCond_returns (h : patchCond R m c at_ target = done m') :
    condOffset (m'.word32 (c.data + at_).toNat) = (target - at_).toInt ∧
      Unchanged condField m m' (c.data + at_).toNat := by
  obtain ⟨_, halign, h⟩ := bind_eq_done h
  obtain ⟨_, hrange, h⟩ := bind_eq_done h
  have hquarter := quarter (beq_iff_eq.mp (require_eq_done.mp halign))
  have hbounds := between_iff.mp (require_eq_done.mp hrange)
  have hp := patch_returns h
  have hmask := mask_setWidth (l := 19) ((target - at_).sdiv 4) (by decide)
  refine ⟨?_, hp.unchanged fun i hi hout => ⟨?_, ?_⟩⟩
  · have hoff := Wasm.toInt_setWidth_of_inRange (l := 19) (by decide) (by decide) ⟨hbounds.1, Int.lt_add_one_of_le hbounds.2⟩
    rw [condOffset, hp.extract (by decide), extract_shl _ (by decide), ← hquarter, ← hoff, ← hmask]
    rfl
  · have hkeep : ∀ i < 32, ¬ condField i → (-16777185 : BitVec 32).getLsbD i = true := by decide
    exact hkeep i hi hout
  · have hbits : ∀ i < 32, ¬ condField i → ¬ i < 5 → (524287 : BitVec 32).getLsbD (i - 5) = false := by decide
    rw [BitVec.getLsbD_shiftLeft, BitVec.getLsbD_and]
    by_cases hlow : i < 5
    · rw [decide_eq_true hlow, Bool.not_true, Bool.and_false, Bool.false_and]
    · rw [hbits i hi hout hlow, Bool.and_false, Bool.and_false]

/-- The two parts of an offset of 21 bits. -/
theorem append_parts (off : BitVec 32) : ((off >>> 2).setWidth 19 ++ off.setWidth 2 : BitVec 21) = off.setWidth 21 := by
  apply BitVec.eq_of_getLsbD_eq
  intro i hi
  rw [BitVec.getLsbD_append, BitVec.getLsbD_setWidth, BitVec.getLsbD_setWidth, BitVec.getLsbD_setWidth,
    BitVec.getLsbD_ushiftRight, decide_eq_true hi]
  by_cases hlow : i < 2
  · rw [if_pos hlow, decide_eq_true hlow]
  · rw [if_neg hlow, decide_eq_true (by omega), Nat.add_sub_cancel' (by omega)]

theorem patchAdr_returns (h : patchAdr R m c at_ target = done m') :
    adrOffset (m'.word32 (c.data + at_).toNat) = (target - at_).toInt ∧
      Unchanged adrField m m' (c.data + at_).toNat := by
  obtain ⟨_, hrange, h⟩ := bind_eq_done h
  have hbounds := between_iff.mp (require_eq_done.mp hrange)
  have hp := patch_returns h
  have himm := mask_setWidth (l := 19) ((target - at_) >>> 2) (by decide)
  have himmlo := mask_setWidth (l := 2) (target - at_) (by decide)
  have hlow19 : (((target - at_) >>> 2) &&& 524287).toNat < 2 ^ 19 := by
    rw [BitVec.toNat_and]
    exact Nat.lt_of_le_of_lt Nat.and_le_right (by decide)
  refine ⟨?_, hp.unchanged fun i hi hout => ⟨?_, ?_⟩⟩
  · have hoff := Wasm.toInt_setWidth_of_inRange (l := 21) (by decide) (by decide) ⟨hbounds.1, Int.lt_add_one_of_le hbounds.2⟩
    rw [adrOffset, hp.extract (by decide), hp.extract (by decide), BitVec.extractLsb'_or, BitVec.extractLsb'_or,
      extract_shl_below (by decide), extract_shl _ (by decide), extract_shl _ (by decide),
      extract_shl_above hlow19 (by decide), BitVec.zero_or, BitVec.or_zero, ← hoff, ← append_parts, ← himm, ← himmlo]
    rfl
  · have hkeep : ∀ i < 32, ¬ adrField i → (-1627389921 : BitVec 32).getLsbD i = true := by decide
    exact hkeep i hi hout
  · have hhi : ∀ i < 32, ¬ adrField i → ¬ i < 5 → (524287 : BitVec 32).getLsbD (i - 5) = false := by decide
    have hlo : ∀ i < 32, ¬ adrField i → ¬ i < 29 → (3 : BitVec 32).getLsbD (i - 29) = false := by decide
    rw [BitVec.getLsbD_or, BitVec.getLsbD_shiftLeft, BitVec.getLsbD_shiftLeft, BitVec.getLsbD_and, BitVec.getLsbD_and]
    by_cases h5 : i < 5
    · rw [decide_eq_true h5, decide_eq_true (by omega : i < 29)]
      simp
    · rw [hhi i hi hout h5]
      by_cases h29 : i < 29
      · rw [decide_eq_true h29]
        simp
      · rw [hlo i hi hout h29]
        simp

/-! #### The ranges -/

theorem patchB_done (hp : Patchable R m c at_) (halign : 4 ∣ (target - at_).toInt)
    (hrange : -2 ^ 27 ≤ (target - at_).toInt ∧ (target - at_).toInt < 2 ^ 27) : ∃ m', patchB R m c at_ target = done m' := by
  have hsrem := srem_of_dvd halign
  have hquarter := quarter hsrem
  have hbetween : ((-33554432#32).sle ((target - at_).sdiv 4) && ((target - at_).sdiv 4).sle 33554431) = true :=
    between_iff.mpr ⟨by rw [show (-33554432#32).toInt = -33554432 by decide]; omega,
      by rw [show (33554431 : BitVec 32).toInt = 33554431 by decide]; omega⟩
  rw [patchB, hbetween, hsrem]
  exact patch_done hp

theorem patchCond_done (hp : Patchable R m c at_) (halign : 4 ∣ (target - at_).toInt)
    (hrange : -2 ^ 20 ≤ (target - at_).toInt ∧ (target - at_).toInt < 2 ^ 20) :
    ∃ m', patchCond R m c at_ target = done m' := by
  have hsrem := srem_of_dvd halign
  have hquarter := quarter hsrem
  have hbetween : ((-262144#32).sle ((target - at_).sdiv 4) && ((target - at_).sdiv 4).sle 262143) = true :=
    between_iff.mpr ⟨by rw [show (-262144#32).toInt = -262144 by decide]; omega,
      by rw [show (262143 : BitVec 32).toInt = 262143 by decide]; omega⟩
  rw [patchCond, hbetween, hsrem]
  exact patch_done hp

theorem patchAdr_done (hp : Patchable R m c at_)
    (hrange : -2 ^ 20 ≤ (target - at_).toInt ∧ (target - at_).toInt < 2 ^ 20) :
    ∃ m', patchAdr R m c at_ target = done m' := by
  have hbetween : ((-1048576#32).sle (target - at_) && (target - at_).sle 1048575) = true :=
    between_iff.mpr ⟨by rw [show (-1048576#32).toInt = -1048576 by decide]; omega,
      by rw [show (1048575 : BitVec 32).toInt = 1048575 by decide]; omega⟩
  rw [patchAdr, hbetween]
  exact patch_done hp

end Patch

/-- **Immediates mean their values.**  Of the constants: what `mov_imm` appends is the words of instructions that leave
the constant in a register other than number 31, and none fewer of that size do.  Of the others: there is a field
exactly where one decodes to the value, and that one.  Of the patches: what they accept, the offset they set is the
distance, and the other bits stay. -/
theorem immediates_mean :
    (∀ (σ : Type) (A : Allocator σ) (fuel : Nat) (c : Content σ) (b : Bool) (rd : BitVec 5) (v : BitVec 64),
      movImm A fuel c (size b) (rd.setWidth 32) v = pushAll A fuel c (code (plan b rd v)) ∧
      (∀ i ∈ plan b rd v, MoveWide.decode (encode i) = some i) ∧
      (rd ≠ 31#5 → ∀ regs, steps (plan b rd v) regs = Function.update regs rd (target b v)) ∧
      ∀ l : List MoveWide, (∀ i ∈ l, i.is64 = b) → (∀ regs, steps l regs rd = target b v) →
        (plan b rd v).length ≤ l.length) ∧
    (∀ (b : Bool) (v : BitVec 64), (logicImmField (size b) v ≠ -1 ↔ IsRotatedRun (operand b v)) ∧
      (logicImmField (size b) v ≠ -1 → decodeField b (logicImmField (size b) v) = some (operand b v) ∧
        (logicImmField (size b) v).toNat < 2 ^ 13)) ∧
    (∀ v : BitVec 64, (∀ imm8, fpImm8 1 v = imm8.setWidth 32 ↔ vfpExpandImm 11 52 imm8 = v) ∧
      ((¬ ∃ imm8, vfpExpandImm 11 52 imm8 = v) → fpImm8 1 v = -1)) ∧
    (∀ v : BitVec 64, (∀ imm8, fpImm8 0 v = imm8.setWidth 32 ↔ vfpExpandImm 8 23 imm8 = v.setWidth 32) ∧
      ((¬ ∃ imm8, vfpExpandImm 8 23 imm8 = v.setWidth 32) → fpImm8 0 v = -1)) ∧
    ∀ (R : Runtime) (m : Mem) (c : Buf) (at_ target : BitVec 32),
      (∀ m', patchB R m c at_ target = done m' → branchOffset (m'.word32 (c.data + at_).toNat) = (target - at_).toInt ∧
        Unchanged branchField m m' (c.data + at_).toNat) ∧
      (∀ m', patchCond R m c at_ target = done m' → condOffset (m'.word32 (c.data + at_).toNat) = (target - at_).toInt ∧
        Unchanged condField m m' (c.data + at_).toNat) ∧
      (∀ m', patchAdr R m c at_ target = done m' → adrOffset (m'.word32 (c.data + at_).toNat) = (target - at_).toInt ∧
        Unchanged adrField m m' (c.data + at_).toNat) ∧
      (Patchable R m c at_ →
        (4 ∣ (target - at_).toInt → -2 ^ 27 ≤ (target - at_).toInt ∧ (target - at_).toInt < 2 ^ 27 →
          ∃ m', patchB R m c at_ target = done m') ∧
        (4 ∣ (target - at_).toInt → -2 ^ 20 ≤ (target - at_).toInt ∧ (target - at_).toInt < 2 ^ 20 →
          ∃ m', patchCond R m c at_ target = done m') ∧
        (-2 ^ 20 ≤ (target - at_).toInt ∧ (target - at_).toInt < 2 ^ 20 → ∃ m', patchAdr R m c at_ target = done m')) := by
  refine ⟨fun σ A fuel c b rd v => ⟨?_, ?_, ?_, ?_⟩, logicImmField_spec, fpImm8_double, fpImm8_single (by decide),
    fun R m c at_ target => ⟨fun m' => patchB_returns, fun m' => patchCond_returns, fun m' => patchAdr_returns,
      fun hp => ⟨patchB_done hp, patchCond_done hp, patchAdr_done hp⟩⟩⟩
  · exact movImm_eq c b rd v
  · exact fun i hi => decode_encode i (plan_hw i hi)
  · exact fun hrd regs => steps_plan hrd b v regs
  · exact fun l hsize hl => length_plan_le hsize hl

end Aipl.Arm64
