import Aipl.Lib.Wasm.Ints
import Mathlib.Data.Finset.Card
import Mathlib.Logic.Function.Basic

/-! # Library — immediates of the A64 instruction set

What the immediate fields of instruction words mean, as the architecture's manual decodes them.  Nothing here names
a program.

* `MoveWide.decode`, `MoveWide.step` — `movz`, `movn` and `movk`; `steps_le` — how few of them there can be.
* `decodeBitMasks` — the immediates of logical instructions.
* `vfpExpandImm` — those of `fmov`.
* `branchOffset`, `condOffset`, `adrOffset` — offsets from the instruction.
* `extract_shl`, `extract_shl_above`, … — the fields of a word put together by shifts.
-/

namespace Aipl.Lib.Arm64

/-! ### Fields -/

section Fields

variable {w : Nat} (x : BitVec w) {s l n k : Nat}

/-- A field that starts where the value was shifted to. -/
theorem extract_shl (h : n + l ≤ w) : (x <<< n).extractLsb' n l = x.setWidth l := by
  ext i hi
  simp only [BitVec.getElem_extractLsb', BitVec.getElem_setWidth, BitVec.getLsbD_shiftLeft]
  rw [decide_eq_true (by omega), decide_eq_false (by omega), Nat.add_sub_cancel_left]
  rfl

variable {x}

/-- A field above the value. -/
theorem extract_shl_above (hx : x.toNat < 2 ^ k) (h : n + k ≤ s) : (x <<< n).extractLsb' s l = 0#l := by
  ext i
  simp only [BitVec.getElem_extractLsb', BitVec.getLsbD_shiftLeft, BitVec.getElem_zero]
  have hbit : x.getLsbD (s + i - n) = false :=
    Nat.testBit_lt_two_pow (hx.trans_le (Nat.pow_le_pow_right (by decide) (by omega)))
  rw [hbit, Bool.and_false]

/-- A field below it. -/
theorem extract_shl_below (h : s + l ≤ n) : (x <<< n).extractLsb' s l = 0#l := by
  ext i hi
  simp only [BitVec.getElem_extractLsb', BitVec.getLsbD_shiftLeft, BitVec.getElem_zero]
  rw [decide_eq_true (by omega : s + i < n)]
  simp

end Fields

/-! ### Move wide -/

inductive WideOp where
  | movn
  | movz
  | movk
deriving DecidableEq

/-- A `movn`, `movz` or `movk` of 64 bits or of 32, with the halfword it names. -/
structure MoveWide where
  is64 : Bool
  op : WideOp
  hw : BitVec 2
  imm16 : BitVec 16
  rd : BitVec 5
deriving DecidableEq

/-- The halfwords of a size. -/
def halves (is64 : Bool) : Nat := if is64 then 4 else 2

/-- `sf opc 100101 hw imm16 rd`. -/
def MoveWide.decode (w : BitVec 32) : Option MoveWide :=
  let is64 := w.getLsbD 31
  let hw := w.extractLsb' 21 2
  if w.extractLsb' 23 6 = 0b100101#6 ∧ hw.toNat < halves is64 then
    match (w.extractLsb' 29 2).toNat with
    | 0 => some ⟨is64, .movn, hw, w.extractLsb' 5 16, w.extractLsb' 0 5⟩
    | 2 => some ⟨is64, .movz, hw, w.extractLsb' 5 16, w.extractLsb' 0 5⟩
    | 3 => some ⟨is64, .movk, hw, w.extractLsb' 5 16, w.extractLsb' 0 5⟩
    | _ => none
  else none

/-- What the destination holds, if it held `x`.  A result of 32 bits clears the upper half. -/
def MoveWide.value (i : MoveWide) (x : BitVec 64) : BitVec 64 :=
  let pos := 16 * i.hw.toNat
  let base := if i.op = .movk then x else 0#64
  let placed := (base &&& ~~~(0xffff#64 <<< pos)) ||| (i.imm16.setWidth 64 <<< pos)
  let result := if i.op = .movn then ~~~placed else placed
  if i.is64 then result else (result.setWidth 32).setWidth 64

/-- The general registers; a write to number 31 is lost. -/
def MoveWide.step (i : MoveWide) (regs : BitVec 5 → BitVec 64) : BitVec 5 → BitVec 64 :=
  if i.rd = 31#5 then regs else Function.update regs i.rd (i.value (regs i.rd))

def steps (l : List MoveWide) (regs : BitVec 5 → BitVec 64) : BitVec 5 → BitVec 64 :=
  l.foldl (fun regs i => i.step regs) regs

/-- A halfword of a value. -/
def halfword (x : BitVec 64) (k : Nat) : BitVec 16 := x.extractLsb' (16 * k) 16

theorem getLsbD_halfword (x : BitVec 64) (k : Nat) {i : Nat} (hi : i < 16) :
    (halfword x k).getLsbD i = x.getLsbD (16 * k + i) := by
  rw [halfword, BitVec.getLsbD_extractLsb', decide_eq_true hi, Bool.true_and]

theorem eq_of_halfwords {x y : BitVec 64} (h : ∀ k < 4, halfword x k = halfword y k) : x = y := by
  apply BitVec.eq_of_getLsbD_eq
  intro i hi
  have hk := congrArg (fun z : BitVec 16 => z.getLsbD (i % 16)) (h (i / 16) (by omega))
  rwa [getLsbD_halfword _ _ (by omega), getLsbD_halfword _ _ (by omega), Nat.div_add_mod] at hk

/-- The halfwords of a value with one of them replaced. -/
theorem halfword_placed (x : BitVec 64) (h : BitVec 16) {p k : Nat} (hk : k < 4) :
    halfword ((x &&& ~~~(0xffff#64 <<< (16 * p))) ||| (h.setWidth 64 <<< (16 * p))) k =
      if k = p then h else halfword x k := by
  have hones : ∀ j, (0xffff#64).getLsbD j = decide (j < 16) := fun j => by
    rw [show (0xffff#64) = (BitVec.allOnes 16).setWidth 64 by rfl, BitVec.getLsbD_setWidth, BitVec.getLsbD_allOnes]
    by_cases hj : j < 16
    · rw [decide_eq_true (by omega), decide_eq_true hj]; rfl
    · rw [decide_eq_false hj, Bool.and_false]
  apply BitVec.eq_of_getLsbD_eq
  intro i hi
  rw [getLsbD_halfword _ _ hi]
  simp only [BitVec.getLsbD_or, BitVec.getLsbD_and, BitVec.getLsbD_not, BitVec.getLsbD_shiftLeft,
    BitVec.getLsbD_setWidth, hones]
  rw [decide_eq_true (by omega : 16 * k + i < 64)]
  rcases Nat.lt_trichotomy k p with hlt | rfl | hgt
  · rw [if_neg (by omega), decide_eq_true (by omega : 16 * k + i < 16 * p), getLsbD_halfword _ _ hi]
    simp
  · rw [if_pos rfl, decide_eq_false (by omega : ¬ 16 * k + i < 16 * k), Nat.add_sub_cancel_left, decide_eq_true hi,
      decide_eq_true (by omega : i < 64)]
    simp
  · rw [if_neg (by omega), decide_eq_false (by omega : ¬ 16 * k + i < 16 * p),
      decide_eq_false (by omega : ¬ 16 * k + i - 16 * p < 16), BitVec.getLsbD_of_ge h _ (by omega),
      getLsbD_halfword _ _ hi]
    simp

theorem halfword_not (x : BitVec 64) {k : Nat} (hk : k < 4) : halfword (~~~x) k = ~~~halfword x k := by
  apply BitVec.eq_of_getLsbD_eq
  intro i hi
  rw [getLsbD_halfword _ _ hi, BitVec.getLsbD_not, BitVec.getLsbD_not, getLsbD_halfword _ _ hi,
    decide_eq_true (by omega), decide_eq_true hi]

theorem halfword_low (x : BitVec 64) {k : Nat} (hk : k < 4) :
    halfword ((x.setWidth 32).setWidth 64) k = if k < 2 then halfword x k else 0#16 := by
  apply BitVec.eq_of_getLsbD_eq
  intro i hi
  rw [getLsbD_halfword _ _ hi, BitVec.getLsbD_setWidth, BitVec.getLsbD_setWidth, decide_eq_true (by omega), Bool.true_and]
  split
  · rw [decide_eq_true (by omega), Bool.true_and, getLsbD_halfword _ _ hi]
  · rw [decide_eq_false (by omega), Bool.false_and, BitVec.getLsbD_zero]

@[simp] theorem halfword_zero (k : Nat) : halfword 0#64 k = 0#16 := by
  rw [halfword, BitVec.extractLsb'_zero]

/-- The halfwords an instruction leaves. -/
def MoveWide.half (i : MoveWide) (x : BitVec 64) (k : Nat) : BitVec 16 :=
  match i.op with
  | .movn => if k = i.hw.toNat then ~~~i.imm16 else BitVec.allOnes 16
  | .movz => if k = i.hw.toNat then i.imm16 else 0#16
  | .movk => if k = i.hw.toNat then i.imm16 else halfword x k

theorem MoveWide.halfword_value (i : MoveWide) (x : BitVec 64) {k : Nat} (hk : k < 4) :
    halfword (i.value x) k = if k < halves i.is64 then i.half x k else 0#16 := by
  have hresult : ∀ y : BitVec 64, halfword (if i.is64 then y else (y.setWidth 32).setWidth 64) k =
      if k < halves i.is64 then halfword y k else 0#16 := by
    intro y
    cases i.is64 with
    | true => rw [if_pos rfl, if_pos (show k < halves true from hk)]
    | false => exact halfword_low y hk
  rw [value, hresult]
  congr 1
  cases hop : i.op with
  | movn => 
    rw [if_pos rfl, if_neg (by decide), halfword_not _ hk, halfword_placed _ _ hk, half, hop]
    dsimp only
    split
    · rfl
    · rw [halfword_zero]; rfl
  | movz =>
    rw [if_neg (by decide), if_neg (by decide), halfword_placed _ _ hk, half, hop, halfword_zero]
  | movk =>
    rw [if_neg (by decide), if_pos rfl, halfword_placed _ _ hk, half, hop]

/-! #### How few instructions -/

/-- The places below `n` where the halfwords are not those of `f`. -/
def differs (n : Nat) (x : BitVec 64) (f : Nat → BitVec 16) : Finset Nat := {k ∈ Finset.range n | halfword x k ≠ f k}

/-- What a register can hold after some instructions: few halfwords that are not a fill, or few that have changed. -/
def Near (n len : Nat) (x y : BitVec 64) : Prop :=
  (1 ≤ len ∧ (differs n y fun _ => 0#16).card ≤ len) ∨
  (1 ≤ len ∧ (differs n y fun _ => BitVec.allOnes 16).card ≤ len) ∨
  (differs n y (halfword x)).card ≤ len

theorem card_differs_le {n : Nat} {y y' : BitVec 64} {f : Nat → BitVec 16} {p : Nat}
    (h : ∀ k < n, k ≠ p → halfword y' k = halfword y k) : (differs n y' f).card ≤ (differs n y f).card + 1 := by
  refine (Finset.card_le_card (t := insert p (differs n y f)) fun k hk => ?_).trans (Finset.card_insert_le _ _)
  obtain ⟨hkn, hne⟩ := Finset.mem_filter.mp hk
  by_cases hkp : k = p
  · exact Finset.mem_insert.mpr (.inl hkp)
  · rw [h k (Finset.mem_range.mp hkn) hkp] at hne
    exact Finset.mem_insert.mpr (.inr (Finset.mem_filter.mpr ⟨hkn, hne⟩))

theorem card_differs_le_one {n : Nat} {y : BitVec 64} {f : Nat → BitVec 16} {p : Nat}
    (h : ∀ k < n, k ≠ p → halfword y k = f k) : (differs n y f).card ≤ 1 := by
  refine Finset.card_le_one.mpr fun a ha b hb => ?_
  have hall : ∀ k ∈ differs n y f, k = p := fun k hk => by
    obtain ⟨hkn, hne⟩ := Finset.mem_filter.mp hk
    by_contra hkp
    exact hne (h k (Finset.mem_range.mp hkn) hkp)
  rw [hall a ha, hall b hb]

theorem Near.mono {n len len' : Nat} {x y : BitVec 64} (h : Near n len x y) (hle : len ≤ len') : Near n len' x y := by
  rcases h with ⟨h1, h⟩ | ⟨h1, h⟩ | h
  · exact .inl ⟨h1.trans hle, h.trans hle⟩
  · exact .inr (.inl ⟨h1.trans hle, h.trans hle⟩)
  · exact .inr (.inr (h.trans hle))

/-- One more instruction. -/
theorem Near.step {len : Nat} {x y : BitVec 64} {i : MoveWide} (h : Near (halves i.is64) len x y) :
    Near (halves i.is64) (len + 1) x (i.value y) := by
  have hlt : ∀ k, k < halves i.is64 → k < 4 := fun k hk => by
    have : halves i.is64 ≤ 4 := by cases i.is64 <;> decide
    omega
  have hval : ∀ k < halves i.is64, halfword (i.value y) k = i.half y k := fun k hk => by
    rw [i.halfword_value y (hlt k hk), if_pos hk]
  cases hop : i.op with
  | movn =>
    refine .inr (.inl ⟨by omega, (card_differs_le_one (p := i.hw.toNat) fun k hk hkp => ?_).trans (by omega)⟩)
    rw [hval k hk, MoveWide.half, hop]
    exact if_neg hkp
  | movz =>
    refine .inl ⟨by omega, (card_differs_le_one (p := i.hw.toNat) fun k hk hkp => ?_).trans (by omega)⟩
    rw [hval k hk, MoveWide.half, hop]
    exact if_neg hkp
  | movk =>
    have hkeep : ∀ k < halves i.is64, k ≠ i.hw.toNat → halfword (i.value y) k = halfword y k := fun k hk hkp => by
      rw [hval k hk, MoveWide.half, hop]
      exact if_neg hkp
    rcases h with ⟨h1, h⟩ | ⟨h1, h⟩ | h
    · exact .inl ⟨by omega, (card_differs_le hkeep).trans (by omega)⟩
    · exact .inr (.inl ⟨by omega, (card_differs_le hkeep).trans (by omega)⟩)
    · exact .inr (.inr ((card_differs_le hkeep).trans (by omega)))

theorem near_steps {is64 : Bool} {regs : BitVec 5 → BitVec 64} {rd : BitVec 5} : ∀ {l : List MoveWide},
    (∀ i ∈ l, i.is64 = is64) → Near (halves is64) l.length (regs rd) (steps l regs rd) := by
  intro l
  induction l using List.reverseRecOn with
  | nil => exact fun _ => .inr (.inr (by simp [differs, steps]))
  | append_singleton l i ih =>
    intro hsize
    have hprev := ih fun i hi => hsize i (List.mem_append_left _ hi)
    have hi : i.is64 = is64 := hsize i (by simp)
    rw [steps, List.foldl_append, List.length_append, List.length_singleton]
    change Near _ _ _ (i.step (steps l regs) rd)
    rw [MoveWide.step]
    split
    · exact hprev.mono (Nat.le_succ _)
    · by_cases hrd : i.rd = rd
      · subst hrd
        rw [Function.update_self, ← hi]
        rw [← hi] at hprev
        exact hprev.step
      · rw [Function.update_of_ne (Ne.symm hrd)]
        exact hprev.mono (Nat.le_succ _)

/-- **How few there can be.**  Instructions that leave a value whatever the register held are no fewer than its
halfwords that are not 0, or than those that are not all ones; and there is one. -/
theorem le_length_of_steps {is64 : Bool} {l : List MoveWide} {rd : BitVec 5} {v : BitVec 64}
    (hsize : ∀ i ∈ l, i.is64 = is64) (hl : ∀ regs, steps l regs rd = v) :
    1 ≤ l.length ∧ ((differs (halves is64) v fun _ => 0#16).card ≤ l.length ∨
      (differs (halves is64) v fun _ => BitVec.allOnes 16).card ≤ l.length) := by
  have hnear : Near (halves is64) l.length (~~~v) (steps l (fun _ => ~~~v) rd) := near_steps hsize
  rw [hl] at hnear
  rcases hnear with ⟨h1, h⟩ | ⟨h1, h⟩ | h
  · exact ⟨h1, .inl h⟩
  · exact ⟨h1, .inr h⟩
  · -- every halfword was written
    have hall : differs (halves is64) v (halfword (~~~v)) = Finset.range (halves is64) := by
      refine Finset.filter_true_of_mem fun k hk => ?_
      have hk4 : k < 4 := by
        have : halves is64 ≤ 4 := by cases is64 <;> decide
        have := Finset.mem_range.mp hk
        omega
      rw [halfword_not _ hk4]
      intro heq
      have hbit := congrArg (fun z : BitVec 16 => z.getLsbD 0) heq
      rw [BitVec.getLsbD_not, decide_eq_true (by decide), Bool.true_and] at hbit
      exact Bool.self_ne_not _ hbit
    rw [hall, Finset.card_range] at h
    have hpos : 1 ≤ halves is64 := by cases is64 <;> decide
    refine ⟨hpos.trans h, .inl ((Finset.card_le_card (Finset.filter_subset _ _)).trans ?_)⟩
    rwa [Finset.card_range]

/-! ### Bitmask immediates -/

/-- The lowest `n` bits. -/
def ones (M n : Nat) : BitVec M := (BitVec.allOnes n).setWidth M

/-- `Replicate(ROR(Ones(S + 1), R))`, of elements of `2 ^ len` bits. -/
def wmask (M len S R : Nat) : BitVec M :=
  (((ones (2 ^ len) (S + 1)).rotateRight R).replicate (M / 2 ^ len)).setWidth M

/-- `DecodeBitMasks` for an immediate of `M` bits: the mask of a logical instruction, where there is one. -/
def decodeBitMasks (M : Nat) (immN : BitVec 1) (imms immr : BitVec 6) : Option (BitVec M) :=
  let len := (immN ++ ~~~imms).toNat.log2
  let levels := 2 ^ len - 1
  if len < 1 ∨ imms.toNat &&& levels = levels ∨ M < 2 ^ len then none
  else some (wmask M len (imms.toNat &&& levels) (immr.toNat &&& levels))

theorem log2_64 : ∀ imms : BitVec 6, (1#1 ++ ~~~imms).toNat.log2 = 6 := by decide

theorem log2_32 : ∀ imms : BitVec 6, imms.toNat < 32 → (0#1 ++ ~~~imms).toNat.log2 = 5 := by decide

/-- An element of the whole width is not repeated. -/
theorem wmask_whole (len S R : Nat) : wmask (2 ^ len) len S R = (ones (2 ^ len) (S + 1)).rotateRight R := by
  apply BitVec.eq_of_getLsbD_eq
  intro i hi
  rw [wmask, BitVec.getLsbD_setWidth, BitVec.getLsbD_replicate, Nat.div_self (Nat.two_pow_pos len), Nat.mul_one,
    decide_eq_true hi, Bool.true_and, Bool.true_and, Nat.mod_eq_of_lt hi]

theorem decodeBitMasks_64 {n r : Nat} (hn : n < 63) (hr : r < 64) :
    decodeBitMasks 64 1#1 (BitVec.ofNat 6 n) (BitVec.ofNat 6 r) = some ((ones 64 (n + 1)).rotateRight r) := by
  have hS : (BitVec.ofNat 6 n).toNat &&& 2 ^ 6 - 1 = n := by
    rw [Nat.and_two_pow_sub_one_eq_mod, BitVec.toNat_ofNat]
    omega
  have hR : (BitVec.ofNat 6 r).toNat &&& 2 ^ 6 - 1 = r := by
    rw [Nat.and_two_pow_sub_one_eq_mod, BitVec.toNat_ofNat]
    omega
  rw [decodeBitMasks]
  rw [log2_64, hS, hR, if_neg (by omega)]
  exact congrArg some (wmask_whole 6 n r)

theorem decodeBitMasks_32 {n r : Nat} (hn : n < 31) (hr : r < 32) :
    decodeBitMasks 32 0#1 (BitVec.ofNat 6 n) (BitVec.ofNat 6 r) = some ((ones 32 (n + 1)).rotateRight r) := by
  have hS : (BitVec.ofNat 6 n).toNat &&& 2 ^ 5 - 1 = n := by
    rw [Nat.and_two_pow_sub_one_eq_mod, BitVec.toNat_ofNat]
    omega
  have hR : (BitVec.ofNat 6 r).toNat &&& 2 ^ 5 - 1 = r := by
    rw [Nat.and_two_pow_sub_one_eq_mod, BitVec.toNat_ofNat]
    omega
  have hlen := log2_32 (BitVec.ofNat 6 n) (by rw [BitVec.toNat_ofNat]; omega)
  rw [decodeBitMasks]
  rw [hlen, hS, hR, if_neg (by omega)]
  exact congrArg some (wmask_whole 5 n r)

theorem getLsbD_ones {M n i : Nat} (hi : i < M) : (ones M n).getLsbD i = decide (i < n) := by
  rw [ones, BitVec.getLsbD_setWidth, BitVec.getLsbD_allOnes, decide_eq_true hi, Bool.true_and]

theorem countP_range_add (a b : Nat) (p : Nat → Bool) : (List.range (a + b)).countP p =
    (List.range a).countP p + (List.range b).countP fun i => p (a + i) := by
  rw [List.range_add, List.countP_append, List.countP_map]
  rfl

theorem getLsbD_rotl {M : Nat} (x : BitVec M) {r : Nat} (hr : r < M) (i : Nat) : (x.rotateLeft r).getLsbD i =
    if i < r then x.getLsbD (M - r + i) else decide (i < M) && x.getLsbD (i - r) := by
  rw [BitVec.getLsbD_rotateLeft, Nat.mod_eq_of_lt hr]
  by_cases hi : i < r
  · rw [decide_eq_true hi, if_pos hi]
    rfl
  · rw [decide_eq_false hi, if_neg hi]
    rfl

theorem getLsbD_rotr {M : Nat} (x : BitVec M) {r : Nat} (hr : r < M) (i : Nat) : (x.rotateRight r).getLsbD i =
    if i < M - r then x.getLsbD (r + i) else decide (i < M) && x.getLsbD (i - (M - r)) := by
  rw [BitVec.getLsbD_rotateRight, Nat.mod_eq_of_lt hr]
  by_cases hi : i < M - r
  · rw [decide_eq_true hi, if_pos hi]
    rfl
  · rw [decide_eq_false hi, if_neg hi]
    rfl

/-- Rotations back and forth. -/
theorem rotateLeft_eq_iff {M : Nat} {x y : BitVec M} {r : Nat} (hr : r < M) :
    x.rotateLeft r = y ↔ x = y.rotateRight r := by
  constructor
  · rintro rfl
    apply BitVec.eq_of_getLsbD_eq
    intro i hi
    rw [getLsbD_rotr _ hr, getLsbD_rotl _ hr, getLsbD_rotl _ hr]
    by_cases h : i < M - r
    · rw [if_pos h, if_neg (by omega), decide_eq_true (by omega), Nat.add_sub_cancel_left, Bool.true_and]
    · rw [if_neg h, if_pos (by omega), decide_eq_true hi, Bool.true_and, Nat.add_sub_cancel' (by omega)]
  · rintro rfl
    apply BitVec.eq_of_getLsbD_eq
    intro i hi
    rw [getLsbD_rotl _ hr, getLsbD_rotr _ hr, getLsbD_rotr _ hr]
    by_cases h : i < r
    · rw [if_pos h, if_neg (by omega), decide_eq_true (by omega), Nat.add_sub_cancel_left, Bool.true_and]
    · rw [if_neg h, if_pos (by omega), decide_eq_true hi, Bool.true_and, Nat.add_sub_cancel' (by omega)]

open Lib.Wasm in
/-- Rotated bits are as many as before. -/
theorem ipopcnt_rotateLeft {M : Nat} (x : BitVec M) {r : Nat} (hr : r < M) : ipopcnt (x.rotateLeft r) = ipopcnt x := by
  have hbits := getLsbD_rotl x hr
  obtain ⟨k, rfl⟩ : ∃ k, M = r + k := ⟨M - r, by omega⟩
  have hother : ∀ p : Nat → Bool, (List.range (r + k)).countP p =
      (List.range k).countP p + (List.range r).countP fun i => p (k + i) := fun p => by
    rw [Nat.add_comm, countP_range_add]
  rw [ipopcnt, ipopcnt, countP_range_add, hother, Nat.add_comm]
  congr 1
  · refine List.countP_congr fun i hi => ?_
    have := List.mem_range.mp hi
    rw [hbits, if_neg (by omega), decide_eq_true (by omega), Nat.add_sub_cancel_left, Bool.true_and]
  · refine List.countP_congr fun i hi => ?_
    rw [hbits, if_pos (List.mem_range.mp hi), Nat.add_sub_cancel_left]

open Lib.Wasm in
theorem ipopcnt_ones {M n : Nat} (hn : n ≤ M) : ipopcnt (ones M n) = n := by
  obtain ⟨k, rfl⟩ : ∃ k, M = n + k := ⟨M - n, by omega⟩
  have hlow : (List.range n).countP (fun i => (ones (n + k) n).getLsbD i) = n := by
    rw [List.countP_eq_length.mpr, List.length_range]
    intro i hi
    have := List.mem_range.mp hi
    rw [getLsbD_ones (by omega), decide_eq_true this]
  have hhigh : (List.range k).countP (fun i => (ones (n + k) n).getLsbD (n + i)) = 0 := by
    rw [List.countP_eq_zero]
    intro i hi
    have := List.mem_range.mp hi
    rw [getLsbD_ones (by omega), decide_eq_false (by omega)]
    decide
  rw [ipopcnt, countP_range_add, hlow, hhigh, Nat.add_zero]

/-- A run of ones, neither empty nor full, rotated. -/
def IsRotatedRun {M : Nat} (x : BitVec M) : Prop := ∃ n r, 0 < n ∧ n < M ∧ x = (ones M n).rotateRight r

/-! ### Floating-point immediates -/

/-- `VFPExpandImm`, for `E` bits of exponent and `F` of fraction. -/
def vfpExpandImm (E F : Nat) (imm8 : BitVec 8) : BitVec (1 + (1 + 1 * (E - 3) + 2) + (4 + (F - 4))) :=
  let b := imm8.extractLsb' 6 1
  imm8.extractLsb' 7 1 ++ (~~~b ++ b.replicate (E - 3) ++ imm8.extractLsb' 4 2) ++ (imm8.extractLsb' 0 4 ++ 0#(F - 4))

theorem toNat_vfpExpandImm_single : ∀ imm8 : BitVec 8, (vfpExpandImm 8 23 imm8).toNat =
    imm8.toNat / 128 * 2 ^ 31 + ((if imm8.toNat / 64 % 2 = 1 then 124 else 128) + imm8.toNat / 16 % 4) * 2 ^ 23 +
      imm8.toNat % 16 * 2 ^ 19 := by decide +kernel

theorem toNat_vfpExpandImm_double : ∀ imm8 : BitVec 8, (vfpExpandImm 11 52 imm8).toNat =
    imm8.toNat / 128 * 2 ^ 63 + ((if imm8.toNat / 64 % 2 = 1 then 1020 else 1024) + imm8.toNat / 16 % 4) * 2 ^ 52 +
      imm8.toNat % 16 * 2 ^ 48 := by decide +kernel

/-! ### Offsets -/

/-- `b`, `bl`: words from the instruction, in `imm26`. -/
def branchOffset (w : BitVec 32) : ℤ := 4 * (w.extractLsb' 0 26).toInt

/-- `b.cond`, `cbz`, `cbnz`: words, in `imm19`. -/
def condOffset (w : BitVec 32) : ℤ := 4 * (w.extractLsb' 5 19).toInt

/-- `adr`: bytes, in `immhi` and `immlo`. -/
def adrOffset (w : BitVec 32) : ℤ := (w.extractLsb' 5 19 ++ w.extractLsb' 29 2).toInt

end Aipl.Lib.Arm64
