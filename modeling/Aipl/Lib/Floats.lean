import Mathlib.Algebra.Order.Floor.Ring
import Mathlib.Data.Rat.Floor
import Mathlib.Tactic.Positivity
import Mathlib.Tactic.Ring

/-! # Library — floating point, as far as bounds on a result need it

The operations of a format of 64 bits are given; what they compute is said by the numbers its finite
values stand for and by one rounding for all of them.  Of the rounding only three things are asked: it
is monotone, and zero and the powers of two in range are their own.  Bounds by such numbers then pass
through every operation.  Nothing here names a program.

* `F64.Rounding` — the operations are the exact ones, rounded.
* `Rounding.add_between`, `mul_between`, `div_between` — a result lies between bounds that rounding
  keeps.
-/

namespace Aipl.Lib

/-- The operations on the values `φ` of a format. -/
structure F64 (φ : Type) where
  literal : Nat → φ
  add : φ → φ → φ
  mul : φ → φ → φ
  div : φ → φ → φ
  convertI64S : BitVec 64 → φ
  ge : φ → φ → Bool
  /-- Toward zero; `none` where there is no `i64`. -/
  truncI64S : φ → Option (BitVec 64)

namespace F64

variable {φ : Type} {F : F64 φ} {value : φ → Option ℚ} {round : ℚ → ℚ}

/-- The operations are those on rational numbers, rounded, as long as the result is in range. -/
structure Rounding (F : F64 φ) (value : φ → Option ℚ) (round : ℚ → ℚ) : Prop where
  mono : Monotone round
  zero : round 0 = 0
  pow : ∀ k : Nat, k ≤ 1023 → round (2 ^ k) = 2 ^ k
  literal : ∀ n : Nat, n ≤ 2 ^ 53 → value (F.literal n) = some n
  convert : ∀ i : BitVec 64, value (F.convertI64S i) = some (round i.toInt)
  add : ∀ {x y p q}, value x = some p → value y = some q → |p + q| ≤ 2 ^ 1023 →
    value (F.add x y) = some (round (p + q))
  mul : ∀ {x y p q}, value x = some p → value y = some q → |p * q| ≤ 2 ^ 1023 →
    value (F.mul x y) = some (round (p * q))
  div : ∀ {x y p q}, value x = some p → value y = some q → q ≠ 0 → |p / q| ≤ 2 ^ 1023 →
    value (F.div x y) = some (round (p / q))
  ge : ∀ {x y p q}, value x = some p → value y = some q → F.ge x y = decide (q ≤ p)
  trunc : ∀ {x p}, value x = some p → 0 ≤ p → p < 2 ^ 63 →
    ∃ t, F.truncI64S x = some t ∧ t.toInt = ⌊p⌋

/-- `x` is finite, and lies between `l` and `u`. -/
def Between (value : φ → Option ℚ) (l u : ℚ) (x : φ) : Prop := ∃ p, value x = some p ∧ l ≤ p ∧ p ≤ u

/-- Bounds that rounding keeps: zero and the powers of two in range. -/
def Kept (p : ℚ) : Prop := p = 0 ∨ ∃ k : Nat, k ≤ 1023 ∧ p = 2 ^ k

theorem Kept.nonneg {p : ℚ} (h : Kept p) : 0 ≤ p := by
  rcases h with rfl | ⟨k, -, rfl⟩
  · exact le_rfl
  · positivity

theorem Kept.le {p : ℚ} (h : Kept p) : p ≤ 2 ^ 1023 := by
  rcases h with rfl | ⟨k, hk, rfl⟩
  · positivity
  · exact pow_le_pow_right₀ one_le_two hk

theorem kept_pow {k : Nat} (hk : k ≤ 1023) : Kept (2 ^ k) := .inr ⟨k, hk, rfl⟩

theorem kept_zero : Kept 0 := .inl rfl

namespace Rounding

variable (h : F.Rounding value round)
include h

theorem kept {p : ℚ} (hp : Kept p) : round p = p := by
  rcases hp with rfl | ⟨k, hk, rfl⟩
  · exact h.zero
  · exact h.pow k hk

/-- What lies between kept bounds is rounded to what lies between them. -/
theorem round_between {l u p : ℚ} (hl : Kept l) (hu : Kept u) (hlp : l ≤ p) (hpu : p ≤ u) :
    l ≤ round p ∧ round p ≤ u ∧ |p| ≤ 2 ^ 1023 := by
  refine ⟨?_, ?_, ?_⟩
  · calc l = round l := (h.kept hl).symm
      _ ≤ round p := h.mono hlp
  · calc round p ≤ round u := h.mono hpu
      _ = u := h.kept hu
  · rw [abs_of_nonneg (hl.nonneg.trans hlp)]
    exact hpu.trans hu.le

theorem convert_between {i : BitVec 64} {l u : ℚ} (hl : Kept l) (hu : Kept u) (hli : l ≤ i.toInt)
    (hiu : i.toInt ≤ u) : Between value l u (F.convertI64S i) := by
  obtain ⟨hlo, hhi, -⟩ := h.round_between hl hu hli hiu
  exact ⟨_, h.convert i, hlo, hhi⟩

theorem add_between {x y : φ} {l l' u u' lo hi : ℚ} (hx : Between value l u x)
    (hy : Between value l' u' y) (hlo : Kept lo) (hhi : Kept hi) (hl : lo ≤ l + l')
    (hu : u + u' ≤ hi) : Between value lo hi (F.add x y) := by
  obtain ⟨p, hp, hlp, hpu⟩ := hx
  obtain ⟨q, hq, hlq, hqu⟩ := hy
  obtain ⟨h₁, h₂, habs⟩ := h.round_between hlo hhi (hl.trans (add_le_add hlp hlq))
    ((add_le_add hpu hqu).trans hu)
  exact ⟨_, h.add hp hq habs, h₁, h₂⟩

/-- A product with a literal. -/
theorem mul_between {x y : φ} {l u q lo hi : ℚ} (hx : Between value l u x) (hy : value y = some q)
    (hq : 0 ≤ q) (hlo : Kept lo) (hhi : Kept hi) (hl : lo ≤ l * q) (hu : u * q ≤ hi) :
    Between value lo hi (F.mul x y) := by
  obtain ⟨p, hp, hlp, hpu⟩ := hx
  obtain ⟨h₁, h₂, habs⟩ := h.round_between hlo hhi (hl.trans (mul_le_mul_of_nonneg_right hlp hq))
    ((mul_le_mul_of_nonneg_right hpu hq).trans hu)
  exact ⟨_, h.mul hp hy habs, h₁, h₂⟩

/-- A quotient by what is not below 1. -/
theorem div_between {x y : φ} {l u q lo hi : ℚ} (hx : Between value l u x) (hy : value y = some q)
    (hq : 1 ≤ q) (hlo : Kept lo) (hhi : Kept hi) (hl : lo ≤ l / q) (hu : u ≤ hi) (hl0 : 0 ≤ l) :
    Between value lo hi (F.div x y) := by
  obtain ⟨p, hp, hlp, hpu⟩ := hx
  have hqpos : 0 < q := zero_lt_one.trans_le hq
  have hle : p / q ≤ p := div_le_self (hl0.trans hlp) hq
  obtain ⟨h₁, h₂, habs⟩ := h.round_between hlo hhi (hl.trans (div_le_div_of_nonneg_right hlp hqpos.le))
    (hle.trans (hpu.trans hu))
  exact ⟨_, h.div hp hy hqpos.ne' habs, h₁, h₂⟩

end Rounding

theorem Between.mono {l l' u u' : ℚ} {x : φ} (h : Between value l u x) (hl : l' ≤ l) (hu : u ≤ u') :
    Between value l' u' x := by
  obtain ⟨p, hp, hlp, hpu⟩ := h
  exact ⟨p, hp, hl.trans hlp, hpu.trans hu⟩

end F64

end Aipl.Lib
