import Mathlib.Algebra.Order.Ring.Nat
import Mathlib.Data.Nat.ModEq
import Mathlib.Logic.Function.Iterate
import Mathlib.Tactic.Ring

/-! # Library — linear congruential maps

The map `x ↦ a * x + c`, read modulo a power of two.  With `a` one more than a multiple of four and `c` odd, every
number is reached from every other.  Nothing here names a program.

* `affine_pow` — what `2 ^ k` steps come to.
* `affine_reaches` — every number is reached in fewer than `2 ^ k` steps.
-/

namespace Aipl.Lib.Congruential

/-- One step. -/
def affine (a c x : Nat) : Nat := a * x + c

variable {a c : Nat}

/-- `2 ^ k` steps are a step of the same kind, whose addend is an odd multiple of `2 ^ k`. -/
theorem affine_pow (ha : a % 4 = 1) (hc : c % 2 = 1) (k : Nat) : ∃ w u : Nat, ∀ x,
    (affine a c)^[2 ^ k] x = (2 ^ (k + 2) * w + 1) * x + 2 ^ k * (2 * u + 1) := by
  induction k with
  | zero =>
    refine ⟨a / 4, c / 2, fun x => ?_⟩
    have hfour : 2 ^ (0 + 2) * (a / 4) + 1 = a := by omega
    have htwo : 2 ^ 0 * (2 * (c / 2) + 1) = c := by omega
    rw [hfour, htwo]
    rfl
  | succ k ih =>
    obtain ⟨w, u, hstep⟩ := ih
    refine ⟨w + 2 ^ (k + 1) * w * w, u + 2 ^ k * w * (2 * u + 1), fun x => ?_⟩
    rw [pow_succ 2 k, Nat.mul_two, Function.iterate_add_apply, hstep, hstep]
    ring

theorem affine_pow_modEq (ha : a % 4 = 1) (hc : c % 2 = 1) (k x : Nat) :
    (affine a c)^[2 ^ k] x ≡ x + 2 ^ k [MOD 2 ^ (k + 1)] := by
  obtain ⟨w, u, hstep⟩ := affine_pow ha hc k
  have hmultiple : (affine a c)^[2 ^ k] x = x + 2 ^ k + 2 ^ (k + 1) * (2 * w * x + u) := by
    rw [hstep]
    ring
  rw [hmultiple]
  exact Nat.modEq_iff_dvd.mpr ⟨-(2 * w * x + u : Nat), by push_cast; ring⟩

/-- Numbers that agree modulo `2 ^ k` agree modulo the next power, or do when the bit is changed. -/
theorem modEq_succ {k x y : Nat} (h : x ≡ y [MOD 2 ^ k]) : x ≡ y [MOD 2 ^ (k + 1)] ∨ x + 2 ^ k ≡ y [MOD 2 ^ (k + 1)] := by
  have hpos : 0 < 2 ^ k := Nat.pow_pos (by decide)
  have hx := Nat.mod_pow_succ (b := 2) (k := k) (x := x)
  have hy := Nat.mod_pow_succ (b := 2) (k := k) (x := y)
  have hsucc := Nat.mod_pow_succ (b := 2) (k := k) (x := x + 2 ^ k)
  have hbit : (x + 2 ^ k) / 2 ^ k = x / 2 ^ k + 1 := Nat.add_div_right x hpos
  have hlow : (x + 2 ^ k) % 2 ^ k = x % 2 ^ k := Nat.add_mod_right x _
  have hmod : x % 2 ^ k = y % 2 ^ k := h
  rw [Nat.ModEq, Nat.ModEq, hx, hy, hsucc, hbit, hlow, hmod]
  rcases Nat.mod_two_eq_zero_or_one (x / 2 ^ k) with h0 | h0 <;> rcases Nat.mod_two_eq_zero_or_one (y / 2 ^ k) with h1 | h1
  · exact .inl (by rw [h0, h1])
  · exact .inr (by rw [Nat.add_mod, h0, h1])
  · exact .inr (by rw [Nat.add_mod, h0, h1])
  · exact .inl (by rw [h0, h1])

/-- **Every number is reached.** -/
theorem affine_reaches (ha : a % 4 = 1) (hc : c % 2 = 1) (x y : Nat) : ∀ k : Nat,
    ∃ n < 2 ^ k, (affine a c)^[n] x ≡ y [MOD 2 ^ k]
  | 0 => ⟨0, by decide, Nat.modEq_one⟩
  | k + 1 => by
      obtain ⟨n, hn, hreach⟩ := affine_reaches ha hc x y k
      have hpow : 2 ^ (k + 1) = 2 ^ k + 2 ^ k := by rw [pow_succ, Nat.mul_two]
      rcases modEq_succ hreach with h | h
      · exact ⟨n, by omega, h⟩
      · refine ⟨2 ^ k + n, by omega, ?_⟩
        rw [Function.iterate_add_apply]
        exact (affine_pow_modEq ha hc k _).trans h

end Aipl.Lib.Congruential
