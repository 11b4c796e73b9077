import Mathlib.Algebra.BigOperators.Group.Finset.Basic
import Mathlib.Algebra.Order.BigOperators.Group.Finset
import Mathlib.Tactic.Ring
import Mathlib.Tactic.Linarith

/-! # Library — numbers in a radix

The value of a run of digits, the carry rule, and comparison by the first digit that differs from the
top.  Digits are integers, so that one rule serves addition with carries and subtraction with
borrows.  Nothing here names a program.

* `value` — the number the first `n` digits are.
* `Carried.step`, `Carried.value_eq` — one digit of a sum with a carry, and the whole sum.
* `value_lt`, `lt_of_top` — digits below the radix, and which of two numbers is larger.
-/

namespace Aipl.Lib.Radix

variable {B : Int} {f g c : Nat → Int}

/-- The number that digits `0 … n - 1` are, in radix `B`. -/
def value (B : Int) (f : Nat → Int) (n : Nat) : Int := ∑ i ∈ Finset.range n, f i * B ^ i

@[simp] theorem value_zero : value B f 0 = 0 := Finset.sum_range_zero _

theorem value_succ (n : Nat) : value B f (n + 1) = value B f n + f n * B ^ n :=
  Finset.sum_range_succ _ n

theorem value_congr {n : Nat} (h : ∀ i < n, f i = g i) : value B f n = value B g n :=
  Finset.sum_congr rfl fun i hi => by rw [h i (Finset.mem_range.mp hi)]

/-- Zero digits on top do not count. -/
theorem value_extend {n m : Nat} (hnm : n ≤ m) (h : ∀ i, n ≤ i → i < m → f i = 0) :
    value B f m = value B f n := by
  induction m, hnm using Nat.le_induction with
  | base => rfl
  | succ m hm ih =>
    rw [value_succ, h m hm (Nat.lt_succ_self m), Int.zero_mul, Int.add_zero]
    exact ih fun i h₁ h₂ => h i h₁ (by omega)

theorem value_add (n : Nat) : value B (fun i => f i + g i) n = value B f n + value B g n := by
  induction n with
  | zero => simp
  | succ n ih =>
    rw [value_succ, value_succ, value_succ, ih]
    ring

theorem value_mul (m : Int) (n : Nat) : value B (fun i => f i * m) n = value B f n * m := by
  induction n with
  | zero => simp
  | succ n ih =>
    rw [value_succ, value_succ, ih]
    ring

/-- Digits below the radix. -/
def Digits (B : Int) (f : Nat → Int) (n : Nat) : Prop := ∀ i < n, 0 ≤ f i ∧ f i < B

theorem value_nonneg (hB : 0 < B) {n : Nat} (h : Digits B f n) : 0 ≤ value B f n := by
  refine Finset.sum_nonneg fun i hi => ?_
  exact mul_nonneg (h i (Finset.mem_range.mp hi)).1 (pow_nonneg hB.le i)

theorem value_lt (hB : 0 < B) {n : Nat} (h : Digits B f n) : value B f n < B ^ n := by
  induction n with
  | zero => simp
  | succ n ih =>
    have hlow := ih fun i hi => h i (by omega)
    have hpos : 0 < B ^ n := pow_pos hB n
    have htop : f n * B ^ n ≤ (B - 1) * B ^ n :=
      mul_le_mul_of_nonneg_right (by have := (h n (by omega)).2; omega) hpos.le
    rw [value_succ, pow_succ]
    linarith [mul_comm B (B ^ n), sub_mul B 1 (B ^ n)]

/-- The digits of `B ^ n - 1`. -/
theorem value_top (n : Nat) : value B (fun _ => B - 1) n = B ^ n - 1 := by
  induction n with
  | zero => simp
  | succ n ih =>
    rw [value_succ, ih, pow_succ]
    ring

/-- A digit that is not zero, in front of which there are none, makes the number that large. -/
theorem le_value (hB : 0 < B) {n : Nat} (h : Digits B f (n + 1)) (hn : f n ≠ 0) :
    B ^ n ≤ value B f (n + 1) := by
  have hlow : 0 ≤ value B f n := value_nonneg hB fun i hi => h i (by omega)
  have hone : 1 ≤ f n := by have := (h n (by omega)).1; omega
  have htop : 1 * B ^ n ≤ f n * B ^ n := mul_le_mul_of_nonneg_right hone (pow_nonneg hB.le n)
  rw [value_succ]
  linarith

theorem value_pos (hB : 0 < B) {n : Nat} (h : Digits B f (n + 1)) (hn : f n ≠ 0) :
    0 < value B f (n + 1) :=
  (pow_pos hB n).trans_le (le_value hB h hn)

/-- The number with the larger digit at the first place they differ, from the top, is the larger. -/
theorem lt_of_top (hB : 0 < B) {k n : Nat} (hk : k < n) (hf : Digits B f n) (hg : Digits B g n)
    (heq : ∀ i, k < i → i < n → f i = g i) (hlt : f k < g k) : value B f n < value B g n := by
  induction n with
  | zero => omega
  | succ n ih =>
    rw [value_succ, value_succ]
    rcases Nat.lt_or_ge k n with hkn | hkn
    · rw [heq n hkn (by omega)]
      have := ih hkn (fun i hi => hf i (by omega)) (fun i hi => hg i (by omega))
        fun i h₁ h₂ => heq i h₁ (by omega)
      linarith
    · obtain rfl : k = n := by omega
      have hlow : value B f k < B ^ k := value_lt hB fun i hi => hf i (by omega)
      have hlow' : 0 ≤ value B g k := value_nonneg hB fun i hi => hg i (by omega)
      have htop : (f k + 1) * B ^ k ≤ g k * B ^ k :=
        mul_le_mul_of_nonneg_right (by omega) (pow_nonneg hB.le k)
      linarith [add_mul (f k) 1 (B ^ k)]

/-! ### Carries -/

/-- The first `k` digits `f` and the carry are what the first `k` terms `c` come to. -/
def Carried (B : Int) (c f : Nat → Int) (carry₀ : Int) (k : Nat) (carry : Int) : Prop :=
  value B f k + carry * B ^ k = value B c k + carry₀

theorem Carried.start (carry₀ : Int) : Carried B c f carry₀ 0 carry₀ := by
  simp [Carried]

/-- **One digit of a sum**: the low digit of the term and the carry stays, the rest is carried. -/
theorem Carried.step {carry₀ carry carry' : Int} {k : Nat} {f' : Nat → Int}
    (h : Carried B c f carry₀ k carry) (hf : ∀ i < k, f' i = f i)
    (hk : f' k + carry' * B = c k + carry) : Carried B c f' carry₀ (k + 1) carry' := by
  have hpow : B ^ (k + 1) = B * B ^ k := pow_succ' B k
  rw [Carried, value_succ, value_succ, value_congr hf, hpow]
  calc value B f k + f' k * B ^ k + carry' * (B * B ^ k)
      = value B f k + (f' k + carry' * B) * B ^ k := by ring
    _ = value B f k + carry * B ^ k + c k * B ^ k := by rw [hk]; ring
    _ = value B c k + c k * B ^ k + carry₀ := by rw [show _ = _ from h]; ring

end Aipl.Lib.Radix
