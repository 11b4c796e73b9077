import Aipl.Lib.Wasm.Ints
import Mathlib.Analysis.Real.Sqrt
import Mathlib.Algebra.Order.Floor.Ring

/-! # Library — a whole square root by way of a float

An integer is converted to a float, the float's square root taken and cut towards zero.  The
operations are given; conversion and square root are the exact ones rounded, and of the rounding it is
asked that it is monotone and keeps what 53 bits hold.  Nothing here names a program.

* `Floats.Rounding` — the operations are the exact ones, rounded.
* `Rounding.root32` — of 32 bits, the result is no less than the whole root, and its square fits.
* `Rounding.root64` — of 64 bits, there is a result, and it is not negative.
-/

namespace Aipl.Lib.SquareRoot

/-- The operations on the values `φ` of a format. -/
structure Floats (φ : Type) where
  convertI32S : BitVec 32 → φ
  convertI64S : BitVec 64 → φ
  sqrt : φ → φ
  /-- Toward zero; `none` where there is no `i32`. -/
  truncI32S : φ → Option (BitVec 32)
  truncI64S : φ → Option (BitVec 64)

variable {φ : Type} {F : Floats φ} {value : φ → Option ℝ} {round : ℝ → ℝ}

/-- Conversion and square root are correctly rounded, and cutting is exact. -/
structure Floats.Rounding (F : Floats φ) (value : φ → Option ℝ) (round : ℝ → ℝ) : Prop where
  mono : Monotone round
  exact : ∀ m : ℕ, m ≤ 2 ^ 53 → ∀ k : ℤ, -64 ≤ k → k ≤ 64 → round (m * 2 ^ k) = m * 2 ^ k
  convertI32S : ∀ i, value (F.convertI32S i) = some (round i.toInt)
  convertI64S : ∀ i, value (F.convertI64S i) = some (round i.toInt)
  sqrt : ∀ {x p}, value x = some p → 0 ≤ p → value (F.sqrt x) = some (round √p)
  truncI32S : ∀ {x p}, value x = some p → 0 ≤ p → p < 2 ^ 31 → ∃ t, F.truncI32S x = some t ∧ t.toInt = ⌊p⌋
  truncI64S : ∀ {x p}, value x = some p → 0 ≤ p → p < 2 ^ 63 → ∃ t, F.truncI64S x = some t ∧ t.toInt = ⌊p⌋

namespace Floats.Rounding

variable (h : F.Rounding value round)
include h

theorem natCast {m : ℕ} (hm : m ≤ 2 ^ 53) : round m = m := by
  have hexact := h.exact m hm 0 (by decide) (by decide)
  rwa [zpow_zero, mul_one] at hexact

theorem nonneg {p : ℝ} (hp : 0 ≤ p) : 0 ≤ round p := by
  have hzero := h.natCast (m := 0) (by decide)
  rw [Nat.cast_zero] at hzero
  rw [← hzero]
  exact h.mono hp

/-- **The root of 32 bits.**  Rounding cannot take it below the whole root, nor up to 46341. -/
theorem root32 {x : BitVec 32} (hx : 0 ≤ x.toInt) :
    ∃ t, F.truncI32S (F.sqrt (F.convertI32S x)) = some t ∧ 0 ≤ t.toInt ∧ t.toInt ≤ 46340 ∧
      x.toInt < (t.toInt + 1) * (t.toInt + 1) := by
  obtain ⟨n, hn⟩ := Int.eq_ofNat_of_zero_le hx
  have hlt : n < 2 ^ 31 := by
    have := BitVec.toInt_lt (x := x)
    omega
  have hconv : value (F.convertI32S x) = some (n : ℝ) := by
    rw [h.convertI32S, hn, Int.cast_natCast, h.natCast (by omega)]
  have hsqrt := h.sqrt hconv (Nat.cast_nonneg n)
  -- √(2³¹ - 1) is below 46340 + 61/64, which is a float
  have hbelow : round √(n : ℝ) ≤ 46340 + 61 / 64 := by
    have hexact := h.exact 2965821 (by decide) (-6) (by decide) (by decide)
    have hnum : ((2965821 : ℕ) : ℝ) * 2 ^ (-6 : ℤ) = 46340 + 61 / 64 := by norm_num
    rw [hnum] at hexact
    rw [← hexact]
    refine h.mono (Real.sqrt_le_iff.mpr ⟨by norm_num, ?_⟩)
    have hcast : (n : ℝ) ≤ 2 ^ 31 - 1 := by
      have : (n : ℝ) + 1 ≤ 2 ^ 31 := by exact_mod_cast hlt
      linarith
    exact hcast.trans (by norm_num)
  have habove : (Nat.sqrt n : ℝ) ≤ round √(n : ℝ) := by
    rw [← h.natCast (m := Nat.sqrt n) (by have := Nat.sqrt_le_self n; omega)]
    exact h.mono Real.nat_sqrt_le_real_sqrt
  have hpos := (Nat.cast_nonneg (Nat.sqrt n)).trans habove
  obtain ⟨t, ht, hfloor⟩ := h.truncI32S hsqrt hpos (by linarith)
  have hroot : (Nat.sqrt n : ℤ) ≤ t.toInt := by
    rw [hfloor, Int.le_floor]
    exact_mod_cast habove
  refine ⟨t, ht, (Int.natCast_nonneg _).trans hroot, ?_, ?_⟩
  · rw [hfloor, ← Int.lt_add_one_iff, Int.floor_lt]
    push_cast
    linarith
  · have hsucc : (n : ℤ) < (Nat.sqrt n + 1) * (Nat.sqrt n + 1) := by exact_mod_cast Nat.lt_succ_sqrt n
    rw [hn]
    exact hsucc.trans_le (mul_le_mul (by omega) (by omega) (by positivity) (by omega))

/-- **The root of 64 bits.**  The conversion itself may round, up to 2⁶³ and so past the last root. -/
theorem root64 {x : BitVec 64} (hx : 0 ≤ x.toInt) :
    ∃ t, F.truncI64S (F.sqrt (F.convertI64S x)) = some t ∧ 0 ≤ t.toInt := by
  have hcast : (0 : ℝ) ≤ x.toInt := by exact_mod_cast hx
  have hconv := h.convertI64S x
  have hle : round x.toInt ≤ 2 ^ 63 := by
    have hexact := h.exact 1 (by decide) 63 (by decide) (by decide)
    rw [Nat.cast_one, one_mul] at hexact
    have hlt : ((x.toInt : ℤ) : ℝ) ≤ (2 : ℝ) ^ (63 : ℤ) := by exact_mod_cast (BitVec.toInt_lt (x := x)).le
    calc round x.toInt ≤ round ((2 : ℝ) ^ (63 : ℤ)) := h.mono hlt
      _ = 2 ^ 63 := by rw [hexact]; norm_cast
  have hsqrt := h.sqrt hconv (h.nonneg hcast)
  have hsmall : round √(round x.toInt) ≤ 2 ^ 32 := by
    have hexact : round (2 ^ 32) = 2 ^ 32 := by
      have hcast := h.natCast (m := 2 ^ 32) (by decide)
      rwa [Nat.cast_pow, Nat.cast_ofNat] at hcast
    rw [← hexact]
    exact h.mono (Real.sqrt_le_iff.mpr ⟨by norm_num, hle.trans (by norm_num)⟩)
  have hpos := h.nonneg (Real.sqrt_nonneg (round x.toInt))
  obtain ⟨t, ht, hfloor⟩ := h.truncI64S hsqrt hpos (hsmall.trans_lt (by norm_num))
  exact ⟨t, ht, hfloor ▸ Int.floor_nonneg.mpr hpos⟩

end Floats.Rounding

end Aipl.Lib.SquareRoot
