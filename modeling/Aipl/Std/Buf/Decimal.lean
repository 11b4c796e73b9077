import Aipl.Std.Buf.Numbers
import Aipl.Std.Str.Integers

/-! # Decimal text is read back

* `isDigit_numeral`, `value_numeral` — a numeral's digits, and their number.
* `decimal_spells` — an integer's text is a text of it.
* `parseI64_decimal` — `str.parse_i64` of the text of an `i64`.
-/

namespace Aipl.StdBuf

open Aipl.Lib Aipl.Lib.Outcome Aipl.Lib.Numeral Aipl.Lib.Wasm Aipl.StdStr

variable {b : List (BitVec 8)} {v : BitVec 64} {fuel : Nat}

theorem number_reverse (base : Nat) (ds : List Nat) : number base ds.reverse = Nat.ofDigits base ds := by
  induction ds with
  | nil => rfl
  | cons d ds ih => rw [List.reverse_cons, Numeral.number_concat, ih, Nat.ofDigits_cons, Nat.add_comm]

theorem remainders_lt {n d : Nat} (hd : d ∈ remainders 10 n) : d < 10 := by
  rcases List.mem_cons.mp hd with rfl | hd
  · exact Nat.mod_lt _ (by decide)
  · exact Nat.digits_lt_base (by decide) hd

theorem isDigit_numeral (n : Nat) : ∀ c ∈ numeral 10 false n, IsDigit c := by
  intro c hc
  rw [numeral_eq (by decide), List.mem_reverse, List.mem_map] at hc
  obtain ⟨d, hd, rfl⟩ := hc
  have hlt := remainders_lt hd
  rw [IsDigit, toNat_digitText hlt]
  omega

theorem value_numeral (n : Nat) : value (numeral 10 false n) = n := by
  have hmap : (remainders 10 n).map ((fun c => c.toNat - 48) ∘ digitText false) = remainders 10 n := by
    refine (List.map_congr_left fun d hd => ?_).trans (List.map_id _)
    rw [Function.comp_apply, toNat_digitText (remainders_lt hd), Nat.add_sub_cancel_left]
    rfl
  rw [value, numeral_eq (by decide), List.map_reverse, List.map_map, hmap, number_reverse, remainders, Nat.ofDigits_cons,
    Nat.ofDigits_digits, Nat.add_comm, Nat.div_add_mod]

theorem numeral_ne_nil (n : Nat) : numeral 10 false n ≠ [] := by
  rw [numeral_eq (by decide)]
  simp [remainders]

theorem decimal_of_nonneg (n : Nat) : decimal n = numeral 10 false n := by
  rw [decimal, if_neg (by omega), Int.natAbs_natCast]

theorem decimal_spells (i : Int) : Spells (decimal i) i := by
  rw [decimal]
  split
  · refine ⟨.minus, numeral 10 false i.natAbs, rfl, numeral_ne_nil _, isDigit_numeral _, ?_⟩
    rw [value_numeral, Sign.apply]
    omega
  · refine ⟨.none, numeral 10 false i.natAbs, rfl, numeral_ne_nil _, isDigit_numeral _, ?_⟩
    rw [value_numeral, Sign.apply]
    · omega
    · exact fun h => by cases h

/-- A text of an `i64` is parsed. -/
theorem parseI64_spelled (h : Spells b v.toInt) (hb : b.length < 2 ^ 31) (hfuel : b.length < fuel) :
    parseI64 wrapping fuel b = done (.ok v) := by
  obtain ⟨sign, ds, hsign⟩ := exists_sign b
  obtain ⟨hne, hdigits, hvalue⟩ := (spells_iff hsign).mp h
  have hlimit : value ds ≤ sign.limit := (sign.inRange_iff _).mp (hvalue ▸ toInt_inRange v)
  obtain ⟨r, hrun, hresult⟩ := (parseI64_ends trapping_ok hsign hb hfuel).exists
  rw [parseI64_refines fuel b r hrun]
  cases hresult with
  | short hnil => exact absurd hnil hne
  | place hplace =>
    cases hplace with
    | @error k c hc _ _ hbad =>
      refine absurd ⟨hdigits c (List.mem_of_getElem? hc), ?_⟩ hbad
      have hmono := value_le_append (ds.take (k + 1)) (ds.drop (k + 1))
      rw [List.take_append_drop] at hmono
      exact hmono.trans (hlimit.trans sign.limit_le)
  | parsed _ _ hv => rw [BitVec.eq_of_toInt_eq (hv.trans hvalue.symm)]
  | last hminus _ hlarge =>
    rw [Sign.limit_lt hminus, hlarge] at hlimit
    exact absurd hlimit (by decide)

theorem parseI64_decimal (v : BitVec 64) (hlen : (decimal v.toInt).length < 2 ^ 31) (hfuel : (decimal v.toInt).length < fuel) :
    parseI64 wrapping fuel (decimal v.toInt) = done (.ok v) :=
  parseI64_spelled (decimal_spells _) hlen hfuel

end Aipl.StdBuf
