import Aipl.Checker.Types
import Aipl.Lib.SharedSlots
import Mathlib.Data.List.Sort

/-! # Layouts of values, as the checker computes them

`scalars` spreads a value over its scalars, `sum_layout` lets the variants of a union or result share
slots, `union_layouts` decides which unions are values, and `layout_at` places values in memory.
Functions that follow definitions by name take a fuel.
-/

namespace Aipl.Checker

open Aipl.Lib Aipl.Lib.Outcome

/-! ### Scalars and sums -/

/-- `sum_layout`, once the kinds of each variant's scalars are known. -/
def sumLayoutOf (perVariant : List (List Kind)) : SumLayout :=
  let counts := SharedSlots.count perVariant
  let (slots, base) := SharedSlots.slots .i32 counts kinds
  let variants := perVariant.map (SharedSlots.assign base fun _ => 0)
  let (offsets, offset) := place 0 (slots.map Kind.size)
  let align := (slots.map Kind.size).foldl max 4
  { slots := slots, offsets := offsets, size := alignUp offset align, align := align,
    variants := variants }

/-- `sum_layout` of the variants' field types. -/
def sumLayout (scalars : Ty → Outcome (List Ty)) (variants : List (List Ty)) :
    Outcome SumLayout := do
  let perVariant ← mapAll
    (fun fields => do
      let ts ← mapAll scalars fields
      pure (ts.flatten.map slotKind))
    variants
  pure (sumLayoutOf perVariant)

def scalars : Nat → Structs → Ty → Outcome (List Ty)
  | 0, _, _ => outOfFuel
  | fuel + 1, st, .struct n =>
    match st.get n with
    | some d =>
      if d.isValue then do
        let ts ← mapAll (scalars fuel st) (d.fields.map Field.ty)
        pure ts.flatten
      else pure [.struct n]
    | none => pure [.struct n]
  | _ + 1, st, .union n =>
    match st.layout n with
    | some l => pure (l.slots.map Kind.ty)
    | none => pure [.union n]
  | fuel + 1, st, .result a b => do
    let l ← sumLayout (scalars fuel st) [[a], [b]]
    pure (if l.slots.length ≤ MAX_SCALARS then l.slots.map Kind.ty else [.result a b])
  | _ + 1, _, .void => pure []
  | _ + 1, _, t => pure [t]

/-- `result_sum`. -/
def resultSum (fuel : Nat) (st : Structs) (ok err : Ty) : Outcome SumLayout :=
  sumLayout (scalars fuel st) [[ok], [err]]

/-- `result_layout`. -/
def resultLayout (fuel : Nat) (st : Structs) (ok err : Ty) : Outcome (Option SumLayout) := do
  let l ← resultSum fuel st ok err
  pure (if l.slots.length ≤ MAX_SCALARS then some l else none)

/-! ### Which unions are values -/

/-- The field types of a union's variants. -/
def UnionDef.fieldTypes (u : UnionDef) : List (List Ty) :=
  u.variants.map fun v => v.fields.map Field.ty

/-- The unions `u` holds inline, in its variants' fields. -/
def holds (u : UnionDef) : List String :=
  u.fieldTypes.flatten.filterMap fun
    | .union n => some n
    | _ => none

/-- A round of the loop of `reaches`, with the names to do (the next one first) and those seen. -/
def reachRound (st : Structs) (target : String) (s : List String × List String) :
    Outcome ((List String × List String) ⊕ Bool) :=
  match s.1 with
  | [] => done (.inr false)
  | n :: todo =>
    if n = target then done (.inr true)
    else if n ∈ s.2 then done (.inl (todo, s.2))
    else
      match st.union n with
      | some u => done (.inl ((holds u).reverse ++ todo, s.2 ++ [n]))
      | none => done (.inl (todo, s.2 ++ [n]))

/-- `reaches`: whether `target` is among the unions that those named in `from_` hold, directly or
through the unions they hold. -/
def reaches (fuel : Nat) (st : Structs) (from_ : List String) (target : String) : Outcome Bool :=
  iterate (reachRound st target) fuel (((from_.filterMap st.union).flatMap holds).reverse, [])

/-- `decide` of `union_layouts`: lays out `n`, after the unions it holds. -/
def decideUnion (scalarFuel : Nat) (candidates : List String) :
    Nat → Structs × List String → String → Outcome (Structs × List String)
  | 0, _, _ => outOfFuel
  | fuel + 1, (st, decided), n =>
    if n ∈ decided then done (st, decided)
    else do
      let u ← ofOption (st.union n)
      let (st, decided) ← foldAll (decideUnion scalarFuel candidates fuel) (st, decided ++ [n])
        ((holds u).filter fun m => decide (m ∈ candidates))
      let l ← sumLayout (scalars scalarFuel st) u.fieldTypes
      pure (if l.slots.length ≤ MAX_SCALARS then { st with byValue := (n, l) :: st.byValue } else st,
        decided)

def unionLayouts (fuel : Nat) (st : Structs) : Outcome (List (String × SumLayout)) := do
  let names := (st.unions.map UnionDef.name).insertionSort (· ≤ ·)
  let candidates ← filterAll
    (fun n => do
      let self ← reaches fuel st [n] n
      pure (!self))
    names
  let (work, _) ← foldAll (decideUnion fuel candidates fuel) ({ st with byValue := [] }, [])
    candidates
  pure work.byValue

/-- `Structs::new`. -/
def Structs.new (fuel : Nat) (defs : List StructDef) (unions : List UnionDef) : Outcome Structs := do
  let byValue ← unionLayouts fuel ⟨defs, unions, []⟩
  pure ⟨defs, unions, byValue⟩

/-! ### Layout in memory -/

/-- The loop of `layout_at` over a value struct's fields: where the next one starts, and the largest
alignment.  `none` is a type without a memory layout. -/
def placeFields (layout : Ty → Outcome (Option (Nat × Nat))) :
    Nat × Nat → List Field → Outcome (Option (Nat × Nat))
  | acc, [] => done (some acc)
  | (offset, maxAlign), f :: fs => do
    match ← layout f.ty with
    | none => pure none
    | some (s, a) => placeFields layout (alignUp offset a + s, max maxAlign a) fs

/-- `layout_at`, with the number of value structs it may still go into. -/
def layoutAt (fuel : Nat) (st : Structs) : Nat → Ty → Outcome (Option (Nat × Nat))
  | _, .union n =>
    match st.layout n with
    | some l => pure (some (l.size, l.align))
    | none => pure (some (4, 4))
  | _, .result a b => do
    let l ← resultLayout fuel st a b
    pure (l.map fun l => (l.size, l.align))
  | _, .ptr _ | _, .array _ | _, .i64 | _, .f64 => pure (some (8, 8))
  | _, .narrow n => pure (some (n.size, n.size))
  | _, .i32 | _, .f32 | _, .bool | _, .str | _, .fn .. | _, .enum _ => pure (some (4, 4))
  | 0, .struct _ | _, .void => pure none
  | left + 1, .struct n =>
    match st.get n with
    | some d =>
      if d.isValue then do
        let r ← placeFields (layoutAt fuel st left) (0, 1) d.fields
        pure (r.map fun (offset, maxAlign) => (alignUp offset maxAlign, maxAlign))
      else pure none
    | none => pure none

/-- `type_size_and_align`. -/
def typeSizeAndAlign (fuel : Nat) (st : Structs) (t : Ty) : Outcome (Option (Nat × Nat)) :=
  layoutAt fuel st 64 t

/-- `memory_layout`: of what may stand in memory, so not of a result. -/
def memoryLayout (fuel : Nat) (st : Structs) : Ty → Outcome (Option (Nat × Nat))
  | .result _ _ => pure none
  | t => typeSizeAndAlign fuel st t

/-- The loop of `get_field_offset`. -/
def fieldOffset (fuel : Nat) (st : Structs) (name : String) :
    Nat → List Field → Outcome (Option (Nat × Ty))
  | _, [] => pure none
  | offset, f :: fs => do
    match ← typeSizeAndAlign fuel st f.ty with
    | none => pure none
    | some (s, a) =>
      let offset := alignUp offset a
      if f.name = name then pure (some (offset, f.ty)) else fieldOffset fuel st name (offset + s) fs

def getFieldOffset (fuel : Nat) (st : Structs) (d : StructDef) (name : String) :
    Outcome (Option (Nat × Ty)) :=
  fieldOffset fuel st name 0 d.fields

end Aipl.Checker
