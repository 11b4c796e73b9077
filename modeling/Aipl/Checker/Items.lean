import Aipl.Checker.Layout

/-! # What the checker asks of structs, unions and types

`check_items` as far as structs and unions are concerned, `check_value_struct` and `validate_type`.
An error is a constructor with what its message names.
-/

namespace Aipl.Checker

open Aipl.Lib Aipl.Lib.Outcome

/-- Why the definitions are refused. -/
inductive ItemError where
  | duplicateStruct (s : String)
  | duplicateField (f s : String)
  | noFields (s : String)
  | fieldKind (f s : String)
  | containsItself (s f : String)
  | tooManyScalars (s : String) (n : Nat)
  | noLayout (f s : String)
  | duplicateUnion (u : String)
  | unionAndOther (u : String)
  | noVariants (u : String)
  | duplicateVariant (u v : String)
  | duplicateVariantField (u v f : String)
  | invalidType (f s : String)
  | notAValue (u : String)

/-- The first error of a check over a list. -/
def firstError {α : Type} (check : α → Outcome (Option ItemError)) :
    List α → Outcome (Option ItemError)
  | [] => done none
  | a :: as => do
    match ← check a with
    | some e => pure (some e)
    | none => firstError check as

/-- The first name that stands before it, too. -/
def firstDuplicate : List String → List String → Option String
  | _, [] => none
  | seen, n :: ns => if n ∈ seen then some n else firstDuplicate (n :: seen) ns

/-! ### Value structs -/

/-- `value_field`: the value struct a field of type `t` holds inline, if any. -/
def valueField (st : Structs) : Ty → Option String
  | .struct n => if st.isValue n then some n else none
  | _ => none

/-- `TypeChecker::scalars`: how many scalars a value is, its value structs flattened. -/
def countScalars : Nat → Structs → Ty → Outcome Nat
  | 0, _, _ => outOfFuel
  | fuel + 1, st, .struct n =>
    match st.get n with
    | some d =>
      if d.isValue then do
        let ns ← mapAll (countScalars fuel st) (d.fields.map Field.ty)
        pure ns.sum
      else pure 1
    | none => pure 1
  | _ + 1, _, _ => pure 1

/-- What a value struct does not hold. -/
def refusedField : Ty → Bool
  | .str | .union _ | .result _ _ | .void | .narrow _ => true
  | _ => false

/-- A round of the search of `check_value_struct` for the struct in itself: the structs to do, each
with the field that led to it, and those seen. -/
def valueRound (st : Structs) (target : String) (s : List (String × String) × List String) :
    Outcome ((List (String × String) × List String) ⊕ Option String) :=
  match s.1 with
  | [] => done (.inr none)
  | (n, first) :: stack =>
    if n = target then done (.inr (some first))
    else if n ∈ s.2 then done (.inl (stack, s.2))
    else
      match st.get n with
      | some d =>
        let inner := (d.fields.map Field.ty).filterMap (valueField st)
        done (.inl ((inner.map fun m => (m, first)).reverse ++ stack, n :: s.2))
      | none => done (.inl (stack, n :: s.2))

def checkValueStruct (fuel : Nat) (st : Structs) (s : StructDef) : Outcome (Option ItemError) := do
  if s.fields.isEmpty then pure (some (.noFields s.name))
  else
    match s.fields.find? fun f => refusedField f.ty with
    | some f => pure (some (.fieldKind f.name s.name))
    | none => do
      let stack := s.fields.filterMap fun f => (valueField st f.ty).map fun n => (n, f.name)
      match ← iterate (valueRound st s.name) fuel (stack.reverse, []) with
      | some first => pure (some (.containsItself s.name first))
      | none => do
        let n ← countScalars fuel st (.struct s.name)
        pure (if 8 < n then some (.tooManyScalars s.name n) else none)

/-! ### Types -/

mutual

/-- `validate_type`, with the names of the enums. -/
def validType (fuel : Nat) (st : Structs) (enums : List String) : Ty → Outcome Bool
  | .narrow _ => pure false
  | .array (.narrow _) => pure true
  | .ptr (.struct n) => pure ((st.get n).any fun d => !d.isValue)
  | .ptr _ => pure false
  | .struct n => pure (st.isValue n)
  | .array elem => do
    let ok ← validType fuel st enums elem
    if ok then do
      let l ← memoryLayout fuel st elem
      pure l.isSome
    else pure false
  | .result a b => do
    let ok ← validType fuel st enums a
    if ok then do
      let ok ← validType fuel st enums b
      if ok then do
        let l ← resultSum fuel st a b
        pure (decide (l.slots.length ≤ MAX_SCALARS))
      else pure false
    else pure false
  | .fn params ret _ => do
    let ok ← validTypes fuel st enums params
    if ok then validType fuel st enums ret else pure false
  | .enum n => pure (decide (n ∈ enums))
  | .union n => pure (st.union n).isSome
  | _ => pure true

def validTypes (fuel : Nat) (st : Structs) (enums : List String) : List Ty → Outcome Bool
  | [] => pure true
  | t :: ts => do
    let ok ← validType fuel st enums t
    if ok then validTypes fuel st enums ts else pure false

end

/-! ### Definitions -/

def registerStructs : List String → List StructDef → Option ItemError
  | _, [] => none
  | seen, s :: ss =>
    if s.name ∈ seen then some (.duplicateStruct s.name)
    else
      match firstDuplicate [] (s.fields.map Field.name) with
      | some f => some (.duplicateField f s.name)
      | none => registerStructs (s.name :: seen) ss

/-- The fields have a memory layout. -/
def checkLayouts (fuel : Nat) (st : Structs) (owner : String) (fields : List Field) :
    Outcome (Option ItemError) :=
  firstError
    (fun f => do
      let l ← memoryLayout fuel st f.ty
      pure (if l.isSome then none else some (.noLayout f.name owner)))
    fields

def checkVariants (fuel : Nat) (st : Structs) (u : String) :
    List String → List Variant → Outcome (Option ItemError)
  | _, [] => pure none
  | seen, v :: vs => do
    if v.name ∈ seen then pure (some (.duplicateVariant u v.name))
    else
      match firstDuplicate [] (v.fields.map Field.name) with
      | some f => pure (some (.duplicateVariantField u v.name f))
      | none => do
        match ← checkLayouts fuel st v.name v.fields with
        | some e => pure (some e)
        | none => checkVariants fuel st u (v.name :: seen) vs

def registerUnions (fuel : Nat) (st : Structs) (enums : List String) :
    List String → List UnionDef → Outcome (Option ItemError)
  | _, [] => pure none
  | seen, u :: us => do
    if u.name ∈ seen then pure (some (.duplicateUnion u.name))
    else if (st.get u.name).isSome || decide (u.name ∈ enums) then pure (some (.unionAndOther u.name))
    else if u.variants.isEmpty then pure (some (.noVariants u.name))
    else
      match ← checkVariants fuel st u.name [] u.variants with
      | some e => pure (some e)
      | none => registerUnions fuel st enums (u.name :: seen) us

/-- The types of the fields are valid; a storage type is a field's type only, not a value struct's. -/
def checkTypes (fuel : Nat) (st : Structs) (enums : List String) (owner : String)
    (isValue : Bool) (fields : List Field) : Outcome (Option ItemError) :=
  firstError
    (fun f => do
      match isValue, f.ty with
      | false, .narrow _ => pure none
      | _, t => do
        let ok ← validType fuel st enums t
        pure (if ok then none else some (.invalidType f.name owner)))
    fields

/-- A program's definitions of types. -/
structure Module where
  enums : List String
  structs : List StructDef
  unions : List UnionDef

/-- `check_items`: the structs and unions with their layouts, or the first error. -/
def checkItems (fuel : Nat) (M : Module) : Outcome (Except ItemError Structs) := do
  match registerStructs [] M.structs with
  | some e => pure (.error e)
  | none => do
    let st : Structs := ⟨M.structs, [], []⟩
    match ← firstError (checkValueStruct fuel st) (M.structs.filter StructDef.isValue) with
    | some e => pure (.error e)
    | none => do
      match ← firstError (fun s => checkLayouts fuel st s.name s.fields) M.structs with
      | some e => pure (.error e)
      | none => do
        match ← registerUnions fuel st M.enums [] M.unions with
        | some e => pure (.error e)
        | none => do
          let st ← Structs.new fuel M.structs M.unions
          let ofStructs ← firstError
            (fun s => checkTypes fuel st M.enums s.name s.isValue s.fields) M.structs
          let ofUnions ← firstError
            (fun u => firstError (fun v => checkTypes fuel st M.enums v.name true v.fields) u.variants)
            M.unions
          -- every union is a value (union_error)
          let notValue := M.unions.find? fun u => (st.layout u.name).isNone
          match ofStructs, ofUnions, notValue with
          | some e, _, _ | none, some e, _ => pure (.error e)
          | none, none, some u => pure (.error (.notAValue u.name))
          | none, none, none => pure (.ok st)

end Aipl.Checker
