import Aipl.Checker.Layout

/-! # Values and their scalars, in the interpreter

`to_scalars` spreads a value over the scalars the checker's layout gives it, `from_scalars` builds it
again.  A mismatch of value and type, or an index out of range, stops the program.
-/

namespace Aipl.Vm

open Aipl.Lib Aipl.Lib.Outcome Aipl.Checker

/-- A value of the interpreter; floats are their bits. -/
inductive Value where
  | int (i : Int)
  | int64 (i : Int)
  | float (bits : BitVec 64)
  | float32 (bits : BitVec 32)
  | bool (b : Bool)
  | str (s : String)
  | record (fields : List Value)
  | union (tag : Nat) (fields : List Value)
  | ok (v : Value)
  | err (v : Value)
  | void

/-- `zero_of`: a slot's zero. -/
def zeroOf : Kind → Value
  | .i64 => .int64 0
  | .f32 => .float32 0#32
  | .f64 => .float 0#64
  | .i32 => .int 0

/-- A sum's slots, zero but for the tag and the scalars of its variant. -/
def spread (l : SumLayout) (tag : Nat) (inner : List Value) : Outcome (List Value) := do
  let slots ← ofOption l.variants[tag]?
  pure (SharedSlots.scatter ((l.slots.map zeroOf).set 0 (.int tag)) slots inner)

/-- The scalars of the fields, in order, as far as there are both fields and values. -/
def fieldsTo (spreadField : Ty → Value → Outcome (List Value)) (ts : List Ty) (vs : List Value) :
    Outcome (List Value) := do
  let ss ← mapAll (fun p => spreadField p.1 p.2) (ts.zip vs)
  pure ss.flatten

def toScalars : Nat → Structs → Ty → Value → Outcome (List Value)
  | 0, _, _, _ => outOfFuel
  | fuel + 1, st, .struct n, .record vs =>
    match st.get n with
    | some d => if d.isValue then fieldsTo (toScalars fuel st) (d.fields.map Field.ty) vs else stop
    | none => stop
  | fuel + 1, st, .union n, .union tag vs =>
    match st.layout n with
    | some l => do
      let u ← ofOption (st.union n)
      let v ← ofOption u.variants[tag]?
      let inner ← fieldsTo (toScalars fuel st) (v.fields.map Field.ty) vs
      spread l tag inner
    | none => stop
  | fuel + 1, st, .result a b, .ok x => do
    match ← resultLayout fuel st a b with
    | some l => do
      let inner ← toScalars fuel st a x
      spread l 0 inner
    | none => pure [.ok x]
  | fuel + 1, st, .result a b, .err x => do
    match ← resultLayout fuel st a b with
    | some l => do
      let inner ← toScalars fuel st b x
      spread l 1 inner
    | none => pure [.err x]
  | _ + 1, _, .struct _, .union _ _ | _ + 1, _, .union _, .record _ => stop
  | _ + 1, _, _, v => pure [v]

/-- `xs[at..at + w]`. -/
def slice {α : Type} (xs : List α) (at_ w : Nat) : Outcome (List α) :=
  if at_ + w ≤ xs.length then done ((xs.drop at_).take w) else stop

/-- The loop of `from_scalars` over fields: each field's scalars are those of its width. -/
def fieldsFrom (width : Ty → Outcome Nat) (read : Ty → List Value → Outcome Value)
    (mine : Nat → Nat → Outcome (List Value)) : Nat → List Ty → Outcome (List Value)
  | _, [] => done []
  | at_, t :: ts => do
    let w ← width t
    let s ← mine at_ w
    let x ← read t s
    let xs ← fieldsFrom width read mine (at_ + w) ts
    pure (x :: xs)

/-- How many scalars a value of type `t` is. -/
def width (fuel : Nat) (st : Structs) (t : Ty) : Outcome Nat := do
  let ts ← scalars fuel st t
  pure ts.length

/-- The tag in the first slot. -/
def tagOf (s : List Value) : Outcome Nat := do
  match ← ofOption s[0]? with
  | .int t => pure t.toNat
  | _ => pure 0

def fromScalars : Nat → Structs → Ty → List Value → Outcome Value
  | 0, _, _, _ => outOfFuel
  | fuel + 1, st, .struct n, s =>
    match st.get n with
    | some d =>
      if d.isValue then do
        let fields ← fieldsFrom (width fuel st) (fromScalars fuel st) (slice s) 0
          (d.fields.map Field.ty)
        pure (.record fields)
      else ofOption s[0]?
    | none => ofOption s[0]?
  | fuel + 1, st, .union n, s =>
    match st.layout n with
    | some l => do
      let tag ← tagOf s
      let u ← ofOption (st.union n)
      let v ← ofOption u.variants[tag]?
      let slots ← ofOption l.variants[tag]?
      let fields ← fieldsFrom (width fuel st) (fromScalars fuel st)
        (fun at_ w => do
          let slots ← slice slots at_ w
          SharedSlots.gather s slots)
        0 (v.fields.map Field.ty)
      pure (.union tag fields)
    | none => ofOption s[0]?
  | fuel + 1, st, .result a b, s => do
    match ← resultLayout fuel st a b with
    | some l => do
      let tag ← tagOf s
      let slots ← ofOption l.variants[tag]?
      let mine ← SharedSlots.gather s slots
      if tag = 0 then do
        let x ← fromScalars fuel st a mine
        pure (.ok x)
      else do
        let x ← fromScalars fuel st b mine
        pure (.err x)
    | none => ofOption s[0]?
  | _ + 1, _, .bool, s => do
    match ← ofOption s[0]? with
    | .int i => pure (.bool (decide (i % 2 ^ 32 ≠ 0)))
    | v => pure v
  | _ + 1, _, _, s => ofOption s[0]?

end Aipl.Vm
