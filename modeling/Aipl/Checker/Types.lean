import Mathlib.Data.List.Basic

/-! # Types and the definitions they name

The types of the language, its structs and unions, and the layout of a union or result held by
value, as the checker has them.
-/

namespace Aipl.Checker

/-- The storage types. -/
inductive Narrow where
  | u8
  | i8
  | u16
  | i16

def Narrow.size : Narrow → Nat
  | .u8 | .i8 => 1
  | .u16 | .i16 => 2

inductive Ty where
  | i32
  | i64
  | f32
  | f64
  | bool
  | str
  | void
  | ptr (t : Ty)
  | struct (n : String)
  | result (ok err : Ty)
  | array (t : Ty)
  | fn (params : List Ty) (ret : Ty) (noLeak : Bool)
  | enum (n : String)
  | union (n : String)
  | narrow (n : Narrow)

structure Field where
  name : String
  ty : Ty

structure StructDef where
  name : String
  fields : List Field
  isValue : Bool

structure Variant where
  name : String
  fields : List Field

structure UnionDef where
  name : String
  variants : List Variant

/-- The kinds of slots: every 4-byte scalar but `f32` takes an `i32` one. -/
inductive Kind where
  | i32
  | f32
  | i64
  | f64
deriving DecidableEq

def Kind.ty : Kind → Ty
  | .i32 => .i32
  | .f32 => .f32
  | .i64 => .i64
  | .f64 => .f64

/-- The order in which `sum_layout` takes the kinds. -/
def kinds : List Kind := [.i32, .f32, .i64, .f64]

def Kind.size : Kind → Nat
  | .i32 | .f32 => 4
  | .i64 | .f64 => 8

/-- `slot_kind`. -/
def slotKind : Ty → Kind
  | .i64 | .ptr _ | .array _ => .i64
  | .f32 => .f32
  | .f64 => .f64
  | _ => .i32

/-- A union or result held by value: the kind and offset of each slot, the first being the tag, its
size and alignment, and the slot of each scalar of each variant. -/
structure SumLayout where
  slots : List Kind
  offsets : List Nat
  size : Nat
  align : Nat
  variants : List (List Nat)

/-- The program's structs and unions, and the layouts of the unions held by value. -/
structure Structs where
  defs : List StructDef
  unions : List UnionDef
  byValue : List (String × SumLayout)

namespace Structs

variable (st : Structs) (n : String)

def get : Option StructDef := st.defs.find? fun d => d.name == n

def union : Option UnionDef := st.unions.find? fun u => u.name == n

/-- `by_value.get`. -/
def layout : Option SumLayout := (st.byValue.find? fun p => p.1 == n).map Prod.snd

def isValue : Bool := (st.get n).any StructDef.isValue

end Structs

/-- The most scalars a value may hold. -/
def MAX_SCALARS : Nat := 8

end Aipl.Checker
