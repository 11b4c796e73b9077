import Aipl.Lib.Memory
import Aipl.Lib.Wasm.Code

/-! # Library — WebAssembly's plain instructions on numbers of 64 bits

Constants, locals, 64-bit arithmetic and comparisons, and a store of a byte.  Nothing here names a program.

* `WideOp.sem` — what one instruction does.
-/

namespace Aipl.Lib.Wasm

/-- The 64-bit operations that give a number of 64 bits. -/
inductive LongOp where
  | sub | divU | remU
deriving DecidableEq, Repr

/-- A division by zero traps. -/
def LongOp.eval (a b : BitVec 64) : LongOp → Option (BitVec 64)
  | .sub => some (a - b)
  | .divU => if b = 0#64 then none else some (a / b)
  | .remU => if b = 0#64 then none else some (a % b)

/-- The 64-bit comparisons. -/
inductive LongCmp where
  | ltS | ltU | ne
deriving DecidableEq, Repr

def LongCmp.eval (a b : BitVec 64) : LongCmp → Bool
  | .ltS => a.slt b
  | .ltU => a.ult b
  | .ne => a != b

/-- A plain instruction. -/
inductive WideOp where
  | i32Const (n : BitVec 32)
  | i64Const (n : BitVec 64)
  | localGet (i : Nat)
  | localSet (i : Nat)
  | localTee (i : Nat)
  | i32Add
  | i32Sub
  | long (op : LongOp)
  | compare (op : LongCmp)
  | i32WrapI64
  | i32Store8
deriving DecidableEq, Repr

/-- What a plain instruction does on a memory. -/
def WideOp.sem : WideOp → State Mem → Step Mem
  | .i32Const n, σ => .next { σ with stack := .i32 n :: σ.stack }
  | .i64Const n, σ => .next { σ with stack := .i64 n :: σ.stack }
  | .localGet i, σ => .next { σ with stack := σ.locals i :: σ.stack }
  | .localSet i, σ =>
    match σ.stack with
    | v :: vs => .next { σ with stack := vs, locals := Function.update σ.locals i v }
    | [] => .stuck
  | .localTee i, σ =>
    match σ.stack with
    | v :: _ => .next { σ with locals := Function.update σ.locals i v }
    | [] => .stuck
  | .i32Add, σ =>
    match σ.stack with
    | .i32 b :: .i32 a :: vs => .next { σ with stack := .i32 (a + b) :: vs }
    | _ => .stuck
  | .i32Sub, σ =>
    match σ.stack with
    | .i32 b :: .i32 a :: vs => .next { σ with stack := .i32 (a - b) :: vs }
    | _ => .stuck
  | .long op, σ =>
    match σ.stack with
    | .i64 b :: .i64 a :: vs => (op.eval a b).elim (.trap σ.world) fun c => .next { σ with stack := .i64 c :: vs }
    | _ => .stuck
  | .compare op, σ =>
    match σ.stack with
    | .i64 b :: .i64 a :: vs => .next { σ with stack := .i32 (if op.eval a b then 1#32 else 0#32) :: vs }
    | _ => .stuck
  | .i32WrapI64, σ =>
    match σ.stack with
    | .i64 a :: vs => .next { σ with stack := .i32 (a.setWidth 32) :: vs }
    | _ => .stuck
  | .i32Store8, σ =>
    match σ.stack with
    | .i32 v :: .i32 a :: vs =>
      if a.toNat + 1 ≤ σ.world.size then .next { σ with stack := vs, world := σ.world.setByte a.toNat v }
      else .trap σ.world
    | _ => .stuck

end Aipl.Lib.Wasm
