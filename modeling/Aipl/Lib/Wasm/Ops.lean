import Aipl.Lib.Memory
import Aipl.Lib.Wasm.Code

/-! # Library — WebAssembly's plain instructions

Constants, locals, the 32-bit arithmetic and comparisons, and the memory instructions, with their
meaning on a world that holds a linear memory.  Nothing here names a program.

* `Op.sem` — what one instruction does.
* `exec_ops` — a run of plain instructions, one after the other.
-/

namespace Aipl.Lib.Wasm

/-- The 32-bit operations of two operands. -/
inductive BinOp where
  | add | sub | mul | and | or | xor | shl | shrU | shrS
  | eq | ne | ltU | ltS | gtU | gtS | leU | leS | geU | geS
deriving DecidableEq, Repr

def boolVal (b : Bool) : BitVec 32 := if b then 1#32 else 0#32

/-- Shift counts are taken modulo 32. -/
def BinOp.eval (a b : BitVec 32) : BinOp → BitVec 32
  | .add => a + b
  | .sub => a - b
  | .mul => a * b
  | .and => a &&& b
  | .or => a ||| b
  | .xor => a ^^^ b
  | .shl => a <<< (b.toNat % 32)
  | .shrU => a >>> (b.toNat % 32)
  | .shrS => a.sshiftRight (b.toNat % 32)
  | .eq => boolVal (a == b)
  | .ne => boolVal (a != b)
  | .ltU => boolVal (a.ult b)
  | .ltS => boolVal (a.slt b)
  | .gtU => boolVal (b.ult a)
  | .gtS => boolVal (b.slt a)
  | .leU => boolVal (a.ule b)
  | .leS => boolVal (a.sle b)
  | .geU => boolVal (b.ule a)
  | .geS => boolVal (b.sle a)

/-- A plain instruction. -/
inductive Op where
  | i32Const (n : BitVec 32)
  | i64Const (n : BitVec 64)
  | localGet (i : Nat)
  | localSet (i : Nat)
  | localTee (i : Nat)
  | drop
  | binary (op : BinOp)
  | i32Eqz
  | i32Load
  | i32Store
  | memorySize
  | memoryGrow
  | i32AtomicRmwAdd
deriving DecidableEq, Repr

/-- The host's side of `memory.grow`: the most pages a memory may have, and the memory after a
growth it grants, which has more pages and the same bytes. -/
structure Host where
  maxPages : Nat
  grow : Mem → Nat → Option Mem
  grow_some : ∀ {m delta m'}, grow m delta = some m' →
    m'.pages = m.pages + delta ∧ m'.pages ≤ maxPages ∧ m'.byte = m.byte

/-- What a plain instruction does on a memory. -/
def Op.sem (H : Host) : Op → State Mem → Step Mem
  | .i32Const n, σ => .next { σ with stack := .i32 n :: σ.stack }
  | .i64Const n, σ => .next { σ with stack := .i64 n :: σ.stack }
  | .localGet i, σ => .next { σ with stack := σ.locals i :: σ.stack }
  | .localSet i, σ =>
    match σ.stack with
    | v :: vs => .next { σ with stack := vs, locals := Function.update σ.locals i v }
    | [] => .stuck
  | .localTee i, σ =>
    match σ.stack with
    | v :: _ => .next { σ with locals := Function.update σ.locals i v }
    | [] => .stuck
  | .drop, σ =>
    match σ.stack with
    | _ :: vs => .next { σ with stack := vs }
    | [] => .stuck
  | .binary op, σ =>
    match σ.stack with
    | .i32 b :: .i32 a :: vs => .next { σ with stack := .i32 (op.eval a b) :: vs }
    | _ => .stuck
  | .i32Eqz, σ =>
    match σ.stack with
    | .i32 a :: vs => .next { σ with stack := .i32 (boolVal (a == 0#32)) :: vs }
    | _ => .stuck
  | .i32Load, σ =>
    match σ.stack with
    | .i32 a :: vs =>
      if a.toNat + 4 ≤ σ.world.size then
        .next { σ with stack := .i32 (σ.world.word32 a.toNat) :: vs }
      else .trap σ.world
    | _ => .stuck
  | .i32Store, σ =>
    match σ.stack with
    | .i32 v :: .i32 a :: vs =>
      if a.toNat + 4 ≤ σ.world.size then
        .next { σ with stack := vs, world := σ.world.setWord32 a.toNat v }
      else .trap σ.world
    | _ => .stuck
  | .memorySize, σ =>
    .next { σ with stack := .i32 (BitVec.ofNat 32 σ.world.pages) :: σ.stack }
  | .memoryGrow, σ =>
    match σ.stack with
    | .i32 n :: vs =>
      (H.grow σ.world n.toNat).elim (.next { σ with stack := .i32 (-1#32) :: vs }) fun m =>
        .next { σ with stack := .i32 (BitVec.ofNat 32 σ.world.pages) :: vs, world := m }
    | _ => .stuck
  | .i32AtomicRmwAdd, σ =>
    match σ.stack with
    | .i32 v :: .i32 a :: vs =>
      if a.toNat + 4 ≤ σ.world.size ∧ 4 ∣ a.toNat then
        .next { σ with stack := .i32 (σ.world.word32 a.toNat) :: vs
                       world := σ.world.setWord32 a.toNat (σ.world.word32 a.toNat + v) }
      else .trap σ.world
    | _ => .stuck

/-- Plain instructions, one after the other. -/
def Op.semAll (H : Host) : List Op → State Mem → Step Mem
  | [], σ => .next σ
  | op :: ops, σ =>
    match op.sem H σ with
    | .next σ' => Op.semAll H ops σ'
    | s => s

/-- The code of plain instructions, in order. -/
def ops (l : List Op) : Code Op := Code.ofList (l.map Code.prim)

end Aipl.Lib.Wasm
