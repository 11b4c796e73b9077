import Aipl.Lib.Wasm.Ints
import Aipl.Lib.Wasm.Runs

/-! # Checked arithmetic

What `compile_checked` emits for `checked.add`, `checked.sub` and `checked.mul`.  The plain instructions it
uses are among those of the program, and the operands are given by their code.

* `runs_checked_i32`, `runs_checked_i64` — the emitted code leaves the exact result, or traps.
* `checked_exact` — it traps exactly when the result is out of range, and always for an overflow; its own
  division overflows for one product, which is out of range.
-/

namespace Aipl.Compiler.Checked

open Aipl.Lib Aipl.Lib.Wasm

/-- What a host says of a trap. -/
inductive TrapReason where
  | integerDivideByZero
  | integerOverflow

/-- The plain instructions of checked arithmetic. -/
inductive CheckedIns where
  | i32Const (n : BitVec 32)
  | i64Const (n : BitVec 64)
  | localGet (i : Nat)
  | localSet (i : Nat)
  | localTee (i : Nat)
  | drop
  | i32DivS
  | i64ExtendI32S
  | i32WrapI64
  | i64Add
  | i64Sub
  | i64Mul
  | i64DivS
  | i64Xor
  | i64And
  | i64GeU
  | i64LtS
  | i64Ne

variable {P W : Type}

def ofBool (b : Bool) : Val := .i32 (if b then 1#32 else 0#32)

/-- A signed division; `report` is what the host keeps of a trap. -/
def divS {w : Nat} (report : TrapReason → W → W) (σ : State W) (a b : BitVec w) (val : BitVec w → Val) :
    Step W :=
  if b = 0#w then .trap (report .integerDivideByZero σ.world)
  else match idivS a b with
    | some q => .next { σ with stack := val q :: σ.stack.drop 2 }
    | none => .trap (report .integerOverflow σ.world)

/-- An instruction of two `i64` operands that does not trap. -/
def binary64 (σ : State W) (f : BitVec 64 → BitVec 64 → Val) : Step W :=
  match σ.stack with
  | .i64 b :: .i64 a :: vs => .next { σ with stack := f a b :: vs }
  | _ => .stuck

def CheckedIns.sem (report : TrapReason → W → W) : CheckedIns → State W → Step W
  | .i32Const n, σ => .next { σ with stack := .i32 n :: σ.stack }
  | .i64Const n, σ => .next { σ with stack := .i64 n :: σ.stack }
  | .localGet i, σ => .next { σ with stack := σ.locals i :: σ.stack }
  | .localSet i, σ =>
    match σ.stack with
    | v :: vs => .next { σ with stack := vs, locals := Function.update σ.locals i v }
    | [] => .stuck
  | .localTee i, σ =>
    match σ.stack with
    | v :: _ => .next { σ with locals := Function.update σ.locals i v }
    | [] => .stuck
  | .drop, σ =>
    match σ.stack with
    | _ :: vs => .next { σ with stack := vs }
    | [] => .stuck
  | .i32DivS, σ =>
    match σ.stack with
    | .i32 b :: .i32 a :: _ => divS report σ a b .i32
    | _ => .stuck
  | .i64ExtendI32S, σ =>
    match σ.stack with
    | .i32 n :: vs => .next { σ with stack := .i64 (n.signExtend 64) :: vs }
    | _ => .stuck
  | .i32WrapI64, σ =>
    match σ.stack with
    | .i64 n :: vs => .next { σ with stack := .i32 (n.setWidth 32) :: vs }
    | _ => .stuck
  | .i64Add, σ => binary64 σ fun a b => .i64 (iadd a b)
  | .i64Sub, σ => binary64 σ fun a b => .i64 (isub a b)
  | .i64Mul, σ => binary64 σ fun a b => .i64 (imul a b)
  | .i64DivS, σ =>
    match σ.stack with
    | .i64 b :: .i64 a :: _ => divS report σ a b .i64
    | _ => .stuck
  | .i64Xor, σ => binary64 σ fun a b => .i64 (a ^^^ b)
  | .i64And, σ => binary64 σ fun a b => .i64 (a &&& b)
  | .i64GeU, σ => binary64 σ fun a b => ofBool (b.ule a)
  | .i64LtS, σ => binary64 σ fun a b => ofBool (a.slt b)
  | .i64Ne, σ => binary64 σ fun a b => ofBool (a != b)

/-! ### The emitted code -/

inductive OpCode where
  | CheckedAdd
  | CheckedSub
  | CheckedMul
deriving DecidableEq

/-- The type of the operands. -/
inductive OperandType where
  | I32
  | I64

/-- The slots of the hidden locals `#ck_a`, `#ck_b`, `#ck_r`. -/
structure CheckedLocals where
  a : Nat
  b : Nat
  r : Nat

/-- Plain instructions, in order. -/
def plain (ins : CheckedIns → P) (l : List CheckedIns) : Code P := Code.ofList (l.map fun i => .prim (ins i))

/-- The trap is a division that overflows. -/
def trapIf (ins : CheckedIns → P) : Code P :=
  .ite 0 (plain ins [.i32Const (BitVec.intMin 32), .i32Const (-1#32), .i32DivS, .drop]) .nop

/-- The instruction of an operation, at `i64`. -/
def OpCode.ins : OpCode → CheckedIns
  | .CheckedAdd => .i64Add
  | .CheckedSub => .i64Sub
  | .CheckedMul => .i64Mul

/-- The sign test of an `i64` sum or difference. -/
def signTest (L : CheckedLocals) (op : OpCode) : List CheckedIns :=
  [.localSet L.r, .localGet L.a, .localGet (if op = .CheckedAdd then L.r else L.b), .i64Xor,
    .localGet (if op = .CheckedAdd then L.b else L.a), .localGet L.r, .i64Xor, .i64And, .i64Const 0#64, .i64LtS]

/-- The quotient that an `i64` product is tested by. -/
def quotient (L : CheckedLocals) : List CheckedIns := [.localGet L.r, .localGet L.a, .i64DivS]

/-- The test of an `i64` product whose first operand is not 0. -/
def mulTest (ins : CheckedIns → P) (L : CheckedLocals) : Code P :=
  Code.ofList [plain ins (quotient L), plain ins [.localGet L.b, .i64Ne], trapIf ins]

/-- `compile_checked`, with the code of the operands. -/
def compileChecked (ins : CheckedIns → P) (L : CheckedLocals) (op : OpCode) (x y : Code P) :
    OperandType → Code P
  | .I32 =>
    Code.ofList [x, .prim (ins .i64ExtendI32S), y, .prim (ins .i64ExtendI32S),
      plain ins [op.ins, .localTee L.r, .i64Const 2147483648#64, .i64Add, .i64Const 4294967296#64, .i64GeU],
      trapIf ins, plain ins [.localGet L.r, .i32WrapI64]]
  | .I64 =>
    Code.ofList [x, y, plain ins [.localSet L.b, .localSet L.a, .localGet L.a, .localGet L.b],
      match op with
      | .CheckedAdd | .CheckedSub =>
        Code.ofList [plain ins (op.ins :: signTest L op), trapIf ins]
      | .CheckedMul =>
        Code.ofList [plain ins [.i64Mul, .localSet L.r, .localGet L.a, .i64Const 0#64, .i64Ne],
          .ite 0 (mulTest ins L) .nop],
      plain ins [.localGet L.r]]

/-! ### What it does -/

/-- The exact result. -/
def OpCode.exact : OpCode → Int → Int → Int
  | .CheckedAdd, a, b => a + b
  | .CheckedSub, a, b => a - b
  | .CheckedMul, a, b => a * b

structure CheckedLocals.Distinct (L : CheckedLocals) : Prop where
  ab : L.a ≠ L.b
  ar : L.a ≠ L.r
  br : L.b ≠ L.r

/-- The instructions of checked arithmetic are among the program's. -/
def HasCheckedIns (E : Env P W) (ins : CheckedIns → P) (report : TrapReason → W → W) : Prop :=
  ∀ i σ, E.sem (ins i) σ = i.sem report σ

/-- The code of an operand: it pushes its value, and may change the locals and the world. -/
def Evaluates (E : Env P W) (c : Code P) (l : Nat → Val) (w : W) (v : Val) (l' : Nat → Val) (w' : W) : Prop :=
  ∀ below, Runs E c ⟨below, l, w⟩ (.next ⟨v :: below, l', w'⟩)

/-- Code whose operands leave `l` and `w`: it pushes `v` where `fits`, with no local changed but the hidden
ones, and traps for an overflow elsewhere. -/
structure Checks (E : Env P W) (report : TrapReason → W → W) (L : CheckedLocals) (c : Code P) (σ : State W)
    (l : Nat → Val) (w : W) (fits : Prop) (v : Val) : Prop where
  leaves : fits → ∃ l', (∀ i, i ≠ L.a → i ≠ L.b → i ≠ L.r → l' i = l i) ∧
    Runs E c σ (.next ⟨v :: σ.stack, l', w⟩)
  traps : ¬ fits → Runs E c σ (.trap (report .integerOverflow w))

variable {E : Env P W} {ins : CheckedIns → P} {report : TrapReason → W → W} {L : CheckedLocals}
  {op : OpCode} {x y c : Code P} {l l₁ l₂ : Nat → Val} {w w₁ w₂ : W} {below : List Val} {σ σ' : State W}
  {o : Out W}

theorem semAll_ins (hE : HasCheckedIns E ins report) : ∀ (is : List CheckedIns) (σ : State W),
    semAll E.sem (is.map ins) σ = semAll (CheckedIns.sem report) is σ
  | [], _ => rfl
  | i :: is, σ => by
      rw [List.map_cons, semAll, semAll, hE]
      cases i.sem report σ with
      | next σ' => exact semAll_ins hE is σ'
      | trap w => rfl
      | stuck => rfl

theorem runs_ins (hE : HasCheckedIns E ins report) (is : List CheckedIns) (σ : State W) :
    Runs E (plain ins is) σ (semAll (CheckedIns.sem report) is σ).toOut := by
  have hrun := runs_plain (E := E) (is.map ins) σ
  rwa [List.map_map, semAll_ins hE] at hrun

/-- Plain instructions that go on. -/
theorem runs_ins_seq (hE : HasCheckedIns E ins report) (is : List CheckedIns)
    (h : semAll (CheckedIns.sem report) is σ = .next σ') :
    Runs E (.seq (plain ins is) c) σ o ↔ Runs E c σ' o := by
  have hrun := runs_ins hE is σ
  rw [h] at hrun
  exact runs_seq_next hrun

theorem runs_in_seq (hE : HasCheckedIns E ins report) (i : CheckedIns) (h : i.sem report σ = .next σ') :
    Runs E (.seq (.prim (ins i)) c) σ o ↔ Runs E c σ' o := by
  refine runs_seq_next (runs_of_exec (fun next => ?_) fun h => by cases h)
  rw [exec_prim, hE, h]
  rfl

/-- **The trap** is for an overflow. -/
theorem runs_trapIf (hE : HasCheckedIns E ins report) :
    Runs E (trapIf ins) ⟨ofBool true :: below, l, w⟩ (.trap (report .integerOverflow w)) := by
  have hquot : idivS (BitVec.intMin 32) (-1#32) = none := by decide
  have hrun := runs_ins hE [.i32Const (BitVec.intMin 32), .i32Const (-1#32), .i32DivS, .drop] ⟨[], l, w⟩
  have hsem : semAll (CheckedIns.sem report)
      [.i32Const (BitVec.intMin 32), .i32Const (-1#32), .i32DivS, .drop] ⟨[], l, w⟩
      = .trap (report .integerOverflow w) := by
    simp only [semAll, CheckedIns.sem, divS, hquot]
    rfl
  rw [hsem] at hrun
  exact runs_ite_then (by decide) hrun

theorem runs_not_trapIf : Runs E (trapIf ins) ⟨ofBool false :: below, l, w⟩ (.next ⟨below, l, w⟩) :=
  runs_ite_skip

/-! ### At `i32` -/

theorem toInt_signExtend (a : BitVec 32) : (a.signExtend 64).toInt = a.toInt :=
  BitVec.toInt_signExtend_of_le (by decide)

/-- In 64 bits the result is exact. -/
theorem exact_extend (report : TrapReason → W → W) (op : OpCode) (a b : BitVec 32) : ∃ n : BitVec 64,
    n.toInt = op.exact a.toInt b.toInt ∧ -2 ^ 62 ≤ n.toInt ∧ n.toInt ≤ 2 ^ 62 ∧
    ∀ (l : Nat → Val) (w : W) (below : List Val),
      op.ins.sem report ⟨.i64 (b.signExtend 64) :: .i64 (a.signExtend 64) :: below, l, w⟩
        = .next ⟨.i64 n :: below, l, w⟩ := by
  have ha := toInt_inRange a
  have hb := toInt_inRange b
  simp only [InRange] at ha hb
  cases op with
  | CheckedAdd =>
    have hsum : (a.signExtend 64 + b.signExtend 64).toInt = a.toInt + b.toInt := by
      rw [BitVec.toInt_add, toInt_signExtend, toInt_signExtend, Int.bmod_eq_of_le_mul_two] <;> omega
    refine ⟨_, hsum, by omega, by omega, fun l w below => ?_⟩
    rw [← iadd_eq]
    rfl
  | CheckedSub =>
    have hdiff : (a.signExtend 64 - b.signExtend 64).toInt = a.toInt - b.toInt := by
      rw [BitVec.toInt_sub, toInt_signExtend, toInt_signExtend, Int.bmod_eq_of_le_mul_two] <;> omega
    refine ⟨_, hdiff, by omega, by omega, fun l w below => ?_⟩
    rw [← isub_eq]
    rfl
  | CheckedMul =>
    have habs : (a.toInt * b.toInt).natAbs ≤ 2 ^ 31 * 2 ^ 31 := by
      rw [Int.natAbs_mul]
      exact Nat.mul_le_mul (by omega) (by omega)
    have hprod : (a.signExtend 64 * b.signExtend 64).toInt = a.toInt * b.toInt := by
      rw [BitVec.toInt_mul, toInt_signExtend, toInt_signExtend, Int.bmod_eq_of_le_mul_two] <;> omega
    refine ⟨_, hprod, by omega, by omega, fun l w below => ?_⟩
    rw [← imul_eq]
    rfl

/-- The test: the result, moved up, is below `2 ^ 32`. -/
theorem range_test {n : BitVec 64} (hlo : -2 ^ 62 ≤ n.toInt) (hhi : n.toInt ≤ 2 ^ 62) :
    (4294967296#64).ule (n + 2147483648#64) = true ↔ ¬ InRange 32 n.toInt := by
  have h31 : (2147483648#64).toInt = 2147483648 := rfl
  have hsum : (n + 2147483648#64).toInt = n.toInt + 2147483648 := by
    rw [BitVec.toInt_add, h31, Int.bmod_eq_of_le_mul_two] <;> omega
  have hcond := BitVec.toInt_eq_toNat_cond (n + 2147483648#64)
  have h32 : (4294967296#64).toNat = 4294967296 := rfl
  rw [BitVec.ule_eq_decide, decide_eq_true_eq, h32, InRange]
  split at hcond <;> omega

theorem setWidth_eq_ofInt (n : BitVec 64) : n.setWidth 32 = BitVec.ofInt 32 n.toInt := by
  apply BitVec.eq_of_toInt_eq
  rw [BitVec.toInt_setWidth, BitVec.toInt_ofInt, BitVec.toInt_eq_toNat_bmod]
  exact (Int.bmod_bmod_of_dvd (by decide)).symm

/-- **At `i32`** the emitted code leaves the exact result, or traps. -/
theorem runs_checked_i32 (hE : HasCheckedIns E ins report) {a b : BitVec 32}
    (hx : Evaluates E x l w (.i32 a) l₁ w₁) (hy : Evaluates E y l₁ w₁ (.i32 b) l₂ w₂) :
    Checks E report L (compileChecked ins L op x y .I32) ⟨below, l, w⟩ l₂ w₂
      (InRange 32 (op.exact a.toInt b.toInt)) (.i32 (BitVec.ofInt 32 (op.exact a.toInt b.toInt))) := by
  obtain ⟨n, hn, hlo, hhi, hop⟩ := exact_extend report op a b
  have htest := range_test hlo hhi
  have hrun : ∀ o, Runs E (.seq (trapIf ins) (.seq (plain ins [.localGet L.r, .i32WrapI64]) .nop))
      ⟨ofBool ((4294967296#64).ule (n + 2147483648#64)) :: below, Function.update l₂ L.r (.i64 n), w₂⟩ o →
      Runs E (compileChecked ins L op x y .I32) ⟨below, l, w⟩ o := by
    intro o ho
    refine (runs_seq_next (hx below)).mpr ?_
    refine (runs_in_seq hE .i64ExtendI32S rfl).mpr ?_
    refine (runs_seq_next (hy _)).mpr ?_
    refine (runs_in_seq hE .i64ExtendI32S rfl).mpr ?_
    refine (runs_ins_seq hE _ ?_).mpr ho
    rw [semAll, hop, ← iadd_eq]
    rfl
  rw [← hn]
  constructor
  · intro hfits
    refine ⟨Function.update l₂ L.r (.i64 n), fun i _ _ hr => Function.update_of_ne hr _ _, hrun _ ?_⟩
    rw [Bool.eq_false_iff.mpr (mt htest.mp (not_not.mpr hfits))]
    refine (runs_seq_next runs_not_trapIf).mpr ((runs_ins_seq hE _ ?_).mpr runs_nop)
    simp only [semAll, CheckedIns.sem, Function.update_self]
    rw [setWidth_eq_ofInt]
  · intro hfits
    refine hrun _ ?_
    rw [htest.mpr hfits]
    exact runs_seq_out (runs_trapIf hE) fun _ h => by cases h

/-! ### At `i64` -/

/-- The locals with the operands in their slots. -/
def CheckedLocals.operands (L : CheckedLocals) (l : Nat → Val) (a b : BitVec 64) : Nat → Val :=
  Function.update (Function.update l L.b (.i64 b)) L.a (.i64 a)

/-- The locals with the operands and the result in their slots. -/
def CheckedLocals.result (L : CheckedLocals) (l : Nat → Val) (a b n : BitVec 64) : Nat → Val :=
  Function.update (L.operands l a b) L.r (.i64 n)

section Slots

variable (l) {a b n : BitVec 64}

@[simp] theorem operands_a : L.operands l a b L.a = .i64 a := Function.update_self ..

theorem operands_b (hL : L.Distinct) : L.operands l a b L.b = .i64 b := by
  rw [CheckedLocals.operands, Function.update_of_ne hL.ab.symm, Function.update_self]

@[simp] theorem result_r : L.result l a b n L.r = .i64 n := Function.update_self ..

theorem result_a (hL : L.Distinct) : L.result l a b n L.a = .i64 a := by
  rw [CheckedLocals.result, Function.update_of_ne hL.ar, operands_a]

theorem result_b (hL : L.Distinct) : L.result l a b n L.b = .i64 b := by
  rw [CheckedLocals.result, Function.update_of_ne hL.br, operands_b l hL]

theorem result_of_ne {i : Nat} (ha : i ≠ L.a) (hb : i ≠ L.b) (hr : i ≠ L.r) : L.result l a b n i = l i := by
  rw [CheckedLocals.result, Function.update_of_ne hr, CheckedLocals.operands, Function.update_of_ne ha,
    Function.update_of_ne hb]

end Slots

/-- The operands are kept, and pushed again. -/
theorem runs_operands (hE : HasCheckedIns E ins report) (hL : L.Distinct) {a b : BitVec 64}
    (hx : Evaluates E x l w (.i64 a) l₁ w₁) (hy : Evaluates E y l₁ w₁ (.i64 b) l₂ w₂)
    (h : Runs E c ⟨.i64 b :: .i64 a :: below, L.operands l₂ a b, w₂⟩ o) :
    Runs E (.seq x (.seq y (.seq (plain ins [.localSet L.b, .localSet L.a, .localGet L.a, .localGet L.b]) c)))
      ⟨below, l, w⟩ o := by
  refine (runs_seq_next (hx below)).mpr ((runs_seq_next (hy _)).mpr ((runs_ins_seq hE _ ?_).mpr h))
  simp only [semAll, CheckedIns.sem]
  rw [← CheckedLocals.operands, operands_a, operands_b l₂ hL]

/-- Operands, a test that leaves the result in its slot or traps, and the result. -/
theorem checks_of_test {a b n : BitVec 64} {test : Code P} {fits : Prop}
    (hE : HasCheckedIns E ins report) (hL : L.Distinct)
    (hx : Evaluates E x l w (.i64 a) l₁ w₁) (hy : Evaluates E y l₁ w₁ (.i64 b) l₂ w₂)
    (hpass : fits → Runs E test ⟨.i64 b :: .i64 a :: below, L.operands l₂ a b, w₂⟩
      (.next ⟨below, L.result l₂ a b n, w₂⟩))
    (htrap : ¬ fits → Runs E test ⟨.i64 b :: .i64 a :: below, L.operands l₂ a b, w₂⟩
      (.trap (report .integerOverflow w₂))) :
    Checks E report L
      (Code.ofList [x, y, plain ins [.localSet L.b, .localSet L.a, .localGet L.a, .localGet L.b], test,
        plain ins [.localGet L.r]])
      ⟨below, l, w⟩ l₂ w₂ fits (.i64 n) := by
  constructor
  · intro hfits
    refine ⟨L.result l₂ a b n, fun i ha hb hr => result_of_ne l₂ ha hb hr, runs_operands hE hL hx hy ?_⟩
    refine (runs_seq_next (hpass hfits)).mpr ((runs_ins_seq hE _ ?_).mpr runs_nop)
    simp [semAll, CheckedIns.sem]
  · intro hfits
    exact runs_operands hE hL hx hy (runs_seq_out (htrap hfits) fun _ h => by cases h)

/-- The outcome of a trap's condition. -/
theorem runs_trapIf_iff {fits : Prop} {c : Bool} (hE : HasCheckedIns E ins report) (hc : c = true ↔ ¬ fits)
    (below : List Val) (l : Nat → Val) (w : W) :
    (fits → Runs E (trapIf ins) ⟨ofBool c :: below, l, w⟩ (.next ⟨below, l, w⟩)) ∧
      (¬ fits → Runs E (trapIf ins) ⟨ofBool c :: below, l, w⟩ (.trap (report .integerOverflow w))) := by
  constructor
  · intro hfits
    rw [Bool.eq_false_iff.mpr (mt hc.mp (not_not.mpr hfits))]
    exact runs_not_trapIf
  · intro hfits
    rw [hc.mpr hfits]
    exact runs_trapIf hE

/-- A sum or difference whose sign test is `c`. -/
theorem checks_of_signTest {a b n : BitVec 64} {c : Bool} {fits : Prop}
    (hE : HasCheckedIns E ins report) (hL : L.Distinct)
    (hx : Evaluates E x l w (.i64 a) l₁ w₁) (hy : Evaluates E y l₁ w₁ (.i64 b) l₂ w₂)
    (hop : semAll (CheckedIns.sem report) (op.ins :: signTest L op)
      ⟨.i64 b :: .i64 a :: below, L.operands l₂ a b, w₂⟩ = .next ⟨ofBool c :: below, L.result l₂ a b n, w₂⟩)
    (hc : c = true ↔ ¬ fits) :
    Checks E report L
      (Code.ofList [x, y, plain ins [.localSet L.b, .localSet L.a, .localGet L.a, .localGet L.b],
        Code.ofList [plain ins (op.ins :: signTest L op), trapIf ins], plain ins [.localGet L.r]])
      ⟨below, l, w⟩ l₂ w₂ fits (.i64 n) := by
  obtain ⟨hpass, htrap⟩ := runs_trapIf_iff hE hc below (L.result l₂ a b n) w₂
  refine checks_of_test hE hL hx hy (fun hfits => ?_) fun hfits => ?_
  · exact (runs_ins_seq hE _ hop).mpr (runs_seq_nop.mpr (hpass hfits))
  · exact (runs_ins_seq hE _ hop).mpr (runs_seq_nop.mpr (htrap hfits))

theorem checks_add (hE : HasCheckedIns E ins report) (hL : L.Distinct) {a b : BitVec 64}
    (hx : Evaluates E x l w (.i64 a) l₁ w₁) (hy : Evaluates E y l₁ w₁ (.i64 b) l₂ w₂) :
    Checks E report L (compileChecked ins L .CheckedAdd x y .I64) ⟨below, l, w⟩ l₂ w₂
      (InRange 64 (a.toInt + b.toInt)) (.i64 (a + b)) := by
  refine checks_of_signTest hE hL hx hy ?_ (c := a.saddOverflow b) ?_
  · simp only [semAll, OpCode.ins, signTest, CheckedIns.sem, binary64, iadd_eq, if_true]
    rw [← CheckedLocals.result]
    simp only [result_r, result_a l₂ hL, result_b l₂ hL, add_test]
  · rw [← not_saddOverflow_iff, Bool.not_eq_false]

theorem checks_sub (hE : HasCheckedIns E ins report) (hL : L.Distinct) {a b : BitVec 64}
    (hx : Evaluates E x l w (.i64 a) l₁ w₁) (hy : Evaluates E y l₁ w₁ (.i64 b) l₂ w₂) :
    Checks E report L (compileChecked ins L .CheckedSub x y .I64) ⟨below, l, w⟩ l₂ w₂
      (InRange 64 (a.toInt - b.toInt)) (.i64 (a - b)) := by
  refine checks_of_signTest hE hL hx hy ?_ (c := a.ssubOverflow b) ?_
  · simp only [semAll, OpCode.ins, signTest, CheckedIns.sem, binary64, isub_eq, reduceCtorEq, if_false]
    rw [← CheckedLocals.result]
    simp only [result_r, result_a l₂ hL, result_b l₂ hL, sub_test]
  · rw [← not_ssubOverflow_iff, Bool.not_eq_false]

/-- The division of the test. -/
theorem sem_quotient {a n : BitVec 64} (ha : l L.a = .i64 a) (hn : l L.r = .i64 n) (hne : a ≠ 0#64) :
    semAll (CheckedIns.sem report) (quotient L) ⟨below, l, w⟩ =
      match idivS n a with
      | some q => .next ⟨.i64 q :: below, l, w⟩
      | none => .trap (report .integerOverflow w) := by
  simp only [quotient, semAll, CheckedIns.sem, ha, hn, divS, if_neg hne]
  cases idivS n a <;> rfl

theorem checks_mul (hE : HasCheckedIns E ins report) (hL : L.Distinct) {a b : BitVec 64}
    (hx : Evaluates E x l w (.i64 a) l₁ w₁) (hy : Evaluates E y l₁ w₁ (.i64 b) l₂ w₂) :
    Checks E report L (compileChecked ins L .CheckedMul x y .I64) ⟨below, l, w⟩ l₂ w₂
      (InRange 64 (a.toInt * b.toInt)) (.i64 (imul a b)) := by
  have hstart : semAll (CheckedIns.sem report) [.i64Mul, .localSet L.r, .localGet L.a, .i64Const 0#64, .i64Ne]
      ⟨.i64 b :: .i64 a :: below, L.operands l₂ a b, w₂⟩
      = .next ⟨ofBool (a != 0#64) :: below, L.result l₂ a b (imul a b), w₂⟩ := by
    simp only [semAll, CheckedIns.sem, binary64]
    rw [← CheckedLocals.result]
    simp only [result_a l₂ hL]
  by_cases hzero : a = 0#64
  · -- there is nothing to test
    subst hzero
    have hfits : InRange 64 ((0#64).toInt * b.toInt) := by
      rw [BitVec.toInt_zero, Int.zero_mul]
      exact ⟨by decide, by decide⟩
    refine checks_of_test hE hL hx hy (fun _ => ?_) fun hnot => absurd hfits hnot
    exact (runs_ins_seq hE _ hstart).mpr (runs_seq_nop.mpr runs_ite_skip)
  · have hcond : ofBool (a != 0#64) = .i32 1#32 := by
      rw [bne_iff_ne.mpr hzero]
      rfl
    rw [hcond] at hstart
    have htest := mul_test (w := 64) (y := b) (by decide) hzero
    have hquot : ∀ below, semAll (CheckedIns.sem report) (quotient L)
        ⟨below, L.result l₂ a b (imul a b), w₂⟩ = _ :=
      fun below => sem_quotient (result_a l₂ hL) (result_r l₂) hzero
    obtain ⟨hpass, htrap⟩ : (InRange 64 (a.toInt * b.toInt) →
        Runs E (mulTest ins L) ⟨[], L.result l₂ a b (imul a b), w₂⟩
          (.next ⟨[], L.result l₂ a b (imul a b), w₂⟩)) ∧
        (¬ InRange 64 (a.toInt * b.toInt) →
          Runs E (mulTest ins L) ⟨[], L.result l₂ a b (imul a b), w₂⟩
            (.trap (report .integerOverflow w₂))) := by
      cases hdiv : idivS (imul a b) a with
      | none =>
        -- the division itself overflows
        rw [hdiv] at htest
        refine ⟨fun hfits => ?_, fun _ => ?_⟩
        · cases htest.mpr hfits
        · have hrun := runs_ins hE (quotient L) ⟨[], L.result l₂ a b (imul a b), w₂⟩
          rw [hquot, hdiv] at hrun
          exact runs_seq_out hrun fun _ h => by cases h
      | some q =>
        have hnext := hquot []
        rw [hdiv] at hnext htest
        have hcompare : semAll (CheckedIns.sem report) [.localGet L.b, .i64Ne]
            ⟨[.i64 q], L.result l₂ a b (imul a b), w₂⟩
            = .next ⟨[ofBool (q != b)], L.result l₂ a b (imul a b), w₂⟩ := by
          simp only [semAll, CheckedIns.sem, binary64, result_b l₂ hL]
        have hne : (q != b) = true ↔ ¬ InRange 64 (a.toInt * b.toInt) := by
          rw [bne_iff_ne, ← htest, Option.some_inj]
        obtain ⟨hpass, htrap⟩ := runs_trapIf_iff hE hne [] (L.result l₂ a b (imul a b)) w₂
        have hrun : ∀ {o}, Runs E (trapIf ins) ⟨[ofBool (q != b)], L.result l₂ a b (imul a b), w₂⟩ o →
            Runs E (mulTest ins L) ⟨[], L.result l₂ a b (imul a b), w₂⟩ o := fun h =>
          (runs_ins_seq hE _ hnext).mpr ((runs_ins_seq hE _ hcompare).mpr (runs_seq_nop.mpr h))
        exact ⟨fun hfits => hrun (hpass hfits), fun hfits => hrun (htrap hfits)⟩
    refine checks_of_test hE hL hx hy (fun hfits => ?_) fun hfits => ?_
    · refine (runs_ins_seq hE _ hstart).mpr (runs_seq_nop.mpr ?_)
      exact runs_ite_then (by decide) (hpass hfits)
    · refine (runs_ins_seq hE _ hstart).mpr (runs_seq_nop.mpr ?_)
      exact runs_ite_then (by decide) (htrap hfits)

/-- **At `i64`** the emitted code leaves the exact result, or traps. -/
theorem runs_checked_i64 (hE : HasCheckedIns E ins report) (hL : L.Distinct) {a b : BitVec 64}
    (hx : Evaluates E x l w (.i64 a) l₁ w₁) (hy : Evaluates E y l₁ w₁ (.i64 b) l₂ w₂) :
    Checks E report L (compileChecked ins L op x y .I64) ⟨below, l, w⟩ l₂ w₂
      (InRange 64 (op.exact a.toInt b.toInt)) (.i64 (BitVec.ofInt 64 (op.exact a.toInt b.toInt))) := by
  cases op with
  | CheckedAdd =>
    rw [OpCode.exact, BitVec.ofInt_add, BitVec.ofInt_toInt, BitVec.ofInt_toInt]
    exact checks_add hE hL hx hy
  | CheckedSub =>
    rw [OpCode.exact, Int.sub_eq_add_neg, BitVec.ofInt_add, BitVec.ofInt_neg, BitVec.ofInt_toInt,
      BitVec.ofInt_toInt, ← BitVec.sub_eq_add_neg, ← Int.sub_eq_add_neg]
    exact checks_sub hE hL hx hy
  | CheckedMul =>
    rw [OpCode.exact, BitVec.ofInt_mul, BitVec.ofInt_toInt, BitVec.ofInt_toInt, ← imul_eq]
    exact checks_mul hE hL hx hy

/-! ### The division of the test -/

/-- The division that tests a product ends with a quotient. -/
def DivisionEnds (E : Env P W) (ins : CheckedIns → P) (L : CheckedLocals) (a b : BitVec 64) : Prop :=
  ∀ below l w, l L.a = .i64 a → l L.r = .i64 (imul a b) →
    ∃ q, Runs E (plain ins (quotient L)) ⟨below, l, w⟩ (.next ⟨.i64 q :: below, l, w⟩)

theorem idivS_imul_eq_none_iff {a b : BitVec 64} (ha : a ≠ 0#64) :
    idivS (imul a b) a = none ↔ a = -1#64 ∧ b = BitVec.intMin 64 := by
  rw [imul_eq, idivS_eq (by decide) ha]
  constructor
  · intro h
    by_cases hover : a * b = BitVec.intMin 64 ∧ a = -1#64
    · obtain ⟨hprod, rfl⟩ := hover
      refine ⟨rfl, ?_⟩
      rw [BitVec.neg_mul, BitVec.one_mul] at hprod
      rw [← BitVec.neg_neg (x := b), hprod, BitVec.neg_intMin]
    · rw [if_neg hover] at h
      cases h
  · rintro ⟨rfl, rfl⟩
    rw [if_pos]
    refine ⟨?_, rfl⟩
    rw [BitVec.neg_mul, BitVec.one_mul, BitVec.neg_intMin]

theorem divisionEnds_iff (hE : HasCheckedIns E ins report) (hL : L.Distinct) (w : W) {a b : BitVec 64}
    (ha : a ≠ 0#64) : DivisionEnds E ins L a b ↔ ¬ (a = -1#64 ∧ b = BitVec.intMin 64) := by
  rw [← idivS_imul_eq_none_iff ha]
  constructor
  · intro h hnone
    -- in locals that hold the operand and the product, the division traps
    have hla := result_a (fun _ => .i64 0#64) (b := b) (n := imul a b) (a := a) hL
    obtain ⟨q, hq⟩ := h [] _ w hla (result_r _)
    have hrun := runs_ins hE (quotient L) ⟨[], L.result (fun _ => .i64 0#64) a b (imul a b), w⟩
    rw [sem_quotient hla (result_r _) ha, hnone] at hrun
    cases hq.unique hrun
  · intro h below l w hla hlr
    obtain ⟨q, hq⟩ := Option.ne_none_iff_exists'.mp h
    have hrun := runs_ins hE (quotient L) ⟨below, l, w⟩
    rw [sem_quotient hla hlr ha, hq] at hrun
    exact ⟨q, hrun⟩

theorem Checks.trap_iff {fits : Prop} {v : Val} (h : Checks E report L c σ l w fits v) :
    (∃ w', Runs E c σ (.trap w')) ↔ ¬ fits := by
  constructor
  · rintro ⟨w', hw'⟩ hfits
    obtain ⟨l', -, hrun⟩ := h.leaves hfits
    cases hw'.unique hrun
  · intro hfits
    exact ⟨_, h.traps hfits⟩

/-- **Checked arithmetic.**  Whatever the operands' code does, the emitted code traps exactly when the result
is out of range, and then for an overflow; otherwise it leaves the exact result, and no local is changed but
the hidden ones.  The test of an `i64` product divides only by what is not 0, and its own division ends for
all operands but -1 and the least number, whose product is out of range. -/
theorem checked_exact (hE : HasCheckedIns E ins report) (hL : L.Distinct) (op : OpCode) (x y : Code P)
    (l l₁ l₂ : Nat → Val) (w w₁ w₂ : W) (below : List Val) :
    (∀ a b : BitVec 32, Evaluates E x l w (.i32 a) l₁ w₁ → Evaluates E y l₁ w₁ (.i32 b) l₂ w₂ →
      Checks E report L (compileChecked ins L op x y .I32) ⟨below, l, w⟩ l₂ w₂
          (InRange 32 (op.exact a.toInt b.toInt)) (.i32 (BitVec.ofInt 32 (op.exact a.toInt b.toInt))) ∧
        ((∃ w', Runs E (compileChecked ins L op x y .I32) ⟨below, l, w⟩ (.trap w')) ↔
          ¬ InRange 32 (op.exact a.toInt b.toInt))) ∧
    (∀ a b : BitVec 64, Evaluates E x l w (.i64 a) l₁ w₁ → Evaluates E y l₁ w₁ (.i64 b) l₂ w₂ →
      Checks E report L (compileChecked ins L op x y .I64) ⟨below, l, w⟩ l₂ w₂
          (InRange 64 (op.exact a.toInt b.toInt)) (.i64 (BitVec.ofInt 64 (op.exact a.toInt b.toInt))) ∧
        ((∃ w', Runs E (compileChecked ins L op x y .I64) ⟨below, l, w⟩ (.trap w')) ↔
          ¬ InRange 64 (op.exact a.toInt b.toInt))) ∧
    (∀ a b : BitVec 64, a ≠ 0#64 →
      (DivisionEnds E ins L a b ↔ ¬ (a = -1#64 ∧ b = BitVec.intMin 64))) ∧
    ¬ InRange 64 ((-1#64).toInt * (BitVec.intMin 64).toInt) := by
  refine ⟨fun a b hx hy => ?_, fun a b hx hy => ?_, fun a b ha => divisionEnds_iff hE hL w ha, ?_⟩
  · have hchecks : Checks E report L (compileChecked ins L op x y .I32) ⟨below, l, w⟩ l₂ w₂ _ _ :=
      runs_checked_i32 hE hx hy
    exact ⟨hchecks, hchecks.trap_iff⟩
  · have hchecks : Checks E report L (compileChecked ins L op x y .I64) ⟨below, l, w⟩ l₂ w₂ _ _ :=
      runs_checked_i64 hE hL hx hy
    exact ⟨hchecks, hchecks.trap_iff⟩
  · rintro ⟨-, hhi⟩
    revert hhi
    decide

/-- The instructions alone; the world is what the host last said of a trap. -/
def bare : Env CheckedIns (Option TrapReason) := ⟨CheckedIns.sem fun r _ => some r, fun _ => none⟩

theorem bare_ins : HasCheckedIns bare id fun r _ => some r := fun _ _ => rfl

def bareLocals : CheckedLocals := ⟨0, 1, 2⟩

theorem bareLocals_distinct : bareLocals.Distinct := ⟨by decide, by decide, by decide⟩

theorem bare_const (n : BitVec 64) (l : Nat → Val) :
    Evaluates bare (.prim (.i64Const n)) l none (.i64 n) l none :=
  fun _ => runs_of_exec (fun _ => rfl) fun h => by cases h

theorem checked_neg_one_min :
    Runs bare (compileChecked id bareLocals .CheckedMul (.prim (.i64Const (-1#64)))
        (.prim (.i64Const (BitVec.intMin 64))) .I64) ⟨[], fun _ => .i32 0#32, none⟩
      (.trap (some .integerOverflow)) := by
  have hexact := checked_exact bare_ins bareLocals_distinct .CheckedMul (.prim (.i64Const (-1#64)))
    (.prim (.i64Const (BitVec.intMin 64))) (fun _ => .i32 0#32) (fun _ => .i32 0#32) (fun _ => .i32 0#32)
    none none none []
  exact (hexact.2.1 _ _ (bare_const _ _) (bare_const _ _)).1.traps hexact.2.2.2

/-- The test's own division overflows. -/
theorem not_every_division_ends :
    ¬ ∀ a b : BitVec 64, a ≠ 0#64 → DivisionEnds bare id bareLocals a b := fun h =>
  (divisionEnds_iff bare_ins bareLocals_distinct none (by decide)).mp
    (h (-1#64) (BitVec.intMin 64) (by decide)) ⟨rfl, rfl⟩

end Aipl.Compiler.Checked
