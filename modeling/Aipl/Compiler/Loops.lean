import Aipl.Lib.Bits
import Aipl.Lib.Outcome
import Aipl.Lib.Wasm.Runs

/-! # The counted loop

`(for i start end body…)` is read as `(counted_loop i start (- end 1) 1 body…)`, and compiled to a loop
that leaves when the variable has passed the end.  The plain instructions that the loop itself uses are
among those of the program; the forms inside it are kept as the code they compile to.

* `runs_loop_iff` — with an end above the least `i32`, the loop runs its body for each number from
  `start` up to `end`, and then leaves.
* `loop_endless` — at the least `i32` the end wraps, and the loop never leaves.
* `forRuns_iff` — so a `for` does what it says exactly when its end is not the least `i32`.
-/

namespace Aipl.Compiler.Loops

open Aipl.Lib Aipl.Lib.Wasm

/-! ### The rewriting and the emitted code -/

/-- The plain instructions of a loop. -/
inductive LoopOp where
  | i32Const (n : BitVec 32)
  | localGet (i : Nat)
  | localSet (i : Nat)
  | i32Sub
  | i32Add
  | i32GtS

def LoopOp.sem {W : Type} : LoopOp → State W → Step W
  | .i32Const n, σ => .next { σ with stack := .i32 n :: σ.stack }
  | .localGet i, σ => .next { σ with stack := σ.locals i :: σ.stack }
  | .localSet i, σ =>
    match σ.stack with
    | v :: vs => .next { σ with stack := vs, locals := Function.update σ.locals i v }
    | [] => .stuck
  | .i32Sub, σ =>
    match σ.stack with
    | .i32 b :: .i32 a :: vs => .next { σ with stack := .i32 (a - b) :: vs }
    | _ => .stuck
  | .i32Add, σ =>
    match σ.stack with
    | .i32 b :: .i32 a :: vs => .next { σ with stack := .i32 (a + b) :: vs }
    | _ => .stuck
  | .i32GtS, σ =>
    match σ.stack with
    | .i32 b :: .i32 a :: vs => .next { σ with stack := .i32 (if b.slt a then 1#32 else 0#32) :: vs }
    | _ => .stuck

/-- A form of the program; one that is neither a literal, a subtraction nor a loop is given by its
code. -/
inductive Expr (P : Type) where
  | compiled (c : Code P)
  | int (i : Int)
  | sub (a b : Expr P)
  | loop (var : String) (start end_ step : Expr P) (body : List (Code P))

/-- `(for var start end_ body…)`, as a `counted_loop`. -/
def rewriteFor {P : Type} (var : String) (start end_ : Expr P) (body : List (Code P)) : Expr P :=
  .loop var start (.sub end_ (.int 1)) (.int 1) body

/-- A round of a loop: `break` is a branch to the outer block, `continue` one to the inner. -/
def roundCode {P : Type} (op : LoopOp → P) (v e s : Nat) (body : List (Code P)) : Code P :=
  Code.ofList [.prim (op (.localGet v)), .prim (op (.localGet e)), .prim (op .i32GtS), .brIf 1,
    .block 0 (Code.ofList body),
    .prim (op (.localGet v)), .prim (op (.localGet s)), .prim (op .i32Add), .prim (op (.localSet v)),
    .br 0]

/-- `compile_expr`; the variable and the hidden locals of a loop have slots. -/
def compileExpr {P : Type} (op : LoopOp → P) (locals : String → Option Nat) :
    Expr P → Option (Code P)
  | .compiled c => some c
  | .int i => some (.prim (op (.i32Const (BitVec.ofInt 32 i))))
  | .sub a b => do
    let a ← compileExpr op locals a
    let b ← compileExpr op locals b
    pure (Code.ofList [a, b, .prim (op .i32Sub)])
  | .loop var start end_ step body => do
    let v ← locals var
    let e ← locals (var ++ "#end")
    let s ← locals (var ++ "#step")
    let start ← compileExpr op locals start
    let end_ ← compileExpr op locals end_
    let step ← compileExpr op locals step
    pure (Code.ofList [start, .prim (op (.localSet v)), end_, .prim (op (.localSet e)),
      step, .prim (op (.localSet s)), .block 0 (.loop (roundCode op v e s body))])

/-! ### What a `for` should do -/

variable {P W : Type} {E : Env P W} {op : LoopOp → P} {σ : State W} {o o' : Out W}

def setLocal (σ : State W) (i : Nat) (v : Val) : State W :=
  { σ with locals := Function.update σ.locals i v }

/-- The numbers from `i` up to `e`, left out. -/
def forRange (i e : Int) : List Int := (List.range (e - i).toNat).map fun k : Nat => i + k

/-- The body for each number, in order, with the variable at it: `continue` goes on to the next
number, `break` leaves, and so does whatever else leaves the body.  After the last number the
variable, which is out of scope, is at `past`. -/
inductive Rounds (E : Env P W) (v : Nat) (body : Code P) (past : BitVec 32) :
    List Int → State W → Out W → Prop
  | done (τ : State W) : Rounds E v body past [] τ (.next (setLocal τ v (.i32 past)))
  | next {i : Int} {is : List Int} {τ τ' : State W} {o : Out W}
      (h : Runs E body (setLocal τ v (.i32 (BitVec.ofInt 32 i))) (.next τ'))
      (t : Rounds E v body past is { τ' with stack := [] } o) : Rounds E v body past (i :: is) τ o
  | continue_ {i : Int} {is : List Int} {τ τ' : State W} {o : Out W}
      (h : Runs E body (setLocal τ v (.i32 (BitVec.ofInt 32 i))) (.br 0 τ'))
      (t : Rounds E v body past is { τ' with stack := [] } o) : Rounds E v body past (i :: is) τ o
  | break_ {i : Int} {is : List Int} {τ τ' : State W}
      (h : Runs E body (setLocal τ v (.i32 (BitVec.ofInt 32 i))) (.br 2 τ')) :
      Rounds E v body past (i :: is) τ (.next τ')
  | branch {i : Int} {is : List Int} {τ τ' : State W} {n : Nat}
      (h : Runs E body (setLocal τ v (.i32 (BitVec.ofInt 32 i))) (.br (n + 3) τ')) :
      Rounds E v body past (i :: is) τ (.br n τ')
  | ret {i : Int} {is : List Int} {τ τ' : State W}
      (h : Runs E body (setLocal τ v (.i32 (BitVec.ofInt 32 i))) (.ret τ')) :
      Rounds E v body past (i :: is) τ (.ret τ')
  | trap {i : Int} {is : List Int} {τ : State W} {w : W}
      (h : Runs E body (setLocal τ v (.i32 (BitVec.ofInt 32 i))) (.trap w)) :
      Rounds E v body past (i :: is) τ (.trap w)
  | stuck {i : Int} {is : List Int} {τ : State W}
      (h : Runs E body (setLocal τ v (.i32 (BitVec.ofInt 32 i))) .stuck) :
      Rounds E v body past (i :: is) τ .stuck

/-- Falling through leaves the stack as it was below. -/
def withBelow (below : List Val) : Out W → Out W
  | .next σ => .next { σ with stack := below }
  | o => o

/-- The instructions of loops are among the program's. -/
def HasLoopOps (E : Env P W) (op : LoopOp → P) : Prop := ∀ i σ, E.sem (op i) σ = i.sem σ

/-- The variable and its hidden locals have slots of their own. -/
structure Slots (locals : String → Option Nat) (var : String) (v e s : Nat) : Prop where
  variable_ : locals var = some v
  end_ : locals (var ++ "#end") = some e
  step : locals (var ++ "#step") = some s
  ne_end : v ≠ e
  ne_step : v ≠ s
  end_ne_step : e ≠ s

/-- A body that does not assign the variable: neither its local nor the two hidden ones, which only a
loop over the variable assigns.  Its `continue` and `break` are to the inner and the outer block, so
that none of its branches is to the loop between them. -/
structure BodyOk (E : Env P W) (v e s : Nat) (body : Code P) : Prop where
  var : body.Keeps E v
  end_ : body.Keeps E e
  step : body.Keeps E s
  avoids : body.Avoids 1

/-- **What a `for` from `s` up to `e` should do**, in every program: with `start` and `end` of these
values, its code ends exactly as the body run for each number from `s` up to `e` does. -/
def ForRuns (s e : BitVec 32) : Prop :=
  ∀ (P W : Type) (E : Env P W) (op : LoopOp → P) (locals : String → Option Nat) (var : String)
    (start end_ : Expr P) (body : List (Code P)) (v ve vs : Nat) (cs ce : Code P) (σ σ₁ σ₂ : State W),
    HasLoopOps E op → Slots locals var v ve vs → BodyOk E v ve vs (Code.ofList body) →
    compileExpr op locals start = some cs → compileExpr op locals end_ = some ce →
    Runs E cs σ (.next { σ₁ with stack := .i32 s :: σ₁.stack }) →
    Runs E ce (setLocal σ₁ v (.i32 s)) (.next { σ₂ with stack := .i32 e :: σ₂.stack }) →
    σ₂.locals v = .i32 s →
    ∃ c, compileExpr op locals (rewriteFor var start end_ body) = some c ∧ ∀ o, Runs E c σ o ↔
      ∃ o', Rounds E v (Code.ofList body) (if s.slt e then e else s) (forRange s.toInt e.toInt)
        (setLocal (setLocal { σ₂ with stack := [] } ve (.i32 (e - 1#32))) vs (.i32 1#32)) o' ∧
        o = withBelow σ₂.stack o'

/-! ### Numbers in order -/

theorem forRange_empty {i e : Int} (h : e ≤ i) : forRange i e = [] := by
  rw [forRange, Int.toNat_of_nonpos (by omega)]
  rfl

theorem forRange_cons {i e : Int} (h : i < e) : forRange i e = i :: forRange (i + 1) e := by
  rw [forRange, forRange, show (e - i).toNat = (e - (i + 1)).toNat + 1 by omega,
    List.range_succ_eq_map, List.map_cons, List.map_map]
  refine congrArg₂ _ (by simp) (List.map_congr_left fun k _ => ?_)
  simp only [Function.comp_apply]
  push_cast
  omega

@[simp] theorem setLocal_self (σ : State W) (i : Nat) (v : Val) : (setLocal σ i v).locals i = v :=
  Function.update_self ..

theorem setLocal_ne (σ : State W) {i j : Nat} (v : Val) (h : j ≠ i) :
    (setLocal σ i v).locals j = σ.locals j := Function.update_of_ne h ..

@[simp] theorem setLocal_setLocal (σ : State W) (i : Nat) (v w : Val) :
    setLocal (setLocal σ i v) i w = setLocal σ i w := by
  simp [setLocal]

theorem setLocal_eq (σ : State W) {i : Nat} {v : Val} (h : σ.locals i = v) : setLocal σ i v = σ := by
  rw [setLocal, ← h, Function.update_eq_self]

/-- The rounds start by setting the variable, so what it was before does not matter. -/
theorem Rounds.setLocal_iff {v : Nat} {body : Code P} {past : BitVec 32} {is : List Int} (x : Val) :
    Rounds E v body past is (setLocal σ v x) o ↔ Rounds E v body past is σ o := by
  have hboth : ∀ {τ τ' : State W}, (∀ y, setLocal τ v y = setLocal τ' v y) →
      Rounds E v body past is τ o → Rounds E v body past is τ' o := by
    intro τ τ' heq h
    cases h with
    | done =>
      rw [heq]
      exact .done τ'
    | next h t => exact .next (heq _ ▸ h) t
    | continue_ h t => exact .continue_ (heq _ ▸ h) t
    | break_ h => exact .break_ (heq _ ▸ h)
    | branch h => exact .branch (heq _ ▸ h)
    | ret h => exact .ret (heq _ ▸ h)
    | trap h => exact .trap (heq _ ▸ h)
    | stuck h => exact .stuck (heq _ ▸ h)
  exact ⟨hboth fun y => setLocal_setLocal σ v x y, hboth fun y => (setLocal_setLocal σ v x y).symm⟩

/-! ### A round -/

section

variable (hE : HasLoopOps E op)
include hE

theorem runs_op (i : LoopOp) {σ σ' : State W} (h : i.sem σ = .next σ') :
    Runs E (.prim (op i)) σ (.next σ') := by
  refine runs_of_exec (fun next => ?_) (fun h => by cases h)
  rw [exec_prim, hE, h]
  rfl

variable {v e s : Nat} {body : List (Code P)} {i last : BitVec 32} {τ τ' : State W}

/-- The end of a round: the step is added to the variable. -/
theorem runs_step (hv : τ.locals v = .i32 i) (hs : τ.locals s = .i32 1#32) :
    Runs E (Code.ofList [.prim (op (.localGet v)), .prim (op (.localGet s)), .prim (op .i32Add),
      .prim (op (.localSet v)), .br 0]) τ (.br 0 (setLocal τ v (.i32 (i + 1#32)))) := by
  refine (runs_seq_next (runs_op hE (.localGet v) rfl)).mpr ?_
  refine (runs_seq_next (runs_op hE (.localGet s) rfl)).mpr ?_
  have hadd : LoopOp.i32Add.sem { τ with stack := τ.locals s :: τ.locals v :: τ.stack }
      = .next { τ with stack := .i32 (i + 1#32) :: τ.stack } := by
    simp only [LoopOp.sem, hv, hs]
  refine (runs_seq_next (runs_op hE .i32Add hadd)).mpr ?_
  refine (runs_seq_next (runs_op hE (.localSet v) rfl)).mpr ?_
  exact runs_seq_out (runs_of_exec (fun _ => rfl) fun h => by cases h) fun _ h => by cases h

/-- The start of a round: it leaves the loop, or goes on to the body. -/
theorem runs_test (hv : τ.locals v = .i32 i) (he : τ.locals e = .i32 last) {o : Out W} :
    Runs E (roundCode op v e s body) τ o ↔
      if last.slt i then o = .br 1 τ
      else Runs E (.seq (.block 0 (Code.ofList body)) (Code.ofList [.prim (op (.localGet v)),
        .prim (op (.localGet s)), .prim (op .i32Add), .prim (op (.localSet v)), .br 0])) τ o := by
  rw [roundCode]
  refine (runs_seq_next (runs_op hE (.localGet v) rfl)).trans ?_
  refine (runs_seq_next (runs_op hE (.localGet e) rfl)).trans ?_
  have hgt : LoopOp.i32GtS.sem { τ with stack := τ.locals e :: τ.locals v :: τ.stack }
      = .next { τ with stack := .i32 (if last.slt i then 1#32 else 0#32) :: τ.stack } := by
    simp only [LoopOp.sem, hv, he]
  refine (runs_seq_next (runs_op hE .i32GtS hgt)).trans ?_
  cases last.slt i with
  | true =>
    have hbr : Runs E (.seq (.brIf 1) (Code.ofList [.block 0 (Code.ofList body),
        .prim (op (.localGet v)), .prim (op (.localGet s)), .prim (op .i32Add),
        .prim (op (.localSet v)), .br 0])) { τ with stack := .i32 1#32 :: τ.stack } (.br 1 τ) :=
      runs_seq_out (runs_of_exec (fun _ => rfl) fun h => by cases h) fun _ h => by cases h
    exact ⟨fun h => h.unique hbr, fun h => h ▸ hbr⟩
  | false => exact runs_seq_next (runs_of_exec (fun _ => rfl) fun h => by cases h)

end

/-- How a round ends when its body ends with `o`: falling through and `continue` both go on to the next
number. -/
def afterBody (v : Nat) (i : BitVec 32) : Out W → Out W
  | .next σ => .br 0 (setLocal σ v (.i32 (i + 1#32)))
  | .br 0 σ => .br 0 (setLocal { σ with stack := [] } v (.i32 (i + 1#32)))
  | .br (n + 1) σ => .br n σ
  | o => o

section

variable (hE : HasLoopOps E op) {v e s : Nat} {body : List (Code P)} {i last : BitVec 32}
  {τ τ' : State W} (hbody : BodyOk E v e s (Code.ofList body)) (hv : τ.locals v = .i32 i)
  (he : τ.locals e = .i32 last) (hs : τ.locals s = .i32 1#32) (hstack : τ.stack = [])
include hE hbody hv he hs hstack

theorem runs_round {ob : Out W} (hlast : last.slt i = false)
    (hob : Runs E (Code.ofList body) τ ob) :
    Runs E (roundCode op v e s body) τ (afterBody v i ob) := by
  have hblock : Runs E (.block 0 (Code.ofList body)) τ (ob.leave 0 []) := by
    have hself : ({ τ with stack := [] } : State W) = τ := by rw [← hstack]
    rw [runs_block, hstack]
    exact ⟨ob, hself.symm ▸ hob, rfl⟩
  have hkv := hob.keeps hbody.var
  have hks := hob.keeps hbody.step
  rw [hv] at hkv
  rw [hs] at hks
  rw [runs_test hE hv he, hlast, if_neg Bool.false_ne_true]
  cases ob with
  | next τ' =>
    have hnil : ({ τ' with stack := τ'.stack ++ [] } : State W) = τ' := by rw [List.append_nil]
    rw [Out.leave, hnil] at hblock
    exact (runs_seq_next hblock).mpr (runs_step hE hkv hks)
  | br depth τ' =>
    cases depth with
    | zero => exact (runs_seq_next hblock).mpr (runs_step hE hkv hks)
    | succ n => exact runs_seq_out hblock fun _ h => by cases h
  | ret τ' => exact runs_seq_out hblock fun _ h => by cases h
  | trap w => exact runs_seq_out hblock fun _ h => by cases h
  | stuck => exact runs_seq_out hblock fun _ h => by cases h
  | outOfFuel => exact absurd rfl hob.ne_outOfFuel

omit hbody hs in
/-- A round that ends has run its body to an end. -/
theorem body_runs {o : Out W} (hlast : last.slt i = false)
    (h : Runs E (roundCode op v e s body) τ o) : ∃ ob, Runs E (Code.ofList body) τ ob := by
  rw [runs_test hE hv he, hlast, if_neg Bool.false_ne_true] at h
  obtain ⟨oa, ha⟩ := h.first
  rw [runs_block] at ha
  obtain ⟨ob, hob, -⟩ := ha
  have hself : ({ τ with stack := [] } : State W) = τ := by rw [← hstack]
  exact ⟨ob, hself ▸ hob⟩

end

/-! ### The loop -/

/-- The state a body leaves when the loop is to go on. -/
def goesOn : Out W → Option (State W)
  | .next τ => some { τ with stack := [] }
  | .br 0 τ => some { τ with stack := [] }
  | _ => none

/-- How the loop ends when its body ends with `o` and the loop is not to go on. -/
def offBody : Out W → Out W
  | .br (n + 3) τ => .br n τ
  | .br _ τ => .next τ
  | o => o

section

variable {v e s : Nat} {body : List (Code P)} {i : BitVec 32} {τ τ' : State W} {ob : Out W}

theorem rounds_on {is : List Int} {past : BitVec 32}
    (hob : Runs E (Code.ofList body) (setLocal τ v (.i32 i)) ob) (hgo : goesOn ob = some τ') :
    Rounds E v (Code.ofList body) past (i.toInt :: is) τ o ↔
      Rounds E v (Code.ofList body) past is τ' o := by
  rw [← BitVec.ofInt_toInt (x := i)] at hob
  constructor
  · intro h
    cases h with
    | next h t | continue_ h t =>
      cases hob.unique h
      cases hgo
      exact t
    | break_ h | branch h | ret h | trap h | stuck h =>
      cases hob.unique h
      cases hgo
  · intro t
    cases ob with
    | next σ =>
      cases hgo
      exact .next hob t
    | br depth σ =>
      cases depth with
      | zero =>
        cases hgo
        exact .continue_ hob t
      | succ n => cases hgo
    | ret σ => cases hgo
    | trap w => cases hgo
    | stuck => cases hgo
    | outOfFuel => cases hgo

theorem rounds_off {is : List Int} {past : BitVec 32}
    (hob : Runs E (Code.ofList body) (setLocal τ v (.i32 i)) ob) (hgo : goesOn ob = none)
    (hne : ∀ σ, ob ≠ .br 1 σ) :
    Rounds E v (Code.ofList body) past (i.toInt :: is) τ o ↔ o = offBody ob := by
  rw [← BitVec.ofInt_toInt (x := i)] at hob
  constructor
  · intro h
    cases h with
    | next h t | continue_ h t =>
      cases hob.unique h
      cases hgo
    | break_ h | branch h | ret h | trap h | stuck h =>
      cases hob.unique h
      rfl
  · rintro rfl
    cases ob with
    | next σ => cases hgo
    | br depth σ =>
      match depth with
      | 0 => cases hgo
      | 1 => exact absurd rfl (hne σ)
      | 2 => exact .break_ hob
      | n + 3 => exact .branch hob
    | ret σ => exact .ret hob
    | trap w => exact .trap hob
    | stuck => exact .stuck hob
    | outOfFuel => exact absurd rfl hob.ne_outOfFuel

/-- Leaving the loop and the block around it. -/
theorem leave_afterBody (below : List Val) (hgo : goesOn ob = none) (hne : ∀ σ, ob ≠ .br 1 σ) :
    ((afterBody v i ob).leave 0 []).leave 0 below = withBelow below (offBody ob) := by
  cases ob with
  | next σ => cases hgo
  | br depth σ =>
    match depth with
    | 0 => cases hgo
    | 1 => exact absurd rfl (hne σ)
    | 2 => rfl
    | n + 3 => rfl
  | _ => rfl

variable (hE : HasLoopOps E op) (hbody : BodyOk E v e s (Code.ofList body)) {last : BitVec 32}
  (hv : τ.locals v = .i32 i) (he : τ.locals e = .i32 last) (hs : τ.locals s = .i32 1#32)
  (hstack : τ.stack = []) (hlast : last.slt i = false) (hob : Runs E (Code.ofList body) τ ob)
include hE hbody hv he hs hstack hlast hob

theorem loop_on (hgo : goesOn ob = some τ') :
    Runs E (.loop (roundCode op v e s body)) τ o ↔
      Runs E (.loop (roundCode op v e s body)) (setLocal τ' v (.i32 (i + 1#32))) o := by
  have hround := runs_round hE hbody hv he hs hstack hlast hob
  have hself : ({ τ with stack := [] } : State W) = τ := by rw [← hstack]
  have hagain : ∀ {σ}, afterBody v i ob = .br 0 σ →
      (Runs E (.loop (roundCode op v e s body)) τ o ↔
        Runs E (.loop (roundCode op v e s body)) { σ with stack := [] } o) := fun h => by
    rw [h, ← hself] at hround
    have hloop := runs_loop_again (o := o) hround
    rw [hstack] at hloop
    exact hloop
  cases ob with
  | next σ =>
    cases hgo
    exact hagain rfl
  | br depth σ =>
    cases depth with
    | zero =>
      cases hgo
      exact hagain rfl
    | succ n => cases hgo
  | ret σ => cases hgo
  | trap w => cases hgo
  | stuck => cases hgo
  | outOfFuel => cases hgo

theorem loop_off (hgo : goesOn ob = none) :
    Runs E (.loop (roundCode op v e s body)) τ o ↔ o = (afterBody v i ob).leave 0 [] := by
  have hround := runs_round hE hbody hv he hs hstack hlast hob
  have hself : ({ τ with stack := [] } : State W) = τ := by rw [← hstack]
  rw [← hself] at hround
  have hout := runs_loop_out hround fun σ h => by
    cases ob with
    | next σ => cases hgo
    | br depth σ =>
      match depth with
      | 0 => cases hgo
      | 1 => exact (hob.avoids hbody.avoids σ) rfl
      | n + 2 => cases h
    | _ => cases h
  rw [hstack] at hout
  exact ⟨fun h => h.unique hout, fun h => h ▸ hout⟩

end

/-- **The loop runs its body for each number**, when its end does not wrap. -/
theorem runs_loop_iff (hE : HasLoopOps E op) {v ve vs : Nat} {body : List (Code P)}
    (hbody : BodyOk E v ve vs (Code.ofList body)) (hne : v ≠ ve) (hns : v ≠ vs) {e : BitVec 32}
    (hmin : e ≠ -2147483648#32) (below : List Val) : ∀ (n : Nat) (i : BitVec 32) (τ : State W),
      (e.toInt - i.toInt).toNat = n → τ.locals v = .i32 i → τ.locals ve = .i32 (e - 1#32) →
      τ.locals vs = .i32 1#32 → τ.stack = [] → ∀ o,
      (∃ o₁, Runs E (.loop (roundCode op v ve vs body)) τ o₁ ∧ o = o₁.leave 0 below) ↔
        ∃ o', Rounds E v (Code.ofList body) (if i.slt e then e else i) (forRange i.toInt e.toInt) τ o' ∧
          o = withBelow below o' := by
  have hlo := BitVec.le_toInt e
  have hhi := BitVec.toInt_lt (x := e)
  have hgt : -2 ^ 31 < e.toInt := by
    refine lt_of_le_of_ne hlo fun h => hmin (BitVec.eq_of_toInt_eq ?_)
    rw [← h]
    decide
  have hlast : (e - 1#32).toInt = e.toInt - 1 := by
    rw [BitVec.toInt_sub]
    exact Int.bmod_eq_of_le (by change _ ≤ e.toInt - 1; omega) (by change e.toInt - 1 < _; omega)
  intro n
  induction n with
  | zero =>
    intro i τ hn hv he hs hstack o
    have hexit : (e - 1#32).slt i = true := by
      rw [BitVec.slt_eq_decide, decide_eq_true_eq, hlast]
      omega
    have hpast : i.slt e = false := by
      rw [BitVec.slt_eq_decide, decide_eq_false_iff_not]
      omega
    have hself : ({ τ with stack := [] } : State W) = τ := by rw [← hstack]
    have hround : Runs E (roundCode op v ve vs body) { τ with stack := [] } (.br 1 τ) := by
      rw [hself, runs_test hE hv he, if_pos hexit]
    have hloop := runs_loop_out hround fun σ h => by cases h
    rw [forRange_empty (by omega), hpast, if_neg Bool.false_ne_true]
    constructor
    · rintro ⟨o₁, ho₁, rfl⟩
      cases ho₁.unique hloop
      refine ⟨_, .done τ, ?_⟩
      rw [setLocal_eq τ hv]
      rfl
    · rintro ⟨o', ho', rfl⟩
      cases ho'
      refine ⟨_, hloop, ?_⟩
      rw [setLocal_eq τ hv]
      rfl
  | succ n ih =>
    intro i τ hn hv he hs hstack o
    have hstay : (e - 1#32).slt i = false := by
      rw [BitVec.slt_eq_decide, decide_eq_false_iff_not, hlast]
      omega
    have hpast : i.slt e = true := by
      rw [BitVec.slt_eq_decide, decide_eq_true_eq]
      omega
    have hnext : (i + 1#32).toInt = i.toInt + 1 := by
      rw [BitVec.toInt_add]
      exact Int.bmod_eq_of_le (by change _ ≤ i.toInt + 1; have := BitVec.le_toInt i; omega)
        (by change i.toInt + 1 < _; omega)
    have hself : ({ τ with stack := [] } : State W) = τ := by rw [← hstack]
    have hset : setLocal τ v (.i32 i) = τ := setLocal_eq τ hv
    rw [forRange_cons (by omega), hpast, if_pos rfl]
    by_cases hends : ∃ ob, Runs E (Code.ofList body) τ ob
    · obtain ⟨ob, hob⟩ := hends
      have hob' : Runs E (Code.ofList body) (setLocal τ v (.i32 i)) ob := hset.symm ▸ hob
      cases hgo : goesOn ob with
      | some τ' =>
        have hlocals : τ'.locals ve = .i32 (e - 1#32) ∧ τ'.locals vs = .i32 1#32 ∧ τ'.stack = [] := by
          have hke := hob.keeps hbody.end_
          have hks := hob.keeps hbody.step
          rw [he] at hke
          rw [hs] at hks
          cases ob with
          | next σ =>
            cases hgo
            exact ⟨hke, hks, rfl⟩
          | br depth σ =>
            cases depth with
            | zero =>
              cases hgo
              exact ⟨hke, hks, rfl⟩
            | succ k => cases hgo
          | ret σ => cases hgo
          | trap w => cases hgo
          | stuck => cases hgo
          | outOfFuel => cases hgo
        have hrest := ih (i + 1#32) (setLocal τ' v (.i32 (i + 1#32))) (by omega)
          (setLocal_self τ' v _) ((setLocal_ne τ' _ hne.symm).trans hlocals.1)
          ((setLocal_ne τ' _ hns.symm).trans hlocals.2.1) hlocals.2.2 o
        have hpast' : (if (i + 1#32).slt e then e else i + 1#32) = e := by
          split
          · rfl
          · rename_i h
            rw [BitVec.slt_eq_decide, decide_eq_true_eq, hnext] at h
            exact BitVec.eq_of_toInt_eq (by omega)
        rw [hpast', hnext] at hrest
        simp only [loop_on hE hbody hv he hs hstack hstay hob hgo, rounds_on hob' hgo]
        simpa only [Rounds.setLocal_iff] using hrest
      | none =>
        have hone := hob.avoids hbody.avoids
        simp only [loop_off hE hbody hv he hs hstack hstay hob hgo, rounds_off hob' hgo hone,
          exists_eq_left, leave_afterBody below hgo hone]
    · refine iff_of_false ?_ ?_
      · rintro ⟨o₁, ho₁, -⟩
        obtain ⟨oc, hoc⟩ := ho₁.round
        rw [hself] at hoc
        exact hends (body_runs hE hv he hstack hstay hoc)
      · rintro ⟨o', ho', -⟩
        refine hends ?_
        rw [← hset, ← BitVec.ofInt_toInt (x := i)]
        cases ho' with
        | next h t | continue_ h t => exact ⟨_, h⟩
        | break_ h | branch h | ret h | trap h | stuck h => exact ⟨_, h⟩

/-! ### The whole form -/

section

variable {locals : String → Option Nat} {var : String} {start end_ : Expr P}
  {v ve vs : Nat} {cs ce : Code P} {σ₁ σ₂ : State W} {s e : BitVec 32}

/-- The code of a `for` evaluates its start and its end, and comes to the loop. -/
theorem runs_for (body : List (Code P)) (hE : HasLoopOps E op) (hslots : Slots locals var v ve vs)
    (hcs : compileExpr op locals start = some cs) (hce : compileExpr op locals end_ = some ce)
    (hstart : Runs E cs σ (.next { σ₁ with stack := .i32 s :: σ₁.stack }))
    (hend : Runs E ce (setLocal σ₁ v (.i32 s)) (.next { σ₂ with stack := .i32 e :: σ₂.stack })) :
    ∃ c, compileExpr op locals (rewriteFor var start end_ body) = some c ∧ ∀ o, Runs E c σ o ↔
      ∃ o₁, Runs E (.loop (roundCode op v ve vs body))
        (setLocal (setLocal { σ₂ with stack := [] } ve (.i32 (e - 1#32))) vs (.i32 1#32)) o₁ ∧
        o = o₁.leave 0 σ₂.stack := by
  have hcode : compileExpr op locals (rewriteFor var start end_ body) = some (Code.ofList [cs,
      .prim (op (.localSet v)), Code.ofList [ce, .prim (op (.i32Const 1#32)), .prim (op .i32Sub)],
      .prim (op (.localSet ve)), .prim (op (.i32Const 1#32)), .prim (op (.localSet vs)),
      .block 0 (.loop (roundCode op v ve vs body))]) := by
    simp only [rewriteFor, compileExpr, hslots.variable_, hslots.end_, hslots.step, hcs, hce]
    rfl
  refine ⟨_, hcode, fun o => ?_⟩
  have hlast : Runs E (Code.ofList [ce, .prim (op (.i32Const 1#32)), .prim (op .i32Sub)])
      (setLocal σ₁ v (.i32 s)) (.next { σ₂ with stack := .i32 (e - 1#32) :: σ₂.stack }) := by
    refine (runs_seq_next hend).mpr ?_
    refine (runs_seq_next (runs_op hE (.i32Const 1#32) rfl)).mpr ?_
    exact runs_seq_nop.mpr (runs_op hE .i32Sub rfl)
  refine (runs_seq_next hstart).trans ?_
  refine (runs_seq_next (runs_op hE (.localSet v) rfl)).trans ?_
  refine (runs_seq_next hlast).trans ?_
  refine (runs_seq_next (runs_op hE (.localSet ve) rfl)).trans ?_
  refine (runs_seq_next (runs_op hE (.i32Const 1#32) rfl)).trans ?_
  refine (runs_seq_next (runs_op hE (.localSet vs) rfl)).trans ?_
  exact runs_seq_nop.trans runs_block

end

/-- **A `for` whose end is not the least `i32`** runs its body for each number from `start` up to
`end`, and then leaves. -/
theorem forRuns_of_ne {s e : BitVec 32} (hmin : e ≠ -2147483648#32) : ForRuns s e := by
  intro P W E op locals var start end_ body v ve vs cs ce σ σ₁ σ₂ hE hslots hbody hcs hce hstart hend hv
  obtain ⟨c, hc, hruns⟩ := runs_for body hE hslots hcs hce hstart hend
  refine ⟨c, hc, fun o => (hruns o).trans ?_⟩
  refine runs_loop_iff hE hbody hslots.ne_end hslots.ne_step hmin σ₂.stack _ s
    (setLocal (setLocal { σ₂ with stack := [] } ve (.i32 (e - 1#32))) vs (.i32 1#32)) rfl ?_ ?_ ?_ rfl o
  · rw [setLocal_ne _ _ hslots.ne_step, setLocal_ne _ _ hslots.ne_end]
    exact hv
  · rw [setLocal_ne _ _ hslots.end_ne_step, setLocal_self]
  · exact setLocal_self ..

/-- **At the least `i32` the end wraps**, and a loop with an empty body never leaves. -/
theorem loop_endless (hE : HasLoopOps E op) {v e s : Nat} (hne : v ≠ e) (hns : v ≠ s) :
    ∀ (n : Nat) (i : BitVec 32) (τ : State W), τ.locals v = .i32 i →
      τ.locals e = .i32 2147483647#32 → τ.locals s = .i32 1#32 →
      run E n (.loop (roundCode op v e s [])) τ = .outOfFuel
  | 0, _, _, _, _, _ => rfl
  | n + 1, i, τ, hv, he, hs => by
      have hstay : (2147483647#32).slt i = false := by
        rw [BitVec.slt_eq_decide, decide_eq_false_iff_not]
        have := BitVec.toInt_lt (x := i)
        have hmax : (2147483647#32).toInt = 2147483647 := by decide
        omega
      have hsem : ∀ i σ, E.sem (op i) σ = i.sem σ := hE
      have hround : exec E (run E n) (roundCode op v e s []) { τ with stack := [] }
          = .br 0 (setLocal { τ with stack := [] } v (.i32 (i + 1#32))) := by
        simp only [roundCode, Code.ofList, exec, hsem, LoopOp.sem, Step.toOut, hv, he, hs, hstay,
          Out.leave, List.append_nil, Bool.false_eq_true, if_false, ne_eq,
          not_true_eq_false]
        rfl
      change exec E (run E n) (.loop (roundCode op v e s [])) τ = _
      rw [exec, hround]
      exact loop_endless hE hne hns n (i + 1#32) _ (setLocal_self _ v _)
        ((setLocal_ne _ _ hne.symm).trans he) ((setLocal_ne _ _ hns.symm).trans hs)

/-- A program of nothing but the instructions of loops. -/
def bare : Env LoopOp Unit := ⟨LoopOp.sem, fun _ => none⟩

/-- Its locals: a variable and the hidden ones. -/
def bareLocals (name : String) : Option Nat :=
  if name = "i" then some 0 else if name = "i#end" then some 1
  else if name = "i#step" then some 2 else none

theorem bare_slots : Slots bareLocals "i" 0 1 2 :=
  ⟨by decide, by decide, by decide, by decide, by decide, by decide⟩

theorem bare_ops : HasLoopOps bare id := fun _ _ => rfl

/-- `(for i s -2147483648)`, with an empty body, does not end. -/
theorem not_forRuns_min (s : BitVec 32) : ¬ ForRuns s (-2147483648#32) := by
  intro h
  let σ : State Unit := ⟨[], fun _ => .i32 0#32, ()⟩
  have hint : ∀ (n : BitVec 32) (σ : State Unit),
      Runs bare (.prim (id (.i32Const (BitVec.ofInt 32 n.toInt)))) σ
        (.next { σ with stack := .i32 n :: σ.stack }) := fun n σ => by
    rw [BitVec.ofInt_toInt]
    exact runs_op bare_ops (.i32Const n) rfl
  obtain ⟨c, hc, hrounds⟩ := h LoopOp Unit bare id bareLocals "i" (.int s.toInt)
    (.int (-2147483648#32).toInt) [] 0 1 2 _ _ σ σ (setLocal σ 0 (.i32 s)) bare_ops bare_slots
    ⟨trivial, trivial, trivial, trivial⟩ rfl rfl (hint s σ) (hint _ _) (setLocal_self σ 0 _)
  have hcode : ∀ n : Int, compileExpr id bareLocals (.int n)
      = some (.prim (id (.i32Const (BitVec.ofInt 32 n)))) := fun _ => rfl
  obtain ⟨c', hc', hloop⟩ := runs_for [] bare_ops bare_slots (hcode s.toInt)
    (hcode (-2147483648#32).toInt) (hint s σ) (hint (-2147483648#32) (setLocal σ 0 (.i32 s)))
  obtain rfl : c = c' := Option.some.inj (hc.symm.trans hc')
  -- no number is below the end, so the code should fall through
  rw [forRange_empty (by have := BitVec.le_toInt s; exact this)] at hrounds
  obtain ⟨o₁, ⟨n, hn, hne⟩, -⟩ := (hloop _).mp ((hrounds _).mpr ⟨_, .done _, rfl⟩)
  exact hne (hn.symm.trans (loop_endless bare_ops (by decide) (by decide) n s _ rfl rfl rfl))

/-- **Where a `for` does what it should**: exactly for the ends that are not the least `i32`. -/
theorem forRuns_iff (s e : BitVec 32) : ForRuns s e ↔ e ≠ -2147483648#32 := by
  constructor
  · rintro h rfl
    exact not_forRuns_min s h
  · exact forRuns_of_ne

/-- `(for i 0 -2147483648)` should leave at once, and never does. -/
theorem forRuns_zero_min : ¬ ∀ s e : BitVec 32, ForRuns s e := fun h =>
  not_forRuns_min 0#32 (h 0#32 (-2147483648#32))

end Aipl.Compiler.Loops
