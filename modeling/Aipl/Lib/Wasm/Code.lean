import Mathlib.Data.BitVec

/-! # Library — structured WebAssembly

Structured control over any set of plain instructions: blocks, loops, branches by label depth,
calls.  The plain instructions and the world they act on are parameters.  Nothing here names a
program.

A run is bounded by a fuel that only loop rounds and calls consume, so two pieces of code that make
the same rounds and calls can be compared at every fuel.

* `exec` — one piece of code, with loops and calls continued by what it is given.
* `run` — the bounded run; `run_mono` — more fuel does not change what a run ended with.
-/

namespace Aipl.Lib.Wasm

/-- A value on the stack.  Floats are their bits. -/
inductive Val where
  | i32 (n : BitVec 32)
  | i64 (n : BitVec 64)
  | f32 (bits : BitVec 32)
  | f64 (bits : BitVec 64)
deriving DecidableEq, Repr

/-- Structured code over plain instructions `P`.  A block, loop or `if` yields `arity` values. -/
inductive Code (P : Type) where
  | nop
  | prim (p : P)
  | seq (a b : Code P)
  | block (arity : Nat) (body : Code P)
  | loop (body : Code P)
  | ite (arity : Nat) (t e : Code P)
  | br (depth : Nat)
  | brIf (depth : Nat)
  | ret
  | unreachable
  | call (f : Nat)

/-- The code of a list of pieces, in order. -/
def Code.ofList {P : Type} : List (Code P) → Code P
  | [] => .nop
  | c :: cs => .seq c (Code.ofList cs)

/-- What code runs on: the value stack, the function's locals, the world. -/
structure State (W : Type) where
  stack : List Val
  locals : Nat → Val
  world : W

/-- How a piece of code ended. -/
inductive Out (W : Type) where
  | next (σ : State W)
  | br (depth : Nat) (σ : State W)
  | ret (σ : State W)
  | trap (w : W)
  | stuck
  | outOfFuel

/-- What a plain instruction does.  `stuck` is code the validator refuses. -/
inductive Step (W : Type) where
  | next (σ : State W)
  | trap (w : W)
  | stuck

/-- What a call of the host does: results pushed, or a trap. -/
inductive HostStep (W : Type) where
  | results (vs : List Val) (w : W)
  | trap (w : W)

/-- A function: of the host, or code with its parameters, results and the start of its locals. -/
inductive Func (P W : Type) where
  | host (params : Nat) (run : List Val → W → HostStep W)
  | code (params results : Nat) (init : Nat → Val) (body : Code P)

/-- What code runs in: the plain instructions' meaning, and the functions. -/
structure Env (P W : Type) where
  sem : P → State W → Step W
  funcs : Nat → Option (Func P W)

variable {P W : Type}

def Step.toOut : Step W → Out W
  | .next σ => .next σ
  | .trap w => .trap w
  | .stuck => .stuck

/-- Leave a block of `arity` results that was entered over `below`. -/
def Out.leave (arity : Nat) (below : List Val) : Out W → Out W
  | .next σ => .next { σ with stack := σ.stack ++ below }
  | .br 0 σ => .next { σ with stack := σ.stack.take arity ++ below }
  | .br (n + 1) σ => .br n σ
  | o => o

/-- Return from a function of `results` results to the caller's state. -/
def Out.leaveCall (results : Nat) (caller : State W) (below : List Val) : Out W → Out W
  | .next σ | .ret σ | .br _ σ =>
    .next { caller with stack := σ.stack.take results ++ below, world := σ.world }
  | o => o

/-- The locals of a call: its arguments, pushed in order, then the rest. -/
def callLocals (args : List Val) (init : Nat → Val) : Nat → Val :=
  fun i => (args.reverse[i]?).getD (init i)

/-- Run a piece of code.  A loop's next round and a call's body are run by `next`. -/
def exec (E : Env P W) (next : Code P → State W → Out W) : Code P → State W → Out W
  | .nop, σ => .next σ
  | .prim p, σ => (E.sem p σ).toOut
  | .seq a b, σ =>
    match exec E next a σ with
    | .next σ' => exec E next b σ'
    | o => o
  | .block arity body, σ => (exec E next body { σ with stack := [] }).leave arity σ.stack
  | .loop body, σ =>
    match exec E next body { σ with stack := [] } with
    | .br 0 σ' => next (.loop body) { σ' with stack := σ.stack }
    | o => o.leave 0 σ.stack
  | .ite arity t e, σ =>
    match σ.stack with
    | .i32 c :: below =>
      (if c ≠ 0#32 then exec E next t { σ with stack := [] }
       else exec E next e { σ with stack := [] }).leave arity below
    | _ => .stuck
  | .br n, σ => .br n σ
  | .brIf n, σ =>
    match σ.stack with
    | .i32 c :: below =>
      if c ≠ 0#32 then .br n { σ with stack := below } else .next { σ with stack := below }
    | _ => .stuck
  | .ret, σ => .ret σ
  | .unreachable, σ => .trap σ.world
  | .call f, σ =>
    match E.funcs f with
    | some (.host params h) =>
      match h (σ.stack.take params) σ.world with
      | .results vs w => .next { σ with stack := vs ++ σ.stack.drop params, world := w }
      | .trap w => .trap w
    | some (.code params results init body) =>
      (next body { stack := [], locals := callLocals (σ.stack.take params) init,
                   world := σ.world }).leaveCall results σ (σ.stack.drop params)
    | none => .stuck

/-- A bounded run. -/
def run (E : Env P W) : Nat → Code P → State W → Out W
  | 0 => fun _ _ => .outOfFuel
  | n + 1 => exec E (run E n)

@[simp] theorem exec_prim (E : Env P W) (next : Code P → State W → Out W) (p : P) (σ : State W) :
    exec E next (.prim p) σ = (E.sem p σ).toOut := rfl

theorem exec_seq (E : Env P W) (next : Code P → State W → Out W) (a b : Code P) (σ : State W) :
    exec E next (.seq a b) σ =
      match exec E next a σ with
      | .next σ' => exec E next b σ'
      | o => o := rfl

theorem exec_seq_next {E : Env P W} {next : Code P → State W → Out W} {a b : Code P}
    {σ σ' : State W} (h : exec E next a σ = .next σ') :
    exec E next (.seq a b) σ = exec E next b σ' := by
  rw [exec_seq, h]

/-- `o` is `o'`, unless it ran out of fuel. -/
def Out.Approx (o o' : Out W) : Prop := o = .outOfFuel ∨ o = o'

theorem Out.Approx.leave {o o' : Out W} (h : o.Approx o') (arity : Nat) (below : List Val) :
    (o.leave arity below).Approx (o'.leave arity below) := by
  rcases h with rfl | rfl
  · exact .inl rfl
  · exact .inr rfl

theorem Out.Approx.leaveCall {o o' : Out W} (h : o.Approx o') (results : Nat) (σ : State W)
    (below : List Val) : (o.leaveCall results σ below).Approx (o'.leaveCall results σ below) := by
  rcases h with rfl | rfl
  · exact .inl rfl
  · exact .inr rfl

/-- A better continuation gives a better run. -/
theorem exec_mono {E : Env P W} {next next' : Code P → State W → Out W}
    (h : ∀ c σ, (next c σ).Approx (next' c σ)) :
    ∀ (c : Code P) (σ : State W), (exec E next c σ).Approx (exec E next' c σ) := by
  intro c
  induction c with
  | nop | prim | br | brIf | ret | unreachable => exact fun σ => .inr rfl
  | seq a b iha ihb =>
    intro σ
    rw [exec_seq, exec_seq]
    rcases iha σ with ha | ha
    · rw [ha]
      exact .inl rfl
    · rw [ha]
      cases exec E next' a σ with
      | next σ' => exact ihb σ'
      | _ => exact .inr rfl
  | block arity body ih => exact fun σ => (ih _).leave arity σ.stack
  | loop body ih =>
    intro σ
    rw [exec, exec]
    rcases ih { σ with stack := [] } with hb | hb
    · rw [hb]
      exact .inl rfl
    · rw [hb]
      cases exec E next' body { σ with stack := [] } with
      | br depth σ' =>
        cases depth with
        | zero => exact h _ _
        | succ n => exact .inr rfl
      | _ => exact .inr rfl
  | ite arity t e iht ihe =>
    intro σ
    rw [exec, exec]
    split
    · split
      · exact (iht _).leave arity _
      · exact (ihe _).leave arity _
    · exact .inr rfl
  | call f =>
    intro σ
    rw [exec, exec]
    split
    · exact .inr rfl
    · exact (h _ _).leaveCall _ σ _
    · exact .inr rfl

theorem run_approx_succ (E : Env P W) : ∀ (n : Nat) (c : Code P) (σ : State W),
    (run E n c σ).Approx (run E (n + 1) c σ)
  | 0, _, _ => .inl rfl
  | n + 1, c, σ => exec_mono (run_approx_succ E n) c σ

/-- **More fuel does not change what a run ended with.** -/
theorem run_mono {E : Env P W} {n : Nat} {c : Code P} {σ : State W} (extra : Nat)
    (h : run E n c σ ≠ .outOfFuel) : run E (n + extra) c σ = run E n c σ := by
  induction extra with
  | zero => rfl
  | succ k ih =>
    rcases run_approx_succ E (n + k) c σ with hk | hk
    · exact absurd (ih ▸ hk) h
    · rw [Nat.add_succ, ← hk, ih]

end Aipl.Lib.Wasm
