import Aipl.Lib.Wasm.Code

/-! # Library — runs of structured WebAssembly to their end

What a piece of code ends with, given rounds and calls enough, and the rules by which that is found
for each form of code.  Nothing here names a program.

* `Runs` — the code ends so; `Runs.unique`.
* `runs_seq_next`, `runs_block`, `runs_loop_again`, `runs_loop_out`, `runs_call` — the rule of each form.
* `Runs.keeps` — code none of whose instructions changes a local leaves it alone.
* `Runs.avoids` — code without a branch to a depth does not leave by it.
-/

namespace Aipl.Lib.Wasm

variable {P W : Type} {E : Env P W} {a b c : Code P} {σ σ' : State W} {o o' : Out W}

/-- The code ends with `o`, when it is given fuel enough. -/
def Runs (E : Env P W) (c : Code P) (σ : State W) (o : Out W) : Prop :=
  ∃ n, run E n c σ = o ∧ o ≠ .outOfFuel

theorem Runs.ne_outOfFuel (h : Runs E c σ o) : o ≠ .outOfFuel := by
  obtain ⟨n, -, ho⟩ := h
  exact ho

theorem Runs.unique (h : Runs E c σ o) (h' : Runs E c σ o') : o = o' := by
  obtain ⟨n, rfl, ho⟩ := h
  obtain ⟨m, rfl, ho'⟩ := h'
  calc run E n c σ = run E (n + m) c σ := (run_mono m ho).symm
    _ = run E (m + n) c σ := by rw [Nat.add_comm]
    _ = run E m c σ := run_mono n ho'

/-- Code that needs no fuel. -/
theorem runs_of_exec (h : ∀ next, exec E next c σ = o) (ho : o ≠ .outOfFuel) : Runs E c σ o :=
  ⟨1, h _, ho⟩

/-- A run is one of `exec` over a bounded run. -/
theorem Runs.exec (h : Runs E c σ o) : ∃ n, ∀ k, exec E (run E (n + k)) c σ = o := by
  obtain ⟨n, rfl, ho⟩ := h
  cases n with
  | zero => exact absurd rfl ho
  | succ n =>
    refine ⟨n, fun k => ?_⟩
    have hk := run_mono k ho
    rw [show n + 1 + k = n + k + 1 by omega] at hk
    exact hk

theorem runs_exec {n : Nat} (h : Wasm.exec E (run E n) c σ = o) (ho : o ≠ .outOfFuel) :
    Runs E c σ o :=
  ⟨n + 1, h, ho⟩

/-- Code after code that falls through. -/
theorem runs_seq_next (ha : Runs E a σ (.next σ')) : Runs E (.seq a b) σ o ↔ Runs E b σ' o := by
  obtain ⟨n, ha⟩ := ha.exec
  constructor
  · rintro ⟨m, hm, ho⟩
    have hmore : run E (m + (n + 1)) (.seq a b) σ = o :=
      (run_mono (n + 1) (hm.symm ▸ ho)).trans hm
    rw [show m + (n + 1) = n + m + 1 by omega] at hmore
    change Wasm.exec E (run E (n + m)) (.seq a b) σ = o at hmore
    rw [exec_seq_next (ha m)] at hmore
    exact runs_exec hmore ho
  · intro hb
    obtain ⟨m, hm⟩ := hb.exec
    have hrest : Wasm.exec E (run E (n + m)) b σ' = o := by
      rw [Nat.add_comm]
      exact hm n
    exact runs_exec ((exec_seq_next (ha m)).trans hrest) hb.ne_outOfFuel

/-- Code that does not fall through is not followed. -/
theorem runs_seq_out (ha : Runs E a σ o) (hne : ∀ σ', o ≠ .next σ') : Runs E (.seq a b) σ o := by
  obtain ⟨n, hn⟩ := ha.exec
  refine ⟨n + 1, ?_, ha.ne_outOfFuel⟩
  change Wasm.exec E (run E n) (.seq a b) σ = o
  rw [exec_seq, show Wasm.exec E (run E n) a σ = o from hn 0]
  cases o with
  | next σ' => exact absurd rfl (hne σ')
  | _ => rfl

theorem runs_nop : Runs E .nop σ (.next σ) := runs_of_exec (fun _ => rfl) fun h => by cases h

/-- Plain instructions, one after the other. -/
def semAll (sem : P → State W → Step W) : List P → State W → Step W
  | [], σ => .next σ
  | p :: ps, σ =>
    match sem p σ with
    | .next σ' => semAll sem ps σ'
    | s => s

theorem exec_plain (next : Code P → State W → Out W) : ∀ (ps : List P) (σ : State W),
    Wasm.exec E next (Code.ofList (ps.map .prim)) σ = (semAll E.sem ps σ).toOut
  | [], _ => rfl
  | p :: ps, σ => by
      rw [List.map_cons, Code.ofList, exec_seq, exec_prim, semAll]
      cases E.sem p σ with
      | next σ' => exact exec_plain next ps σ'
      | trap w => rfl
      | stuck => rfl

theorem runs_plain (ps : List P) (σ : State W) :
    Runs E (Code.ofList (ps.map .prim)) σ (semAll E.sem ps σ).toOut := by
  refine runs_of_exec (fun next => exec_plain next ps σ) ?_
  cases semAll E.sem ps σ <;> exact fun h => by cases h

/-- Plain instructions that all go on, before other code. -/
theorem runs_plain_append {rest : List (Code P)} : ∀ {ps : List P} {σ : State W}, semAll E.sem ps σ = .next σ' →
    (Runs E (Code.ofList (ps.map .prim ++ rest)) σ o ↔ Runs E (Code.ofList rest) σ' o) := by
  intro ps
  induction ps with
  | nil =>
    intro σ h
    cases h
    exact Iff.rfl
  | cons p ps ih =>
    intro σ h
    rw [semAll] at h
    cases hp : E.sem p σ with
    | next τ =>
      rw [hp] at h
      have hfirst : Runs E (.prim p) σ (.next τ) := by
        refine runs_of_exec (fun next => ?_) fun h => by cases h
        rw [exec_prim, hp]
        rfl
      exact (runs_seq_next hfirst).trans (ih h)
    | trap w =>
      rw [hp] at h
      cases h
    | stuck =>
      rw [hp] at h
      cases h

/-- Code that ends has ended its first piece. -/
theorem Runs.first (h : Runs E (.seq a b) σ o) : ∃ o', Runs E a σ o' := by
  obtain ⟨n, rfl, ho⟩ := h
  cases n with
  | zero => exact absurd rfl ho
  | succ n =>
    refine ⟨_, n + 1, rfl, fun h => ho ?_⟩
    change Wasm.exec E (run E n) (.seq a b) σ = .outOfFuel
    rw [exec_seq, show Wasm.exec E (run E n) a σ = .outOfFuel from h]

/-- Nothing after code changes nothing. -/
theorem runs_seq_nop : Runs E (.seq a .nop) σ o ↔ Runs E a σ o := by
  have hforth : ∀ {o}, Runs E a σ o → Runs E (.seq a .nop) σ o := by
    intro o ha
    cases o with
    | next σ' => exact (runs_seq_next ha).mpr runs_nop
    | _ => exact runs_seq_out ha fun _ h => by cases h
  refine ⟨fun h => ?_, hforth⟩
  obtain ⟨o', ho'⟩ := h.first
  exact h.unique (hforth ho') ▸ ho'

theorem leave_eq_outOfFuel {arity : Nat} {below : List Val} :
    o.leave arity below = .outOfFuel ↔ o = .outOfFuel := by
  constructor
  · intro h
    cases o with
    | outOfFuel => rfl
    | br depth σ => cases depth <;> cases h
    | _ => cases h
  · rintro rfl
    rfl

theorem runs_block {arity : Nat} : Runs E (.block arity c) σ o ↔
    ∃ o', Runs E c { σ with stack := [] } o' ∧ o = o'.leave arity σ.stack := by
  constructor
  · rintro ⟨n, rfl, ho⟩
    cases n with
    | zero => exact absurd rfl ho
    | succ n =>
      refine ⟨_, ⟨n + 1, rfl, fun h => ho ?_⟩, rfl⟩
      exact leave_eq_outOfFuel.mpr h
  · rintro ⟨o', h, rfl⟩
    obtain ⟨n, hn⟩ := h.exec
    refine ⟨n + 1, ?_, fun h0 => h.ne_outOfFuel (leave_eq_outOfFuel.mp h0)⟩
    change Wasm.exec E (run E n) (.block arity c) σ = _
    rw [Wasm.exec, show Wasm.exec E (run E n) c { σ with stack := [] } = o' from hn 0]

/-- A branch that is taken. -/
theorem runs_ite_then {k : Nat} {n : BitVec 32} {s : List Val} {l : Nat → Val} {w : W} (hn : n ≠ 0#32)
    (h : Runs E a ⟨[], l, w⟩ o) : Runs E (.ite k a b) ⟨.i32 n :: s, l, w⟩ (o.leave k s) := by
  obtain ⟨m, hm⟩ := h.exec
  refine ⟨m + 1, ?_, fun h0 => h.ne_outOfFuel (leave_eq_outOfFuel.mp h0)⟩
  change Wasm.exec E (run E m) (.ite k a b) _ = _
  rw [Wasm.exec]
  simp only [if_pos hn]
  rw [show Wasm.exec E (run E m) a ⟨[], l, w⟩ = o from hm 0]

/-- A branch that is left out. -/
theorem runs_ite_skip {l : Nat → Val} {w : W} {below : List Val} :
    Runs E (.ite 0 a .nop) ⟨.i32 0#32 :: below, l, w⟩ (.next ⟨below, l, w⟩) :=
  runs_of_exec (fun _ => rfl) fun h => by cases h

/-- A conditional branch that is taken. -/
theorem runs_brIf_taken {depth : Nat} {n : BitVec 32} {below : List Val} {l : Nat → Val} {w : W} (hn : n ≠ 0#32) :
    Runs E (.seq (.brIf depth) a) ⟨.i32 n :: below, l, w⟩ (.br depth ⟨below, l, w⟩) := by
  refine runs_of_exec (fun next => ?_) fun h => by cases h
  rw [exec_seq, Wasm.exec]
  simp only [if_pos hn]

/-- One that is not. -/
theorem runs_brIf_skip {depth : Nat} {below : List Val} {l : Nat → Val} {w : W} :
    Runs E (.seq (.brIf depth) a) ⟨.i32 0#32 :: below, l, w⟩ o ↔ Runs E a ⟨below, l, w⟩ o :=
  runs_seq_next (runs_of_exec (fun _ => rfl) fun h => by cases h)

/-- A round that branches back to the loop. -/
theorem runs_loop_again (hb : Runs E b { σ with stack := [] } (.br 0 σ')) :
    Runs E (.loop b) σ o ↔ Runs E (.loop b) { σ' with stack := σ.stack } o := by
  obtain ⟨n, hn⟩ := hb.exec
  have hround : ∀ k, run E (n + k + 1) (.loop b) σ
      = run E (n + k) (.loop b) { σ' with stack := σ.stack } := by
    intro k
    change Wasm.exec E (run E (n + k)) (.loop b) σ = _
    rw [Wasm.exec, hn k]
    rfl
  constructor
  · rintro ⟨m, hm, ho⟩
    refine ⟨n + m, ?_, ho⟩
    rw [← hround m, show n + m + 1 = m + (n + 1) by omega]
    exact (run_mono (n + 1) (hm.symm ▸ ho)).trans hm
  · rintro ⟨m, hm, ho⟩
    refine ⟨n + m + 1, ?_, ho⟩
    rw [hround m, Nat.add_comm]
    exact (run_mono n (hm.symm ▸ ho)).trans hm

/-- A round that does not. -/
theorem runs_loop_out (hb : Runs E b { σ with stack := [] } o') (hne : ∀ σ', o' ≠ .br 0 σ') :
    Runs E (.loop b) σ (o'.leave 0 σ.stack) := by
  obtain ⟨n, hn⟩ := hb.exec
  refine ⟨n + 1, ?_, fun h0 => hb.ne_outOfFuel (leave_eq_outOfFuel.mp h0)⟩
  change Wasm.exec E (run E n) (.loop b) σ = _
  rw [Wasm.exec, show Wasm.exec E (run E n) b { σ with stack := [] } = o' from hn 0]
  cases o' with
  | br depth σ' =>
    cases depth with
    | zero => exact absurd rfl (hne σ')
    | succ k => rfl
  | _ => rfl

theorem leaveCall_eq_outOfFuel {results : Nat} {caller : State W} {below : List Val} :
    o.leaveCall results caller below = .outOfFuel ↔ o = .outOfFuel := by
  cases o <;> simp [Out.leaveCall]

/-- A call of a function that is code. -/
theorem runs_call {f params results : Nat} {init : Nat → Val} (hf : E.funcs f = some (.code params results init c))
    (h : Runs E c ⟨[], callLocals (σ.stack.take params) init, σ.world⟩ o) :
    Runs E (.call f) σ (o.leaveCall results σ (σ.stack.drop params)) := by
  obtain ⟨n, hn, ho⟩ := h
  refine ⟨n + 1, ?_, fun h0 => ho (leaveCall_eq_outOfFuel.mp h0)⟩
  change Wasm.exec E (run E n) (.call f) σ = _
  rw [Wasm.exec, hf]
  exact congrArg (Out.leaveCall results σ (σ.stack.drop params)) hn

/-- The first round of a loop that ends has ended. -/
theorem Runs.round (h : Runs E (.loop b) σ o) : ∃ o', Runs E b { σ with stack := [] } o' := by
  obtain ⟨n, rfl, ho⟩ := h
  cases n with
  | zero => exact absurd rfl ho
  | succ n =>
    refine ⟨_, ⟨n + 1, rfl, fun h => ho ?_⟩⟩
    change Wasm.exec E (run E n) (.loop b) σ = .outOfFuel
    rw [Wasm.exec, show Wasm.exec E (run E n) b { σ with stack := [] } = .outOfFuel from h]
    rfl

/-! ### Locals that code leaves alone -/

/-- No instruction of the code changes local `i`. -/
def Code.Keeps (E : Env P W) (i : Nat) : Code P → Prop
  | .prim p => ∀ σ σ', E.sem p σ = .next σ' → σ'.locals i = σ.locals i
  | .seq a b => a.Keeps E i ∧ b.Keeps E i
  | .block _ c | .loop c => c.Keeps E i
  | .ite _ t e => t.Keeps E i ∧ e.Keeps E i
  | _ => True

/-- Local `i` is `v` in the state that is left, if one is. -/
def Out.Holds (i : Nat) (v : Val) : Out W → Prop
  | .next σ | .br _ σ | .ret σ => σ.locals i = v
  | _ => True

theorem Out.Holds.leave {i arity : Nat} {v : Val} {below : List Val} (h : o.Holds i v) :
    (o.leave arity below).Holds i v := by
  cases o with
  | br depth σ => cases depth <;> exact h
  | _ => exact h

theorem exec_keeps {i : Nat} {next : Code P → State W → Out W}
    (hnext : ∀ c, c.Keeps E i → ∀ σ, (next c σ).Holds i (σ.locals i)) :
    ∀ c : Code P, c.Keeps E i → ∀ σ, (exec E next c σ).Holds i (σ.locals i) := by
  intro c
  induction c with
  | nop | br | ret => exact fun _ _ => rfl
  | unreachable => exact fun _ _ => trivial
  | prim p =>
    intro h σ
    rw [exec_prim]
    cases hs : E.sem p σ with
    | next σ' => exact h σ σ' hs
    | trap w => trivial
    | stuck => trivial
  | brIf depth =>
    intro _ σ
    rw [exec]
    split
    · split <;> rfl
    · trivial
  | seq a b iha ihb =>
    rintro ⟨ha, hb⟩ σ
    rw [exec_seq]
    have hout := iha ha σ
    cases hx : exec E next a σ with
    | next σ' =>
      rw [hx] at hout
      have hrest := ihb hb σ'
      rw [show σ'.locals i = σ.locals i from hout] at hrest
      exact hrest
    | _ =>
      rw [hx] at hout
      exact hout
  | block arity c ih => exact fun h σ => (ih h { σ with stack := [] }).leave
  | loop c ih =>
    intro h σ
    rw [exec]
    have hout := ih h { σ with stack := [] }
    split
    · rename_i σ' hx
      rw [hx] at hout
      have hrest := hnext (.loop c) h { σ' with stack := σ.stack }
      rw [show ({ σ' with stack := σ.stack } : State W).locals i = σ.locals i from hout] at hrest
      exact hrest
    · exact hout.leave
  | ite arity t e iht ihe =>
    rintro ⟨ht, he⟩ σ
    rw [exec]
    split
    · split
      · exact (iht ht { σ with stack := [] }).leave
      · exact (ihe he { σ with stack := [] }).leave
    · trivial
  | call f =>
    intro _ σ
    rw [exec]
    split
    · split
      · rfl
      · trivial
    · -- a call has locals of its own
      cases next _ _ <;> first | rfl | trivial
    · trivial

theorem run_keeps {i : Nat} : ∀ (n : Nat) (c : Code P), c.Keeps E i → ∀ σ,
    (run E n c σ).Holds i (σ.locals i)
  | 0, _, _, _ => trivial
  | n + 1, c, h, σ => exec_keeps (run_keeps n) c h σ

theorem Runs.keeps {i : Nat} (h : Runs E c σ o) (hc : c.Keeps E i) : o.Holds i (σ.locals i) := by
  obtain ⟨n, rfl, -⟩ := h
  exact run_keeps n c hc σ

/-! ### Branches that code does not make -/

/-- The code has no branch to depth `n`. -/
def Code.Avoids : Nat → Code P → Prop
  | n, .br depth | n, .brIf depth => depth ≠ n
  | n, .seq a b => a.Avoids n ∧ b.Avoids n
  | n, .block _ c | n, .loop c => c.Avoids (n + 1)
  | n, .ite _ t e => t.Avoids (n + 1) ∧ e.Avoids (n + 1)
  | _, _ => True

theorem leave_ne_br {n arity : Nat} {below : List Val} (h : ∀ σ', o ≠ .br (n + 1) σ') (σ' : State W) :
    o.leave arity below ≠ .br n σ' := by
  intro heq
  cases o with
  | br depth σ =>
    cases depth with
    | zero => cases heq
    | succ k =>
      cases heq
      exact h σ' rfl
  | _ => cases heq

theorem exec_avoids {next : Code P → State W → Out W}
    (hnext : ∀ c n, c.Avoids n → ∀ σ σ', next c σ ≠ .br n σ') :
    ∀ (c : Code P) (n : Nat), c.Avoids n → ∀ σ σ', exec E next c σ ≠ .br n σ' := by
  intro c
  induction c with
  | nop | ret | unreachable =>
    intro n _ σ σ' heq
    cases heq
  | prim p =>
    intro n _ σ σ' heq
    rw [exec_prim] at heq
    cases hs : E.sem p σ <;> rw [hs] at heq <;> cases heq
  | br depth =>
    intro n h σ σ' heq
    cases heq
    exact h rfl
  | brIf depth =>
    intro n h σ σ' heq
    rw [exec] at heq
    split at heq
    · split at heq
      · cases heq
        exact h rfl
      · cases heq
    · cases heq
  | seq a b iha ihb =>
    rintro n ⟨ha, hb⟩ σ σ' heq
    rw [exec_seq] at heq
    split at heq
    · exact ihb n hb _ σ' heq
    · exact iha n ha σ σ' heq
  | block arity c ih => exact fun n h σ => leave_ne_br (ih (n + 1) h { σ with stack := [] })
  | loop c ih =>
    intro n h σ σ' heq
    rw [exec] at heq
    split at heq
    · exact hnext (.loop c) n h _ σ' heq
    · exact leave_ne_br (ih (n + 1) h { σ with stack := [] }) σ' heq
  | ite arity t e iht ihe =>
    rintro n ⟨ht, he⟩ σ σ' heq
    rw [exec] at heq
    split at heq
    · split at heq
      · exact leave_ne_br (iht (n + 1) ht { σ with stack := [] }) σ' heq
      · exact leave_ne_br (ihe (n + 1) he { σ with stack := [] }) σ' heq
    · cases heq
  | call f =>
    intro n _ σ σ' heq
    rw [exec] at heq
    split at heq
    · split at heq <;> cases heq
    · rename_i body _
      generalize next body _ = out at heq
      cases out <;> cases heq
    · cases heq

theorem run_avoids : ∀ (n : Nat) (c : Code P) (depth : Nat), c.Avoids depth → ∀ σ σ',
    run E n c σ ≠ .br depth σ'
  | 0, _, _, _, _, _ => fun heq => by cases heq
  | n + 1, c, depth, h, σ, σ' => exec_avoids (run_avoids n) c depth h σ σ'

theorem Runs.avoids {depth : Nat} (h : Runs E c σ o) (hc : c.Avoids depth) (σ' : State W) :
    o ≠ .br depth σ' := by
  obtain ⟨n, rfl, -⟩ := h
  exact run_avoids n c depth hc σ σ'

end Aipl.Lib.Wasm
