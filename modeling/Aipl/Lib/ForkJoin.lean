import Aipl.Lib.Outcome
import Mathlib.Data.List.Perm.Basic
import Mathlib.Data.List.Flatten

/-! # Library — workers that only write

A parent starts workers in order, does the work of the first one itself, and then waits for the others in order.  A worker
reads nothing that another writes: a round of it changes its own state, and may write to the shared one.  Who moves next is
open.  Nothing here names a program.

* `step_moves` — what a move is; `Moves.log`, `Moves.shared`, `Moves.phased`, `Moves.cost` — and what it keeps.
* `execute_endsOr` — every run keeps it.
* `exists_step` — only a parent that has returned cannot be moved to.
-/

namespace Aipl.Lib

open Outcome

namespace ForkJoin

/-- Who moves. -/
inductive Actor where
  | parent
  | worker (k : Nat)
deriving DecidableEq

/-- A thread that is to be started, one that is started, one at its work, and one that is done. -/
inductive Thread (L : Type) where
  | waiting (l : L)
  | spawned (l : L)
  | running (l : L)
  | finished

/-- Where the parent is. -/
inductive Phase where
  | spawning (k : Nat)
  | own
  | joining (k : Nat)
  | returned
deriving DecidableEq

/-- What the parts of a run do: starting a thread, and entering it, of the host; a round of a worker, which may write; and a
write. -/
structure System (σ S L W : Type) where
  spawn : σ → Outcome σ
  enter : σ → Outcome σ
  next : L → Option (Option W × L)
  write : W → S → Outcome S

structure Config (σ S L W : Type) where
  host : σ
  shared : S
  log : List W
  threads : List (Thread L)
  phase : Phase

variable {σ S L W : Type} (sys : System σ S L W)

def Config.setThread (c : Config σ S L W) (k : Nat) (t : Thread L) : Config σ S L W := { c with threads := c.threads.set k t }

/-- A round of the work of thread `k`. -/
def System.advance (k : Nat) (l : L) (c : Config σ S L W) : Outcome (Config σ S L W) :=
  match sys.next l with
  | none => done (c.setThread k .finished)
  | some (none, l') => done (c.setThread k (.running l'))
  | some (some w, l') => do
    let shared ← sys.write w c.shared
    pure { c.setThread k (.running l') with shared := shared, log := c.log ++ [w] }

def System.parent (c : Config σ S L W) : Option (Outcome (Config σ S L W)) :=
  match c.phase with
  | .spawning k =>
    match c.threads[k]? with
    | some (.waiting l) => some do
      let host ← sys.spawn c.host
      pure { c.setThread k (.spawned l) with host := host, phase := .spawning (k + 1) }
    | some _ => none
    | none =>
      match c.threads[(0 : Nat)]? with
      | some (.waiting l) => some (done { c.setThread 0 (.running l) with phase := .own })
      | _ => none
  | .own =>
    match c.threads[(0 : Nat)]? with
    | some (.running l) => some (sys.advance 0 l c)
    | some .finished => some (done { c with phase := .joining 1 })
    | _ => none
  | .joining k =>
    match c.threads[k]? with
    | some .finished => some (done { c with phase := .joining (k + 1) })
    | some _ => none
    | none => some (done { c with phase := .returned })
  | .returned => none

def System.worker (k : Nat) (c : Config σ S L W) : Option (Outcome (Config σ S L W)) :=
  match c.threads[k]? with
  | some (.spawned l) => some do
    let host ← sys.enter c.host
    pure { c.setThread k (.running l) with host := host }
  | some (.running l) => some (sys.advance k l c)
  | _ => none

/-- A move; `none` where the actor cannot move.  The first worker's work is the parent's. -/
def System.step (c : Config σ S L W) : Actor → Option (Outcome (Config σ S L W))
  | .parent => sys.parent c
  | .worker k => if k = 0 then none else sys.worker k c

/-- A run in which the actors move in this order; `none` where one of them cannot. -/
def System.execute : List Actor → Config σ S L W → Option (Outcome (Config σ S L W))
  | [], c => some (done c)
  | a :: as, c =>
    match sys.step c a with
    | none => none
    | some (.done c') => System.execute as c'
    | some o => if as = [] then some o else none

/-- A whole run: what comes before the threads, theirs, and what comes after, with what the parent has kept; `none` where the
actors do not make one. -/
def System.whole {X R : Type} (begin_ : Outcome (X × Config σ S L W)) (finish : X → Config σ S L W → Outcome R)
    (as : List Actor) : Option (Outcome R) :=
  match begin_ with
  | .done (x, c) =>
    match sys.execute as c with
    | some (.done c') => if c'.phase = .returned then some (finish x c') else none
    | some .stop => some .stop
    | some .outOfFuel => some .outOfFuel
    | none => none
  | .stop => if as = [] then some .stop else none
  | .outOfFuel => some .outOfFuel

/-- The actors can move in this order. -/
def System.Begins {X : Type} (begin_ : Outcome (X × Config σ S L W)) (as : List Actor) : Prop :=
  match begin_ with
  | .done (_, c) => (sys.execute as c).isSome
  | _ => as = []

/-! ### Moves -/

/-- The moves that do not stop the program. -/
inductive Moves (c : Config σ S L W) : Config σ S L W → Prop where
  | spawn {k : Nat} {l : L} {host : σ} (hphase : c.phase = .spawning k) (hget : c.threads[k]? = some (.waiting l)) :
      Moves c { c.setThread k (.spawned l) with host := host, phase := .spawning (k + 1) }
  | own {k : Nat} {l : L} (hphase : c.phase = .spawning k) (hend : c.threads[k]? = none)
      (hget : c.threads[0]? = some (.waiting l)) : Moves c { c.setThread 0 (.running l) with phase := .own }
  | enter {k : Nat} {l : L} {host : σ} (hk : k ≠ 0) (hget : c.threads[k]? = some (.spawned l)) :
      Moves c { c.setThread k (.running l) with host := host }
  | finish {k : Nat} {l : L} (hget : c.threads[k]? = some (.running l)) (hnext : sys.next l = none) :
      Moves c (c.setThread k .finished)
  | quiet {k : Nat} {l l' : L} (hget : c.threads[k]? = some (.running l)) (hnext : sys.next l = some (none, l')) :
      Moves c (c.setThread k (.running l'))
  | write {k : Nat} {l l' : L} {w : W} {shared : S} (hget : c.threads[k]? = some (.running l))
      (hnext : sys.next l = some (some w, l')) (hwrite : sys.write w c.shared = done shared) :
      Moves c { c.setThread k (.running l') with shared := shared, log := c.log ++ [w] }
  | first (hphase : c.phase = .own) (hget : c.threads[0]? = some .finished) : Moves c { c with phase := .joining 1 }
  | join {k : Nat} (hphase : c.phase = .joining k) (hget : c.threads[k]? = some .finished) :
      Moves c { c with phase := .joining (k + 1) }
  | leave {k : Nat} (hphase : c.phase = .joining k) (hend : c.threads[k]? = none) : Moves c { c with phase := .returned }

/-- A worker: what it is yet to write, and a bound of its rounds. -/
structure Worker (left : L → List W) (size : L → Nat) : Prop where
  finish : ∀ l, sys.next l = none → left l = []
  quiet : ∀ l l', sys.next l = some (none, l') → left l' = left l ∧ size l' < size l
  write : ∀ l l' w, sys.next l = some (some w, l') → left l = w :: left l' ∧ size l' < size l

section

variable {sys} {left : L → List W} {size : L → Nat} (hworker : Worker sys left size)
variable {c c' : Config σ S L W} {a : Actor}

/-- What a thread is yet to write. -/
def Thread.remaining (left : L → List W) : Thread L → List W
  | .waiting l | .spawned l | .running l => left l
  | .finished => []

/-- A bound of a thread's moves. -/
def Thread.cost (size : L → Nat) : Thread L → Nat
  | .waiting l => size l + 3
  | .spawned l => size l + 2
  | .running l => size l + 1
  | .finished => 0

def Config.remaining (left : L → List W) (c : Config σ S L W) : List W := c.threads.flatMap (Thread.remaining left)

theorem split_at {α : Type} {xs : List α} {k : Nat} {x : α} (h : xs[k]? = some x) :
    ∃ pre post, xs = pre ++ x :: post ∧ ∀ y, xs.set k y = pre ++ y :: post := by
  obtain ⟨hk, rfl⟩ := List.getElem?_eq_some_iff.mp h
  refine ⟨xs.take k, xs.drop (k + 1), ?_, fun y => by rw [List.set_eq_take_append_cons_drop, if_pos hk]⟩
  rw [List.getElem_cons_drop hk, List.take_append_drop]

theorem get_set {α : Type} {xs : List α} {k j : Nat} {x y : α} (h : (xs.set k y)[j]? = some x) :
    j = k ∧ x = y ∨ j ≠ k ∧ xs[j]? = some x := by
  rw [List.getElem?_set] at h
  split at h
  · rename_i hkj
    split at h
    · exact .inl ⟨hkj.symm, (Option.some.inj h).symm⟩
    · cases h
  · rename_i hkj
    exact .inr ⟨Ne.symm hkj, h⟩

/-- A thread that moves on with as much to write. -/
theorem remaining_setThread {k : Nat} {t u : Thread L} (hget : c.threads[k]? = some t) (heq : u.remaining left = t.remaining left) :
    (c.setThread k u).remaining left = c.remaining left := by
  obtain ⟨pre, post, hthreads, hset⟩ := split_at hget
  rw [Config.remaining, Config.remaining, Config.setThread]
  dsimp only
  rw [hset, hthreads, List.flatMap_append, List.flatMap_append, List.flatMap_cons, List.flatMap_cons, heq]

include hworker

/-- **What is written and what is left**, together, stay the same. -/
theorem Moves.log (h : Moves sys c c') : (c'.log ++ c'.remaining left).Perm (c.log ++ c.remaining left) := by
  cases h with
  | spawn hphase hget => exact .of_eq (congrArg (c.log ++ ·) (remaining_setThread (u := .spawned _) hget rfl))
  | own hphase hend hget => exact .of_eq (congrArg (c.log ++ ·) (remaining_setThread (u := .running _) hget rfl))
  | enter hk hget => exact .of_eq (congrArg (c.log ++ ·) (remaining_setThread (u := .running _) hget rfl))
  | finish hget hnext => exact .of_eq (congrArg (c.log ++ ·) (remaining_setThread (u := .finished) hget (hworker.finish _ hnext).symm))
  | quiet hget hnext => exact .of_eq (congrArg (c.log ++ ·) (remaining_setThread (u := .running _) hget (hworker.quiet _ _ hnext).1))
  | @write k l l' w shared hget hnext hwrite =>
    obtain ⟨pre, post, hthreads, hset⟩ := split_at hget
    have hleft : Thread.remaining left (.running l) = w :: left l' := (hworker.write _ _ _ hnext).1
    rw [Config.remaining, Config.remaining, Config.setThread]
    dsimp only
    rw [hset, hthreads, List.flatMap_append, List.flatMap_append, List.flatMap_cons, List.flatMap_cons, hleft,
      List.append_assoc, List.singleton_append, List.cons_append]
    exact (List.perm_middle.symm).append_left _
  | first hphase hget => exact .refl _
  | join hphase hget => exact .refl _
  | leave hphase hend => exact .refl _

omit hworker

theorem Moves.shared {s₀ : S} (h : Moves sys c c') (hlog : foldAll (fun s w => sys.write w s) s₀ c.log = done c.shared) :
    foldAll (fun s w => sys.write w s) s₀ c'.log = done c'.shared := by
  cases h with
  | write hget hnext hwrite =>
    dsimp only
    rw [foldAll_append, hlog, done_bind, foldAll, hwrite]
    rfl
  | _ => exact hlog

/-! ### Phases -/

def Thread.isWaiting : Thread L → Bool
  | .waiting _ => true
  | _ => false

/-- The threads are as far as the phase says. -/
structure Phased (c : Config σ S L W) : Prop where
  nonempty : 0 < c.threads.length
  zero : ∀ l, c.threads[(0 : Nat)]? ≠ some (.spawned l)
  spawning : ∀ k, c.phase = .spawning k → 1 ≤ k ∧ k ≤ c.threads.length ∧
    ∀ (j : Nat) (t : Thread L), c.threads[j]? = some t → (t.isWaiting = true ↔ j = 0 ∨ k ≤ j)
  begun : (∀ k, c.phase ≠ .spawning k) → ∀ (j : Nat) (t : Thread L), c.threads[j]? = some t → t.isWaiting = false
  joining : ∀ k, c.phase = .joining k → 1 ≤ k ∧ k ≤ c.threads.length ∧ ∀ j < k, c.threads[j]? = some .finished
  returned : c.phase = .returned → ∀ j < c.threads.length, c.threads[j]? = some .finished

/-- A thread at its work moves on. -/
theorem Phased.setThread (h : Phased c) {k : Nat} {t u : Thread L} (hget : c.threads[k]? = some t) (hne : t ≠ .finished)
    (ht : t.isWaiting = false) (ht' : u.isWaiting = false) (hspawned : ∀ l, u ≠ .spawned l) :
    Phased (c.setThread k u) := by
  have hlen : (c.setThread k u).threads.length = c.threads.length := List.length_set
  have hkeep : ∀ j : Nat, c.threads[j]? = some .finished → (c.setThread k u).threads[j]? = some .finished := by
    intro j hj
    have hjk : k ≠ j := by
      rintro rfl
      rw [hget] at hj
      exact hne (Option.some.inj hj)
    exact (List.getElem?_set_ne hjk).trans hj
  refine ⟨by rw [hlen]; exact h.nonempty, fun l hl => ?_, fun k' hphase => ?_, fun hphase j t₁ hj => ?_,
    fun k' hphase => ?_, fun hphase j hj => ?_⟩
  · rcases get_set hl with ⟨-, heq⟩ | ⟨-, hl⟩
    · exact hspawned l heq.symm
    · exact h.zero l hl
  · obtain ⟨hpos, hle, hwait⟩ := h.spawning k' hphase
    refine ⟨hpos, hlen ▸ hle, fun j t₁ hj => ?_⟩
    rcases get_set hj with ⟨rfl, rfl⟩ | ⟨-, hj⟩
    · rw [ht', ← hwait j t hget, ht]
    · exact hwait j t₁ hj
  · rcases get_set hj with ⟨rfl, rfl⟩ | ⟨-, hj⟩
    · exact ht'
    · exact h.begun hphase j t₁ hj
  · obtain ⟨hpos, hle, hfin⟩ := h.joining k' hphase
    exact ⟨hpos, hlen ▸ hle, fun j hj => hkeep j (hfin j hj)⟩
  · exact hkeep j (h.returned hphase j (hlen ▸ hj))

/-- **The phases** are kept. -/
theorem Moves.phased (hmove : Moves sys c c') (h : Phased c) : Phased c' := by
  cases hmove with
  | @spawn k l host hphase hget =>
    obtain ⟨hpos, hle, hwait⟩ := h.spawning k hphase
    have hk := (List.getElem?_eq_some_iff.mp hget).1
    have hlen : (c.threads.set k (.spawned l)).length = c.threads.length := List.length_set
    refine ⟨hlen ▸ h.nonempty, fun l' hl => ?_, fun k' hphase' => ?_, fun hphase' => absurd rfl (hphase' (k + 1)),
      fun k' hphase' => (by cases hphase'), fun hphase' => (by cases hphase')⟩
    · rcases get_set hl with ⟨rfl, -⟩ | ⟨-, hl⟩
      · exact absurd hpos (Nat.lt_irrefl 0)
      · exact h.zero l' hl
    · cases hphase'
      refine ⟨Nat.le_add_left 1 k, hlen ▸ hk, fun j t hj => ?_⟩
      rcases get_set hj with ⟨rfl, rfl⟩ | ⟨hjk, hj⟩
      · exact iff_of_false Bool.false_ne_true (by omega)
      · rw [hwait j t hj]
        omega
  | @own k l hphase hend hget =>
    obtain ⟨hpos, hle, hwait⟩ := h.spawning k hphase
    have hk := List.getElem?_eq_none_iff.mp hend
    have hlen : (c.threads.set 0 (.running l)).length = c.threads.length := List.length_set
    refine ⟨hlen ▸ h.nonempty, fun l' hl => ?_, fun k' hphase' => (by cases hphase'), fun _ j t hj => ?_,
      fun k' hphase' => (by cases hphase'), fun hphase' => (by cases hphase')⟩
    · rcases get_set hl with ⟨-, heq⟩ | ⟨h0, -⟩
      · cases heq
      · exact h0 rfl
    · rcases get_set hj with ⟨rfl, rfl⟩ | ⟨hj0, hj⟩
      · rfl
      · have hj' := (List.getElem?_eq_some_iff.mp hj).1
        rw [← Bool.not_eq_true, hwait j t hj]
        omega
  | @enter k l host hk hget =>
    have hset := h.setThread (u := .running l) hget (by simp) rfl rfl (by simp)
    exact ⟨hset.nonempty, hset.zero, hset.spawning, hset.begun, hset.joining, hset.returned⟩
  | finish hget hnext => exact h.setThread (u := .finished) hget (by simp) rfl rfl (by simp)
  | quiet hget hnext => exact h.setThread (u := .running _) hget (by simp) rfl rfl (by simp)
  | @write k l l' w shared hget hnext hwrite =>
    have hset := h.setThread (u := .running l') hget (by simp) rfl rfl (by simp)
    exact ⟨hset.nonempty, hset.zero, hset.spawning, hset.begun, hset.joining, hset.returned⟩
  | first hphase hget =>
    refine ⟨h.nonempty, h.zero, fun k' hphase' => (by cases hphase'), fun _ => h.begun (by simp [hphase]), fun k' hphase' => ?_,
      fun hphase' => (by cases hphase')⟩
    cases hphase'
    refine ⟨le_rfl, h.nonempty, fun j hj => ?_⟩
    rw [Nat.lt_one_iff.mp hj]
    exact hget
  | @join k hphase hget =>
    obtain ⟨hpos, hle, hfin⟩ := h.joining k hphase
    refine ⟨h.nonempty, h.zero, fun k' hphase' => (by cases hphase'), fun _ => h.begun (by simp [hphase]), fun k' hphase' => ?_,
      fun hphase' => (by cases hphase')⟩
    cases hphase'
    refine ⟨Nat.le_add_left 1 k, (List.getElem?_eq_some_iff.mp hget).1, fun j hj => ?_⟩
    rcases Nat.lt_succ_iff_lt_or_eq.mp hj with hj | rfl
    · exact hfin j hj
    · exact hget
  | @leave k hphase hend =>
    obtain ⟨hpos, hle, hfin⟩ := h.joining k hphase
    refine ⟨h.nonempty, h.zero, fun k' hphase' => (by cases hphase'), fun _ => h.begun (by simp [hphase]),
      fun k' hphase' => (by cases hphase'), fun _ j hj => hfin j (Nat.lt_of_lt_of_le hj (List.getElem?_eq_none_iff.mp hend))⟩

/-- Once the parent has returned, nothing is left to write. -/
theorem Phased.remaining_eq_nil (h : Phased c) (hphase : c.phase = .returned) : c.remaining left = [] := by
  rw [Config.remaining, List.flatMap_eq_nil_iff]
  intro t ht
  obtain ⟨j, hj, rfl⟩ := List.mem_iff_getElem.mp ht
  have hfin := h.returned hphase j hj
  rw [List.getElem?_eq_getElem hj, Option.some_inj] at hfin
  rw [hfin]
  rfl

/-! ### Ends -/

/-- A bound of the parent's moves. -/
def rank (n : Nat) : Phase → Nat
  | .spawning k => 2 * n + 3 - k
  | .own => n + 2
  | .joining k => n + 1 - k
  | .returned => 0

/-- A bound of the moves of a run. -/
def Config.cost (size : L → Nat) (c : Config σ S L W) : Nat :=
  (c.threads.map (Thread.cost size)).sum + rank c.threads.length c.phase

theorem cost_setThread (size : L → Nat) {k : Nat} {t u : Thread L} (hget : c.threads[k]? = some t) :
    ((c.threads.set k u).map (Thread.cost size)).sum + t.cost size =
      (c.threads.map (Thread.cost size)).sum + u.cost size := by
  obtain ⟨pre, post, hthreads, hset⟩ := split_at hget
  rw [hset, hthreads]
  simp only [List.map_append, List.map_cons, List.sum_append, List.sum_cons]
  omega

include hworker

/-- **A move** brings the run closer to its end. -/
theorem Moves.cost (hmove : Moves sys c c') (h : Phased c) : c'.cost size < c.cost size := by
  cases hmove with
  | @spawn k l host hphase hget =>
    have hcost := cost_setThread size (u := .spawned l) hget
    have hk := (List.getElem?_eq_some_iff.mp hget).1
    rw [Config.cost, Config.cost, hphase, Config.setThread]
    dsimp only [rank, Thread.cost] at hcost ⊢
    rw [List.length_set]
    omega
  | @own k l hphase hend hget =>
    have hcost := cost_setThread size (u := .running l) hget
    obtain ⟨hpos, hle, -⟩ := h.spawning k hphase
    rw [Config.cost, Config.cost, hphase, Config.setThread]
    dsimp only [rank, Thread.cost] at hcost ⊢
    rw [List.length_set]
    omega
  | @enter k l host hk hget =>
    have hcost := cost_setThread size (u := .running l) hget
    rw [Config.cost, Config.cost, Config.setThread]
    dsimp only [Thread.cost] at hcost ⊢
    rw [List.length_set]
    omega
  | @finish k l hget hnext =>
    have hcost := cost_setThread size (u := .finished) hget
    rw [Config.cost, Config.cost, Config.setThread]
    dsimp only [Thread.cost] at hcost ⊢
    rw [List.length_set]
    omega
  | @quiet k l l' hget hnext =>
    have hcost := cost_setThread size (u := .running l') hget
    have hsize := (hworker.quiet _ _ hnext).2
    rw [Config.cost, Config.cost, Config.setThread]
    dsimp only [Thread.cost] at hcost ⊢
    rw [List.length_set]
    omega
  | @write k l l' w shared hget hnext hwrite =>
    have hcost := cost_setThread size (u := .running l') hget
    have hsize := (hworker.write _ _ _ hnext).2
    rw [Config.cost, Config.cost, Config.setThread]
    dsimp only [Thread.cost] at hcost ⊢
    rw [List.length_set]
    omega
  | first hphase hget =>
    have hpos := h.nonempty
    rw [Config.cost, Config.cost, hphase]
    dsimp only [rank]
    omega
  | @join k hphase hget =>
    have hk := (List.getElem?_eq_some_iff.mp hget).1
    rw [Config.cost, Config.cost, hphase]
    dsimp only [rank]
    omega
  | @leave k hphase hend =>
    have hk := (h.joining k hphase).2.1
    rw [Config.cost, Config.cost, hphase]
    dsimp only [rank]
    omega

omit hworker

/-- **No standstill**: where the parent has not returned, someone can move. -/
theorem exists_step (h : Phased c) (hphase : c.phase ≠ .returned) : ∃ a o, sys.step c a = some o := by
  have hzero : ∃ t, c.threads[(0 : Nat)]? = some t := ⟨_, List.getElem?_eq_getElem h.nonempty⟩
  obtain ⟨t₀, ht₀⟩ := hzero
  cases hc : c.phase with
  | spawning k =>
    obtain ⟨hpos, hle, hwait⟩ := h.spawning k hc
    refine ⟨.parent, ?_⟩
    rw [System.step, System.parent, hc]
    dsimp only
    cases hk : c.threads[k]? with
    | some t =>
      have ht := (hwait k t hk).mpr (.inr le_rfl)
      cases t with
      | waiting l => exact ⟨_, rfl⟩
      | _ => cases ht
    | none =>
      have ht := (hwait 0 t₀ ht₀).mpr (.inl rfl)
      rw [ht₀]
      cases t₀ with
      | waiting l => exact ⟨_, rfl⟩
      | _ => cases ht
  | own =>
    have hbegun := h.begun (by simp [hc]) 0 t₀ ht₀
    refine ⟨.parent, ?_⟩
    rw [System.step, System.parent, hc]
    dsimp only
    rw [ht₀]
    cases t₀ with
    | waiting l => cases hbegun
    | spawned l => exact absurd ht₀ (h.zero l)
    | _ => exact ⟨_, rfl⟩
  | joining k =>
    cases hk : c.threads[k]? with
    | none =>
      refine ⟨.parent, ?_⟩
      rw [System.step, System.parent, hc]
      dsimp only
      rw [hk]
      exact ⟨_, rfl⟩
    | some t =>
      have hbegun := h.begun (by simp [hc]) k t hk
      cases t with
      | waiting l => cases hbegun
      | finished =>
        refine ⟨.parent, ?_⟩
        rw [System.step, System.parent, hc]
        dsimp only
        rw [hk]
        exact ⟨_, rfl⟩
      | _ =>
        refine ⟨.worker k, ?_⟩
        rw [System.step, if_neg (Nat.ne_of_gt (h.joining k hc).1), System.worker, hk]
        exact ⟨_, rfl⟩
  | returned => exact absurd hc hphase

/-! ### Runs -/

theorem endsOr_self {α : Type} {C : Prop} {o : Outcome α} (h : EndsOr C (fun _ => True) o) : EndsOr C (fun a => o = done a) o := by
  cases o with
  | done a => rfl
  | stop => exact h
  | outOfFuel => exact h

/-- What a move comes to: it stops the program only where the host has no thread to start or to enter, or a write is refused. -/
theorem step_moves {C : Prop} {o : Outcome (Config σ S L W)} (hstep : sys.step c a = some o)
    (hspawn : ∀ s, EndsOr C (fun _ => True) (sys.spawn s)) (henter : ∀ s, EndsOr C (fun _ => True) (sys.enter s))
    (hwrite : ∀ (k : Nat) (l l' : L) (w : W), c.threads[k]? = some (.running l) → sys.next l = some (some w, l') →
      EndsOr C (fun _ => True) (sys.write w c.shared)) : EndsOr C (Moves sys c) o := by
  have hadvance : ∀ (k : Nat) (l : L), c.threads[k]? = some (.running l) → EndsOr C (Moves sys c) (sys.advance k l c) := by
    intro k l hget
    rw [System.advance]
    rcases hnext : sys.next l with _ | ⟨_ | w, l'⟩
    · exact .finish hget hnext
    · exact .quiet hget hnext
    · exact endsOr_bind (endsOr_self (hwrite k l l' w hget hnext)) fun shared hdone => .write hget hnext hdone
  cases a with
  | parent =>
    rw [System.step, System.parent] at hstep
    split at hstep
    · rename_i k hphase
      split at hstep
      · rename_i l hget
        cases hstep
        exact endsOr_bind (hspawn _) fun host _ => .spawn hphase hget
      · cases hstep
      · rename_i hend
        split at hstep
        · rename_i l hget
          cases hstep
          exact .own hphase hend hget
        · cases hstep
    · rename_i hphase
      split at hstep
      · rename_i l hget
        cases hstep
        exact hadvance 0 l hget
      · rename_i hget
        cases hstep
        exact .first hphase hget
      · cases hstep
    · rename_i k hphase
      split at hstep
      · rename_i hget
        cases hstep
        exact .join hphase hget
      · cases hstep
      · rename_i hend
        cases hstep
        exact .leave hphase hend
    · cases hstep
  | worker k =>
    rw [System.step] at hstep
    split at hstep
    · cases hstep
    · rename_i hk
      rw [System.worker] at hstep
      split at hstep
      · rename_i l hget
        cases hstep
        exact endsOr_bind (henter _) fun host _ => .enter hk hget
      · rename_i l hget
        cases hstep
        exact hadvance k l hget
      · cases hstep

/-- What holds throughout a run that began with `s₀` to share and `total` to write. -/
structure Running (sys : System σ S L W) (left : L → List W) (s₀ : S) (total : List W) (c : Config σ S L W) : Prop where
  phased : Phased c
  log : (c.log ++ c.remaining left).Perm total
  shared : foldAll (fun s w => sys.write w s) s₀ c.log = done c.shared

/-- A write that is still to be made is one of all. -/
theorem Running.mem {s₀ : S} {total : List W} (h : Running sys left s₀ total c) {k : Nat} {l : L} {w : W}
    (hget : c.threads[k]? = some (.running l)) (hw : w ∈ left l) : w ∈ total := by
  refine h.log.mem_iff.mp (List.mem_append_right _ (List.mem_flatMap.mpr ⟨_, List.mem_of_getElem? hget, hw⟩))

section Run

variable {C : Prop} {s₀ : S} {total : List W}
variable (hspawn : ∀ s, EndsOr C (fun _ => True) (sys.spawn s)) (henter : ∀ s, EndsOr C (fun _ => True) (sys.enter s))
variable (hwrite : ∀ ws s w, foldAll (fun s w => sys.write w s) s₀ ws = done s → w ∈ total →
  EndsOr C (fun _ => True) (sys.write w s))

include hworker hspawn henter hwrite

/-- **A move of a run.** -/
theorem Running.step {o : Outcome (Config σ S L W)} (h : Running sys left s₀ total c) (hstep : sys.step c a = some o) :
    EndsOr C (fun c' => Running sys left s₀ total c' ∧ c'.cost size < c.cost size) o := by
  refine (step_moves hstep hspawn henter fun k l l' w hget hnext => ?_).mono fun c' hmove => ?_
  · refine hwrite c.log c.shared w h.shared (h.mem hget ?_)
    rw [(hworker.write l l' w hnext).1]
    exact List.mem_cons_self
  · exact ⟨⟨hmove.phased h.phased, (hmove.log hworker).trans h.log, hmove.shared h.shared⟩, hmove.cost hworker h.phased⟩

/-- **Every run**, whoever moves when, keeps what holds of it, and ends. -/
theorem Running.execute : ∀ {as : List Actor} {c : Config σ S L W} {o : Outcome (Config σ S L W)},
    Running sys left s₀ total c → sys.execute as c = some o →
    EndsOr C (fun c' => Running sys left s₀ total c' ∧ c'.cost size + as.length ≤ c.cost size) o
  | [], c, o, h, hrun => by
      cases hrun
      exact ⟨h, le_rfl⟩
  | a :: as, c, o, h, hrun => by
      rw [System.execute] at hrun
      cases hstep : sys.step c a with
      | none =>
        rw [hstep] at hrun
        cases hrun
      | some o' =>
        have hends := Running.step hworker hspawn henter hwrite h hstep
        rw [hstep] at hrun
        cases o' with
        | done c' =>
          refine (Running.execute hends.1 hrun).mono fun c'' hc'' => ⟨hc''.1, ?_⟩
          have hlt := hends.2
          have hle := hc''.2
          rw [List.length_cons]
          omega
        | stop =>
          dsimp only at hrun
          split at hrun
          · cases hrun
            exact hends
          · cases hrun
        | outOfFuel => exact hends.elim

/-- A run is no longer than its bound, but for a last move that stops it. -/
theorem length_execute : ∀ {as : List Actor} {c : Config σ S L W} {o : Outcome (Config σ S L W)},
    Running sys left s₀ total c → sys.execute as c = some o → as.length ≤ c.cost size + 1
  | [], c, o, h, hrun => Nat.zero_le _
  | a :: as, c, o, h, hrun => by
      rw [System.execute] at hrun
      cases hstep : sys.step c a with
      | none =>
        rw [hstep] at hrun
        cases hrun
      | some o' =>
        have hends := Running.step hworker hspawn henter hwrite h hstep
        rw [hstep] at hrun
        rw [List.length_cons]
        cases o' with
        | done c' =>
          have hle := length_execute hends.1 hrun
          have hlt := hends.2
          omega
        | _ =>
          dsimp only at hrun
          split at hrun
          · rename_i has
            rw [has, List.length_nil]
            omega
          · cases hrun

/-- **A run that has returned** has made all of the writes, each once. -/
theorem Running.returned {as : List Actor} {c' : Config σ S L W} (h : Running sys left s₀ total c)
    (hrun : sys.execute as c = some (done c')) (hphase : c'.phase = .returned) :
    c'.log.Perm total ∧ foldAll (fun s w => sys.write w s) s₀ c'.log = done c'.shared := by
  obtain ⟨hrunning, -⟩ := Running.execute hworker hspawn henter hwrite h hrun
  have hlog := hrunning.log
  rw [hrunning.phased.remaining_eq_nil hphase, List.append_nil] at hlog
  exact ⟨hlog, hrunning.shared⟩

omit hworker hspawn henter hwrite in
theorem execute_append {as as' : List Actor} {c c' : Config σ S L W} (h : sys.execute as c = some (done c')) :
    sys.execute (as ++ as') c = sys.execute as' c' := by
  induction as generalizing c with
  | nil =>
    cases h
    rfl
  | cons a as ih =>
    rw [System.execute] at h
    rw [List.cons_append, System.execute]
    cases hstep : sys.step c a with
    | none =>
      rw [hstep] at h
      cases h
    | some o =>
      rw [hstep] at h
      cases o with
      | done c₁ => exact ih h
      | _ =>
        dsimp only at h
        split at h <;> cases h

/-- A run can always go on until the parent has returned. -/
theorem Running.exists_execute : ∀ (n : Nat) {c : Config σ S L W}, c.cost size < n → Running sys left s₀ total c →
    ∃ as o, sys.execute as c = some o ∧ ∀ c', o = done c' → c'.phase = .returned
  | n + 1, c, hn, h => by
      by_cases hphase : c.phase = .returned
      · refine ⟨[], done c, rfl, fun c' hc' => ?_⟩
        cases hc'
        exact hphase
      · obtain ⟨a, o, hstep⟩ : ∃ a o, sys.step c a = some o := exists_step h.phased hphase
        have hends := Running.step hworker hspawn henter hwrite h hstep
        cases o with
        | done c' =>
          obtain ⟨as, o, hrun, ho⟩ := Running.exists_execute n (Nat.lt_of_lt_of_le hends.2 (Nat.le_of_lt_succ hn)) hends.1
          refine ⟨a :: as, o, ?_, ho⟩
          rw [System.execute, hstep]
          exact hrun
        | stop =>
          refine ⟨[a], stop, ?_, fun c' hc' => by cases hc'⟩
          rw [System.execute, hstep]
          rfl
        | outOfFuel => exact hends.elim

section Whole

variable {X R : Type} {Q : R → Prop} {begin_ : Outcome (X × Config σ S L W)}
variable {finish : X → Config σ S L W → Outcome R} {as : List Actor}
variable (hbegin : EndsOr C (fun b => Running sys left s₀ total b.2) begin_)

include hbegin

/-- **What a whole run comes to.** -/
theorem whole_endsOr (hfinish : ∀ x c', c'.log.Perm total → foldAll (fun s w => sys.write w s) s₀ c'.log = done c'.shared →
      EndsOr C Q (finish x c')) {o : Outcome R} (h : sys.whole begin_ finish as = some o) : EndsOr C Q o := by
  cases begin_ with
  | done b =>
    obtain ⟨x, c⟩ := b
    rw [System.whole] at h
    cases hrun : sys.execute as c with
    | none =>
      rw [hrun] at h
      cases h
    | some o' =>
      have hends := Running.execute hworker hspawn henter hwrite hbegin hrun
      rw [hrun] at h
      cases o' with
      | done c' =>
        dsimp only at h
        split at h
        · rename_i hphase
          cases h
          obtain ⟨hlog, hshared⟩ := Running.returned hworker hspawn henter hwrite hbegin hrun hphase
          exact hfinish x c' hlog hshared
        · cases h
      | stop =>
        cases h
        exact hends
      | outOfFuel => exact hends.elim
  | stop =>
    rw [System.whole] at h
    split at h
    · cases h
      exact hbegin
    · cases h
  | outOfFuel => exact hbegin.elim

/-- **Whatever order the actors have moved in so far**, the run can go on to its end. -/
theorem exists_whole (has : sys.Begins begin_ as) : ∃ as' o, sys.whole begin_ finish (as ++ as') = some o := by
  cases begin_ with
  | done b =>
    obtain ⟨x, c⟩ := b
    obtain ⟨o, hrun⟩ := Option.isSome_iff_exists.mp has
    have hends := Running.execute hworker hspawn henter hwrite hbegin hrun
    cases o with
    | done c' =>
      obtain ⟨as', o', hrun', ho'⟩ := Running.exists_execute hworker hspawn henter hwrite _ (Nat.lt_succ_self _) hends.1
      refine ⟨as', ?_⟩
      rw [System.whole, execute_append hrun, hrun']
      cases o' with
      | done c'' => exact ⟨finish x c'', if_pos (ho' c'' rfl)⟩
      | stop => exact ⟨_, rfl⟩
      | outOfFuel => exact ⟨_, rfl⟩
    | stop =>
      refine ⟨[], stop, ?_⟩
      rw [System.whole, List.append_nil, hrun]
    | outOfFuel => exact hends.elim
  | stop =>
    have hnil : as = [] := has
    exact ⟨[], stop, by rw [hnil]; rfl⟩
  | outOfFuel => exact hbegin.elim

/-- **And it does end**: there is a bound of the moves. -/
theorem exists_bound : ∃ n, ∀ as, sys.Begins begin_ as → as.length ≤ n := by
  cases begin_ with
  | done b =>
    obtain ⟨x, c⟩ := b
    refine ⟨c.cost size + 1, fun as has => ?_⟩
    obtain ⟨o, hrun⟩ := Option.isSome_iff_exists.mp has
    exact length_execute hworker hspawn henter hwrite hbegin hrun
  | stop => exact ⟨0, fun as has => Nat.le_zero.mpr (by rw [show as = [] from has]; rfl)⟩
  | outOfFuel => exact hbegin.elim

end Whole

end Run

end

/-- Where a run begins: all threads are to be started. -/
theorem running_init (sys : System σ S L W) (left : L → List W) (host : σ) (s₀ : S) {ls : List L} (hne : ls ≠ []) :
    Running sys left s₀ (ls.flatMap left) ⟨host, s₀, [], ls.map .waiting, .spawning 1⟩ := by
  have hpos := List.length_pos_iff.mpr hne
  have hwaiting : ∀ (j : Nat) (t : Thread L), (ls.map Thread.waiting)[j]? = some t → t.isWaiting = true := by
    intro j t ht
    rw [List.getElem?_map, Option.map_eq_some_iff] at ht
    obtain ⟨l, -, rfl⟩ := ht
    rfl
  refine ⟨⟨by simpa using hpos, fun l hl => ?_, fun k hphase => ?_, fun hphase => absurd rfl (hphase 1),
    fun k hphase => (by cases hphase), fun hphase => (by cases hphase)⟩, ?_, rfl⟩
  · have ht := hwaiting 0 _ hl
    cases ht
  · cases hphase
    refine ⟨le_rfl, by rw [List.length_map]; exact hpos, fun j t ht => iff_of_true (hwaiting j t ht) (by omega)⟩
  · rw [List.nil_append, Config.remaining, List.flatMap_map]
    exact .refl _

end ForkJoin

end Aipl.Lib
