import Aipl.Std.Bigint.Calls

/-! # Runs of operations on integers

Any sequence of the operations, on numbers made along the way, next to the same operations on
integers.

* `run_exact` — every number stands for the integer, in canonical form, and every comparison is the
  order of the integers.
-/

namespace Aipl.StdBigint

open Aipl.Lib Aipl.Lib.Outcome Aipl.Std

/-- An operation; numbers are named in the order they were made, and operands may be one number. -/
inductive Op (ι : Type) where
  | withCapacity (a : ι) (limbs : BitVec 32)
  | fromI32 (a : ι) (v : BitVec 32)
  | setI32 (a : Nat) (v : BitVec 32)
  | assign (dst src : Nat)
  | addMulSmall (a b : Nat) (m : BitVec 32)
  | subMulSmall (a b : Nat) (m : BitVec 32)
  | mulSmall (a : Nat) (m : BitVec 32)
  | compare (a b : Nat)
deriving Repr

variable {ι σ : Type}

/-- The numbers an operation is given. -/
def Op.operands : Op ι → List Nat
  | .withCapacity .. | .fromI32 .. => []
  | .setI32 a _ | .mulSmall a _ => [a]
  | .assign a b | .addMulSmall a b _ | .subMulSmall a b _ | .compare a b => [a, b]

/-- One operation: the world after it, and what a comparison returned.  Its operands are numbers that
were made. -/
def step (A : ι → Allocator σ) (fuel : Nat) (w : World ι σ) (op : Op ι) :
    Outcome (World ι σ × List (BitVec 32)) := do
  require (op.operands.all (· < w.made))
  match op with
  | .withCapacity a limbs => do
    let (_, w) ← withCapacity A w a limbs
    pure (w, [])
  | .fromI32 a v => do
    let (_, w) ← fromI32 A fuel w a v
    pure (w, [])
  | .setI32 a v => do
    let w ← setI32 fuel w a v
    pure (w, [])
  | .assign dst src => do
    let w ← assign A fuel w dst src
    pure (w, [])
  | .addMulSmall a b m => do
    let w ← addMulSmall A fuel w a b m
    pure (w, [])
  | .subMulSmall a b m => do
    let w ← subMulSmall A fuel w a b m
    pure (w, [])
  | .mulSmall a m => do
    let w ← mulSmall A fuel w a m
    pure (w, [])
  | .compare a b => do
    let c ← compare fuel w a b
    pure (w, [c])

/-- A sequence of operations, and what its comparisons returned. -/
def run (A : ι → Allocator σ) (fuel : Nat) :
    World ι σ → List (Op ι) → Outcome (World ι σ × List (BitVec 32))
  | w, [] => done (w, [])
  | w, op :: ops => do
    let (w, c) ← step A fuel w op
    let (w, cs) ← run A fuel w ops
    pure (w, c ++ cs)

/-! ### The operations on integers -/

/-- The integers an operation leaves, of those the numbers stand for, and what it compares to. -/
def Op.meaning (vs : Nat → Int) (made : Nat) : Op ι → (Nat → Int) × Nat × List Int
  | .withCapacity _ _ => (Function.update vs made 0, made + 1, [])
  | .fromI32 _ v => (Function.update vs made v.toInt, made + 1, [])
  | .setI32 a v => (Function.update vs a v.toInt, made, [])
  | .assign dst src => (Function.update vs dst (vs src), made, [])
  | .addMulSmall a b m => (Function.update vs a (vs a + vs b * m.toInt), made, [])
  | .subMulSmall a b m => (Function.update vs a (vs a - vs b * m.toInt), made, [])
  | .mulSmall a m => (Function.update vs a (vs a * m.toInt), made, [])
  | .compare a b => (vs, made, [(vs a - vs b).sign])

/-- The integers after a sequence of operations, and what the comparisons are. -/
def meanings : (Nat → Int) → Nat → List (Op ι) → (Nat → Int) × Nat × List Int
  | vs, made, [] => (vs, made, [])
  | vs, made, op :: ops =>
    let (vs, made, c) := op.meaning vs made
    let (vs, made, cs) := meanings vs made ops
    (vs, made, c ++ cs)

/-- The numbers made are canonical and stand for `vs`. -/
structure Stands (w : World ι σ) (vs : Nat → Int) (made : Nat) : Prop where
  count : w.made = made
  canonical : ∀ p < made, Canonical (w.ints p)
  val : ∀ p < made, val (w.ints p) = vs p

/-- A run's world and comparisons are those of the integers. -/
def Exact (m : (Nat → Int) × Nat × List Int) (r : World ι σ × List (BitVec 32)) : Prop :=
  Stands r.1 m.1 m.2.1 ∧ r.2.map BitVec.toInt = m.2.2

variable (A : ι → Allocator σ) {fuel : Nat} {w : World ι σ} {vs : Nat → Int} {made : Nat}

theorem Stands.write (h : Stands w vs made) {p : Nat} {v : Int} {w' : World ι σ}
    (hw' : Computed p v w w') : Stands w' (Function.update vs p v) made := by
  refine ⟨hw'.only.made.trans h.count, fun q hq => ?_, fun q hq => ?_⟩
  · by_cases hqp : q = p
    · subst hqp
      exact hw'.canonical
    · rw [hw'.only.ints q hqp]
      exact h.canonical q hq
  · by_cases hqp : q = p
    · subst hqp
      rw [Function.update_self]
      exact hw'.val
    · rw [Function.update_of_ne hqp, hw'.only.ints q hqp]
      exact h.val q hq

theorem Stands.make (h : Stands w vs made) {v : Int} {w' : World ι σ} (hmade : w'.made = w.made + 1)
    (hother : ∀ q, q ≠ w.made → w'.ints q = w.ints q) (hcanonical : Canonical (w'.ints w.made))
    (hval : StdBigint.val (w'.ints w.made) = v) :
    Stands w' (Function.update vs made v) (made + 1) := by
  have hm := h.count
  subst hm
  refine ⟨hmade, fun q hq => ?_, fun q hq => ?_⟩
  · rcases Nat.lt_succ_iff_lt_or_eq.mp hq with hlt | rfl
    · rw [hother q hlt.ne]
      exact h.canonical q hlt
    · exact hcanonical
  · rcases Nat.lt_succ_iff_lt_or_eq.mp hq with hlt | rfl
    · rw [Function.update_of_ne hlt.ne, hother q hlt.ne]
      exact h.val q hlt
    · rw [Function.update_self]
      exact hval

/-- One operation computes what it means. -/
theorem step_sat (h : Stands w vs made) (hfuel : 2 ^ 30 ≤ fuel) (op : Op ι) :
    Sat (Exact (op.meaning vs made)) (step A fuel w op) := by
  unfold step
  refine sat_bind (Q := fun _ => ∀ p ∈ op.operands, p < made) (sat_require fun hall => ?_)
    fun _ hop => ?_
  · simpa [h.count] using hall
  cases op with
  | withCapacity a limbs =>
    refine sat_bind (withCapacity_sat A) ?_
    rintro ⟨p, w'⟩ ⟨-, hmade, hother, hcanonical, hval⟩
    exact ⟨h.make hmade hother hcanonical hval, rfl⟩
  | fromI32 a v =>
    refine sat_bind (fromI32_sat A hfuel) ?_
    rintro ⟨p, w'⟩ ⟨-, hmade, hother, hcanonical, hval⟩
    exact ⟨h.make hmade hother hcanonical hval, rfl⟩
  | setI32 a v =>
    have ha := hop a List.mem_cons_self
    refine sat_bind (setI32_sat (h.canonical a ha) hfuel) fun w' hw' => ?_
    exact ⟨h.write hw', rfl⟩
  | mulSmall a m =>
    have ha := hop a List.mem_cons_self
    refine sat_bind (mulSmall_sat A (h.canonical a ha) hfuel) fun w' hw' => ?_
    rw [h.val a ha] at hw'
    exact ⟨h.write hw', rfl⟩
  | assign dst src =>
    have hd := hop dst List.mem_cons_self
    have hs := hop src (List.mem_cons_of_mem _ List.mem_cons_self)
    refine sat_bind (assign_sat A (h.canonical dst hd) (h.canonical src hs) hfuel) fun w' hw' => ?_
    rw [h.val src hs] at hw'
    exact ⟨h.write hw', rfl⟩
  | addMulSmall a b m =>
    have ha := hop a List.mem_cons_self
    have hb := hop b (List.mem_cons_of_mem _ List.mem_cons_self)
    refine sat_bind (addMulSmall_endsOr A (h.canonical a ha) (h.canonical b hb) (.inl trivial)
      (.inl trivial) hfuel).sat fun w' hw' => ?_
    rw [h.val a ha, h.val b hb] at hw'
    exact ⟨h.write hw', rfl⟩
  | subMulSmall a b m =>
    have ha := hop a List.mem_cons_self
    have hb := hop b (List.mem_cons_of_mem _ List.mem_cons_self)
    refine sat_bind (subMulSmall_endsOr A (h.canonical a ha) (h.canonical b hb) (.inl trivial)
      (.inl trivial) hfuel).sat fun w' hw' => ?_
    rw [h.val a ha, h.val b hb] at hw'
    exact ⟨h.write hw', rfl⟩
  | compare a b =>
    have ha := hop a List.mem_cons_self
    have hb := hop b (List.mem_cons_of_mem _ List.mem_cons_self)
    refine sat_bind (compare_ends (h.canonical a ha) (h.canonical b hb) hfuel).sat fun c hc => ?_
    rw [h.val a ha, h.val b hb] at hc
    refine ⟨h, ?_⟩
    simp [Op.meaning, hc]

theorem run_sat (ops : List (Op ι)) (hfuel : 2 ^ 30 ≤ fuel) :
    ∀ {w : World ι σ} {vs : Nat → Int} {made : Nat}, Stands w vs made →
      Sat (Exact (meanings vs made ops)) (run A fuel w ops) := by
  induction ops with
  | nil => exact fun h => ⟨h, rfl⟩
  | cons op ops ih =>
    intro w vs made h
    rw [run]
    refine sat_bind (step_sat A h hfuel op) ?_
    rintro ⟨w₁, c⟩ ⟨hw₁, hc⟩
    refine sat_bind (ih hw₁) ?_
    rintro ⟨w₂, cs⟩ ⟨hw₂, hcs⟩
    refine ⟨hw₂, ?_⟩
    dsimp only [meanings] at hc hcs ⊢
    rw [List.map_append, hc, hcs]

/-- A world in which no number was made. -/
def start [Inhabited ι] (s : σ) : World ι σ :=
  { ints := fun _ => ⟨[], 0#32, false, default⟩, made := 0, alloc := s }

/-- **The operations are exact.**  After any sequence of them, every number is canonical and stands for
the integer that the same operations on integers give, and every comparison returned the order of the
integers. -/
theorem run_exact [Inhabited ι] (s : σ) (ops : List (Op ι)) (hfuel : 2 ^ 30 ≤ fuel) :
    Sat (Exact (meanings (fun _ => 0) 0 ops)) (run A fuel (start s) ops) :=
  run_sat A ops hfuel ⟨rfl, fun _ h => absurd h (Nat.not_lt_zero _), fun _ h => absurd h (Nat.not_lt_zero _)⟩

/-- An allocator that always has memory. -/
def plenty : Allocator Unit := ⟨fun s _ => some s, fun s _ => some s⟩

/-- `-(2^31 - 1)²`, subtracted from itself twice. -/
theorem run_exact_square :
    let ops : List (Op Unit) := [.fromI32 () 2147483647#32, .fromI32 () 0#32,
      .subMulSmall 1 0 2147483647#32, .compare 1 0, .subMulSmall 1 1 2#32, .compare 1 0]
    ∃ w, run (fun _ => plenty) (2 ^ 30) (start ()) ops = done (w, [-1#32, 1#32]) ∧
      Exact (meanings (fun _ => 0) 0 ops) (w, [-1#32, 1#32]) :=
  ⟨_, rfl, (run_exact (fun _ => plenty) () _ le_rfl).of_eq_done rfl⟩

end Aipl.StdBigint
