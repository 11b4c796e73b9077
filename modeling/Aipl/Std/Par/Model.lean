import Aipl.Lib.ForkJoin
import Aipl.Std.Alloc

/-! # Parallel maps and folds

`std/par`: `map` and `reduce` cut their indices into parts, hand each part a copy of the input, start a thread for each part
but the first, do that one themselves, and wait.  Who runs when is a list of actors.  A worker is a function: it answers what
it answers for the context, the input and the index.

* `map`, `reduce` — the two, for an order of the actors.
* `partsOf`, `lo`, `hi` — the parts.
-/

namespace Aipl.StdPar

open Aipl.Lib Aipl.Lib.Outcome Aipl.Lib.ForkJoin Aipl.Std

/-- What a program has of the system: memory, and threads to start. -/
structure Host (σ : Type) extends Allocator σ where
  start : σ → Option σ

/-- The `sizeof` of the records here: a part's, and what `thread.spawn_with` hands a thread. -/
structure Sizes where
  part : BitVec 32
  spawned : BitVec 32

/-- A `(ptr S)`, as an element. -/
def pointer (α : Type) : ElemType (Option α) := ⟨8#32, none⟩

variable {σ T U C : Type}

/-! ### Parts -/

/-- How many parts: at least 1, at most `n`. -/
def partsOf (n threads : BitVec 32) : BitVec 32 :=
  if threads.slt 1#32 ∨ n = 0#32 then 1#32 else if n.slt threads then n else threads

/-- Where part `k` begins. -/
def lo (n parts k : BitVec 32) : BitVec 32 :=
  let base := n.sdiv parts
  let extra := n.srem parts
  k * base + if k.slt extra then k else extra

/-- Where part `k` ends. -/
def hi (n parts k : BitVec 32) : BitVec 32 :=
  let base := n.sdiv parts
  let extra := n.srem parts
  lo n parts k + (base + if k.slt extra then 1#32 else 0#32)

/-- A part: its copy of the input, and its indices. -/
structure Part (T : Type) where
  xs : List T
  lo : BitVec 32
  hi : BitVec 32

/-- A copy of the input. -/
def copyOf (A : Allocator σ) (t : ElemType T) (a : σ) (xs : List T) : Outcome (List T × σ) := do
  let (copy, a) ← array A t a (arrLen xs)
  let copy ← foldAll (fun copy i => do arrSet copy (BitVec.ofNat 32 i) (← arrGet xs (BitVec.ofNat 32 i))) copy
    (List.range xs.length)
  pure (copy, a)

/-- `job`, and a round of `reduce`'s first loop. -/
def job (H : Host σ) (sizes : Sizes) (t : ElemType T) (xs : List T) (n parts k : BitVec 32) (a : σ) : Outcome (Part T × σ) := do
  require (parts != 0#32)
  let (copy, a) ← copyOf H.toAllocator t a xs
  let a ← create H.toAllocator a sizes.part
  pure (⟨copy, lo n parts k, hi n parts k⟩, a)

/-- What comes before the threads: the parts' records, and the array of the handles. -/
def prepare (H : Host σ) (sizes : Sizes) (t : ElemType T) (xs : List T) (n parts : BitVec 32) (a : σ) :
    Outcome (List (Part T) × List (BitVec 32) × σ) := do
  let (jobs, a) ← array H.toAllocator (pointer (Part T)) a parts
  let (jobs, a) ← foldAll (fun (jobs, a) k => do
    let (j, a) ← job H sizes t xs n parts (BitVec.ofNat 32 k) a
    let jobs ← arrSet jobs (BitVec.ofNat 32 k) (some j)
    pure (jobs, a)) (jobs, a) (List.range parts.toNat)
  let (handles, a) ← array H.toAllocator i32 a parts
  let jobs ← mapAll ofOption jobs
  pure (jobs, handles, a)

/-- What comes after: all of it is given back. -/
def giveBack (H : Host σ) (sizes : Sizes) (t : ElemType T) (jobs : List (Part T)) (handles : List (BitVec 32)) (a : σ) :
    Outcome σ := do
  let a ← foldAll (fun a (j : Part T) => do
    let a ← freeArray H.toAllocator t a j.xs
    destroy H.toAllocator a sizes.part) a jobs
  let a ← freeArray H.toAllocator (pointer (Part T)) a (jobs.map some)
  freeArray H.toAllocator i32 a handles

/-- `thread.spawn_with`: the record a new thread is handed, and the thread. -/
def spawnWith (H : Host σ) (sizes : Sizes) (a : σ) : Outcome σ := do
  let a ← create H.toAllocator a sizes.spawned
  ofOption (H.start a)

/-- What a new thread does first: it gives its record back. -/
def enter (H : Host σ) (sizes : Sizes) (a : σ) : Outcome σ := destroy H.toAllocator a sizes.spawned

/-! ### `map` -/

/-- A part's worker: the part, the index it is at, and what the function answered there, once it has. -/
structure Run (T U : Type) where
  part : Part T
  i : BitVec 32
  answer : Option U

/-- A round of `run`: a call of the function, or the store of its answer. -/
def Run.next (f : C → List T → BitVec 32 → U) (ctx : C) (r : Run T U) : Option (Option (BitVec 32 × U) × Run T U) :=
  match r.answer with
  | none => if r.i.slt r.part.hi then some (none, { r with answer := some (f ctx r.part.xs r.i) }) else none
  | some u => some (some (r.i, u), { r with i := r.i + 1#32, answer := none })

def mapSystem (H : Host σ) (sizes : Sizes) (f : C → List T → BitVec 32 → U) (ctx : C) :
    System σ (List U) (Run T U) (BitVec 32 × U) where
  spawn := spawnWith H sizes
  enter := enter H sizes
  next := Run.next f ctx
  write w out := arrSet out w.1 w.2

/-- A part at its first index. -/
def Run.start (j : Part T) : Run T U := ⟨j, j.lo, none⟩

/-- What a `map` leaves: `out`, and the stores that were made to it, in order. -/
structure Mapped (U : Type) where
  out : List U
  stores : List (BitVec 32 × U)

def mapBegin (H : Host σ) (sizes : Sizes) (t : ElemType T) (out : List U) (xs : List T) (threads : BitVec 32) (a : σ) :
    Outcome ((List (Part T) × List (BitVec 32)) × Config σ (List U) (Run T U) (BitVec 32 × U)) := do
  let n := arrLen out
  let parts := partsOf n threads
  let (jobs, handles, a) ← prepare H sizes t xs n parts a
  pure ((jobs, handles), ⟨a, out, [], jobs.map fun j => .waiting (Run.start j), .spawning 1⟩)

/-- `map`, for an order of the actors.  The copies are made before any thread is started, so `out` may be the input itself. -/
def map (H : Host σ) (sizes : Sizes) (t : ElemType T) (out : List U) (f : C → List T → BitVec 32 → U) (ctx : C) (xs : List T)
    (threads : BitVec 32) (a : σ) (as : List Actor) : Option (Outcome (Mapped U)) :=
  (mapSystem H sizes f ctx).whole (mapBegin H sizes t out xs threads a)
    (fun kept c => do
      let _ ← giveBack H sizes t kept.1 kept.2 c.host
      pure ⟨c.shared, c.log⟩) as

/-! ### `reduce` -/

/-- A part's worker: which part it is, the index it is at, what it has folded, and whether that is stored. -/
structure Folding (T U : Type) where
  k : Nat
  part : Part T
  i : BitVec 32
  acc : U
  stored : Bool

/-- A round of `fold`: a call of the function, or at the end the store of the result in the part's record. -/
def Folding.next (f : C → List T → BitVec 32 → U → U) (ctx : C) (r : Folding T U) : Option (Option (Nat × U) × Folding T U) :=
  if r.i.slt r.part.hi then some (none, { r with i := r.i + 1#32, acc := f ctx r.part.xs r.i r.acc })
  else if r.stored then none
  else some (some (r.k, r.acc), { r with stored := true })

/-- A record's own result: another part's is not written. -/
def setResult (results : List U) (k : Nat) (u : U) : Outcome (List U) := if k < results.length then done (results.set k u) else stop

def reduceSystem (H : Host σ) (sizes : Sizes) (f : C → List T → BitVec 32 → U → U) (ctx : C) :
    System σ (List U) (Folding T U) (Nat × U) where
  spawn := spawnWith H sizes
  enter := enter H sizes
  next := Folding.next f ctx
  write w results := setResult results w.1 w.2

def reduceBegin (H : Host σ) (sizes : Sizes) (t : ElemType T) (xs : List T) (n : BitVec 32) (init : U) (threads : BitVec 32)
    (a : σ) : Outcome ((List (Part T) × List (BitVec 32)) × Config σ (List U) (Folding T U) (Nat × U)) := do
  require ((0#32).sle n)
  let parts := partsOf n threads
  let (jobs, handles, a) ← prepare H sizes t xs n parts a
  pure ((jobs, handles), ⟨a, jobs.map fun _ => init, [],
    jobs.zipIdx.map fun (j, k) => .waiting ⟨k, j, j.lo, init, false⟩, .spawning 1⟩)

/-- The parts' results, joined in order. -/
def joinAll (join : U → U → U) : List U → Outcome U
  | [] => stop
  | u :: us => done (us.foldl join u)

/-- `reduce`, for an order of the actors. -/
def reduce (H : Host σ) (sizes : Sizes) (t : ElemType T) (f : C → List T → BitVec 32 → U → U) (join : U → U → U) (ctx : C)
    (xs : List T) (n : BitVec 32) (init : U) (threads : BitVec 32) (a : σ) (as : List Actor) : Option (Outcome U) :=
  (reduceSystem H sizes f ctx).whole (reduceBegin H sizes t xs n init threads a)
    (fun kept c => do
      let out ← joinAll join c.shared
      let _ ← giveBack H sizes t kept.1 kept.2 c.host
      pure out) as

end Aipl.StdPar
