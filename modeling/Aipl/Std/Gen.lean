import Aipl.Std.Runtime

/-! # Generations

`std/gen`: an object's generation word is 8 bytes before it, a pointer carries the generation it was
made with, and a freed object's word is `DEAD`, which no fresh generation is.
-/

namespace Aipl.Std.Gen

open Aipl.Lib Aipl.Lib.Outcome Aipl.Std

def COUNTER : BitVec 32 := 56#32
def DEAD : BitVec 32 := -2#32

def fresh (R : Runtime) (m : Mem) : Outcome (BitVec 32 × Mem) := do
  let (old, m) ← atomicAdd R m COUNTER 1#32
  let g := (old + 1#32) * -1640531535#32
  pure (if g = 0#32 ∨ g = -1#32 ∨ g = DEAD then 1#32 else g, m)

/-- `forever`, for an object of `size` bytes: the memory after it.  The object itself is typed
memory, which its owner keeps as a record. -/
def forever (R : Runtime) (m : Mem) (size : BitVec 32) : Outcome Mem := do
  let (base, m) ← memAlloc R m (size + 8#32)
  let (g, m) ← fresh R m
  store32 R m base g

def kill (R : Runtime) (m : Mem) (base : BitVec 32) : Outcome Mem := store32 R m base DEAD

/-- A fresh generation is not the one of freed objects; only the counter's word changes. -/
theorem fresh_sat (R : Runtime) (m : Mem) :
    Sat (fun r => r.1 ≠ DEAD ∧ Mem.SameOutside 56 60 m r.2) (fresh R m) := by
  rw [fresh]
  refine sat_bind (atomicAdd_sat R m COUNTER 1#32) fun r hr => ?_
  obtain ⟨old, m'⟩ := r
  refine ⟨?_, hr⟩
  dsimp only
  split
  · decide
  · rename_i h
    exact fun heq => h (.inr (.inr heq))

end Aipl.Std.Gen
