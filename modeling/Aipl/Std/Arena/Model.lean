import Aipl.Std.Gen

/-! # The arena of `std/arena`, as its source computes it

Memory comes in chunks, which form a list in the order they were taken; `current` is the one being
filled.  A block has an 8-byte header that holds its size, and `reset` goes from header to header to
mark every object freed.

The arena's object and its chunks are typed memory, kept as records: the list of chunks is a list,
and a pointer to a chunk its index.  Loops take a fuel.
-/

namespace Aipl.StdArena

open Aipl.Lib Aipl.Lib.Outcome Aipl.Std

structure Chunk where
  base : BitVec 32
  cap : BitVec 32
  used : BitVec 32

structure Arena where
  chunks : List Chunk
  current : Nat
  used : BitVec 32
  chunkSize : BitVec 32
  gen : BitVec 32

def newChunk (R : Runtime) (m : Mem) (size : BitVec 32) : Outcome (Chunk × Mem) := do
  let m ← Gen.forever R m 24#32
  let (base, m) ← memAlloc R m size
  pure (⟨base, size, 0#32⟩, m)

def make (R : Runtime) (m : Mem) (chunkSize : BitVec 32) : Outcome (Arena × Mem) := do
  require ((0#32).slt chunkSize)
  let m ← Gen.forever R m 32#32
  let chunkSize := round8 chunkSize
  let (first, m) ← newChunk R m chunkSize
  let (gen, m) ← Gen.fresh R m
  pure (⟨[first], 0, 0#32, chunkSize, gen⟩, m)

/-! ### Allocating -/

/-- The loop of `raw`: `found`, the arena and memory. -/
structure RawState where
  found : BitVec 32
  arena : Arena
  mem : Mem

/-- A round of the loop of `raw`. -/
def rawRound (R : Runtime) (size : BitVec 32) (s : RawState) : Outcome (RawState ⊕ RawState) :=
  if s.found = -1#32 then do
    let a := s.arena
    let c ← ofOption a.chunks[a.current]?
    if (a.used + size).sle c.cap then do
      let found := c.base + (a.used + 8#32)
      let m ← store32 R s.mem (found - 8#32) size
      pure (.inl ⟨found, { a with used := a.used + size }, m⟩)
    else do
      -- on to the next chunk, taking a new one at the end of the list
      let (chunks, m) ← if a.current + 1 = a.chunks.length then do
          let (c', m) ← newChunk R s.mem (if a.chunkSize.slt size then size else a.chunkSize)
          pure (a.chunks ++ [c'], m)
        else pure (a.chunks, s.mem)
      let chunks := chunks.set a.current { c with used := a.used }
      pure (.inl ⟨s.found, { a with chunks := chunks, current := a.current + 1, used := 0#32 }, m⟩)
  else pure (.inr s)

def raw (R : Runtime) (fuel : Nat) (a : Arena) (m : Mem) (n : BitVec 32) :
    Outcome (BitVec 32 × Arena × Mem) := do
  require ((0#32).slt n)
  let size := round8 n + 8#32
  let s ← iterate (rawRound R size) fuel ⟨-1#32, a, m⟩
  let words := size.sdiv 8#32 - 1#32
  let m ← forLoop (words.toNat + 1) 0#32 words
    (fun i m => store64 R m (s.found + 8#32 * i) 0#64) s.mem
  pure (s.found, s.arena, m)

/-- A pointer: the object's address, and the generation the pointer was made with. -/
structure Ptr where
  addr : BitVec 32
  gen : BitVec 32

/-- `(alloc T)`, for a `T` of `size` bytes. -/
def alloc (R : Runtime) (fuel : Nat) (a : Arena) (m : Mem) (size : BitVec 32) :
    Outcome (Ptr × Arena × Mem) := do
  let (base, a, m) ← raw R fuel a m (size + 8#32)
  let m ← store32 R m base a.gen
  pure (⟨base + 8#32, a.gen⟩, a, m)

/-! ### Resetting -/

/-- The loop of `kill_blocks`: where it is, and memory.  The headers it has visited are kept beside,
for what is stated of them. -/
structure Walk where
  q : BitVec 32
  mem : Mem
  visited : List (BitVec 32)

/-- A round of the loop of `kill_blocks`. -/
def killRound (R : Runtime) (end_ : BitVec 32) (w : Walk) : Outcome (Walk ⊕ Walk) :=
  if w.q.slt end_ then do
    let m ← Gen.kill R w.mem (w.q + 8#32)
    let size ← load32 m w.q
    pure (.inl ⟨w.q + size, m, w.visited ++ [w.q]⟩)
  else pure (.inr w)

/-- `kill_blocks`: the chunk and memory after it, and the walk it made. -/
def killBlocks (R : Runtime) (fuel : Nat) (m : Mem) (c : Chunk) : Outcome (Chunk × Walk) := do
  let w ← iterate (killRound R (c.base + c.used)) fuel ⟨c.base, m, []⟩
  pure ({ c with used := 0#32 }, w)

/-- The loop of `reset`: the chunk it is at, the chunks, memory, and the walks made. -/
structure ResetState where
  k : Nat
  chunks : List Chunk
  mem : Mem
  walks : List Walk

/-- A round of the loop of `reset`. -/
def resetRound (R : Runtime) (fuel current : Nat) (s : ResetState) :
    Outcome (ResetState ⊕ ResetState) := do
  let c ← ofOption s.chunks[s.k]?
  let (c, w) ← killBlocks R fuel s.mem c
  let s := { s with chunks := s.chunks.set s.k c, mem := w.mem, walks := s.walks ++ [w] }
  if s.k = current then pure (.inr s) else pure (.inl { s with k := s.k + 1 })

def reset (R : Runtime) (fuel : Nat) (a : Arena) (m : Mem) :
    Outcome (Arena × Mem × List Walk) := do
  let c ← ofOption a.chunks[a.current]?
  let chunks := a.chunks.set a.current { c with used := a.used }
  let s ← iterate (resetRound R fuel a.current) fuel ⟨0, chunks, m, []⟩
  let (gen, m) ← Gen.fresh R s.mem
  pure ({ a with chunks := s.chunks, current := 0, used := 0#32, gen := gen }, m, s.walks)

end Aipl.StdArena
