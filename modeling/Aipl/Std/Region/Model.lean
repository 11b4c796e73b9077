import Aipl.Lib.Bump
import Aipl.Std.Arena.Model

/-! # Fast arenas, fixed buffers, and raw bytes from either

The fast arena of `std/arena`, the fixed buffer of `std/alloc`, and `raw` and `free_raw` of an `Allocator`
made of an arena, a fast arena or a fixed buffer.
-/

namespace Aipl.StdRegion

open Aipl.Lib Aipl.Lib.Outcome Aipl.Std

open Aipl.StdArena (Arena Chunk newChunk)

/-! ### Fast arenas -/

structure Fast where
  chunks : List Chunk
  current : Nat
  used : BitVec 32
  chunkSize : BitVec 32
  gen : BitVec 32

def makeFast (R : Runtime) (m : Mem) (chunkSize : BitVec 32) : Outcome (Fast × Mem) := do
  require ((0#32).slt chunkSize)
  let m ← Gen.forever R m 32#32
  let chunkSize := round8 chunkSize
  let (first, m) ← newChunk R m chunkSize
  let (gen, m) ← Gen.fresh R m
  pure (⟨[first], 0, 0#32, chunkSize, gen⟩, m)

/-- The loop of `fast_raw`: `found`, the fast arena and memory. -/
structure FastState where
  found : BitVec 32
  fast : Fast
  mem : Mem

/-- A round of the loop of `fast_raw`. -/
def fastRound (R : Runtime) (size : BitVec 32) (s : FastState) : Outcome (FastState ⊕ FastState) :=
  if s.found = -1#32 then do
    let f := s.fast
    let c ← ofOption f.chunks[f.current]?
    if (f.used + size).sle c.cap then
      pure (.inl ⟨c.base + f.used, { f with used := f.used + size }, s.mem⟩)
    else do
      -- on to the next chunk, taking a new one at the end of the list
      let (chunks, m) ← if f.current + 1 = f.chunks.length then do
          let (c', m) ← newChunk R s.mem (if f.chunkSize.slt size then size else f.chunkSize)
          pure (f.chunks ++ [c'], m)
        else pure (f.chunks, s.mem)
      pure (.inl ⟨s.found, { f with chunks := chunks, current := f.current + 1, used := 0#32 }, m⟩)
  else pure (.inr s)

/-- The loop that zeroes `words` words of 64 bits from `p` on. -/
def zero (R : Runtime) (m : Mem) (p words : BitVec 32) : Outcome Mem :=
  forLoop (words.toNat + 1) 0#32 words (fun i m => store64 R m (p + 8#32 * i) 0#64) m

def fastRaw (R : Runtime) (fuel : Nat) (f : Fast) (m : Mem) (n : BitVec 32) :
    Outcome (BitVec 32 × Fast × Mem) := do
  require ((0#32).slt n)
  let size := round8 n
  let s ← iterate (fastRound R size) fuel ⟨-1#32, f, m⟩
  let m ← zero R s.mem s.found (size.sdiv 8#32)
  pure (s.found, s.fast, m)

def fastReset (R : Runtime) (f : Fast) (m : Mem) : Outcome (Fast × Mem) := do
  let (gen, m) ← Gen.fresh R m
  pure ({ f with current := 0, used := 0#32, gen := gen }, m)

/-! ### Fixed buffers -/

structure Fixed where
  base : BitVec 32
  len : BitVec 32
  used : BitVec 32

def fixed (R : Runtime) (m : Mem) (base len : BitVec 32) : Outcome (Fixed × Mem) := do
  require ((0#32).sle len)
  let m ← Gen.forever R m 12#32
  pure (⟨base, len, 0#32⟩, m)

def fits (f : Fixed) (n : BitVec 32) : Bool := (round8 n).sle (f.len - f.used)

def fixedRaw (R : Runtime) (f : Fixed) (m : Mem) (n : BitVec 32) :
    Outcome (BitVec 32 × Fixed × Mem) := do
  require (fits f n)
  let size := round8 n
  let p := f.base + f.used
  let m ← zero R m p (size.sdiv 8#32)
  pure (p, { f with used := f.used + size }, m)

def fixedFree (f : Fixed) (p n : BitVec 32) : Fixed :=
  let size := round8 n
  if p + size = f.base + f.used then { f with used := f.used - size } else f

/-! ### The allocators made of them -/

inductive Region where
  | arena (a : Arena)
  | fastArena (f : Fast)
  | fixed (f : Fixed)

namespace Region

/-- `alloc.raw`. -/
def raw (R : Runtime) (fuel : Nat) (r : Region) (m : Mem) (n : BitVec 32) :
    Outcome (BitVec 32 × Region × Mem) := do
  require ((0#32).slt n)
  match r with
  | arena a => do
    let (p, a, m) ← StdArena.raw R fuel a m n
    pure (p, arena a, m)
  | fastArena f => do
    let (p, f, m) ← fastRaw R fuel f m n
    pure (p, fastArena f, m)
  | fixed f => do
    let (p, f, m) ← fixedRaw R f m n
    pure (p, fixed f, m)

/-- `alloc.free_raw`: an arena ignores it. -/
def freeRaw (r : Region) (p n : BitVec 32) : Region :=
  match r with
  | arena a => arena a
  | fastArena f => fastArena f
  | fixed f => fixed (fixedFree f p n)

/-- `arena.reset` or `arena.fast_reset`; a fixed buffer has none. -/
def reset (R : Runtime) (fuel : Nat) (r : Region) (m : Mem) : Outcome (Region × Mem) :=
  match r with
  | arena a => do
    let (a, m, _) ← StdArena.reset R fuel a m
    pure (arena a, m)
  | fastArena f => do
    let (f, m) ← fastReset R f m
    pure (fastArena f, m)
  | fixed _ => stop

/-- The chunk, or the buffer, that the region fills. -/
def filling : Region → Option Chunk
  | arena a => a.chunks[a.current]?
  | fastArena f => f.chunks[f.current]?
  | fixed f => some ⟨f.base, f.len, f.used⟩

def used : Region → BitVec 32
  | arena a => a.used
  | fastArena f => f.used
  | fixed f => f.used

/-- The place of that chunk in the list. -/
def current : Region → Nat
  | arena a => a.current
  | fastArena f => f.current
  | fixed _ => 0

end Region

end Aipl.StdRegion
