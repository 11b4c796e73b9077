import Aipl.Std.Alloc
import Aipl.Std.Runtime
import Aipl.Lib.Bits

/-! # The heap of `std/heap`, as its source computes it

A request is rounded up to a size class; a freed block goes on its class's free list, threaded
through the blocks themselves, and new blocks are cut from chunks taken with `mem.alloc`.  Each block
has two header words, the heap and its state, and the size asked for.

The heap's own object and its array of list heads are typed memory, kept here as a record; the
blocks, their headers and the links of the free lists are in linear memory.  Loops take a fuel.
-/

namespace Aipl.StdHeap

open Aipl.Lib Aipl.Lib.Outcome Aipl.Std

def LIVE : BitVec 32 := 1279874629#32
def FREED : BitVec 32 := 1179796805#32
def POISON : BitVec 64 := BitVec.ofInt 64 (-2401053088876216593)
def NCLASSES : Nat := 107
def CHUNK : BitVec 32 := 65536#32

/-- `Heap`: with the address of its object, which the block headers name. -/
structure Heap where
  addr : BitVec 32
  lock : BitVec 32
  heads : List (BitVec 32)
  cur : BitVec 32
  end_ : BitVec 32
  nlive : BitVec 32
  liveBytes : BitVec 32
  reserved : BitVec 32

/-- `make`, once its object and its array are there. -/
def make (addr : BitVec 32) : Heap :=
  { addr := addr, lock := 0#32, heads := List.replicate NCLASSES 0#32, cur := 0#32,
    end_ := 0#32, nlive := 0#32, liveBytes := 0#32, reserved := 0#32 }

/-- `(atomic.lock h)`, by the only thread there is: a lock that is held is never released. -/
def atomicLock (h : Heap) : Outcome Heap :=
  if h.lock = 0#32 then done { h with lock := 1#32 } else outOfFuel

def atomicUnlock (h : Heap) : Heap := { h with lock := 0#32 }

/-! ### Size classes -/

def classSize (c : BitVec 32) : BitVec 32 :=
  if c.slt 3#32 then 8#32 * (c + 1#32)
  else
    let k := 5#32 + (c - 3#32).sdiv 4#32
    shl 1#32 k + (c - 3#32).srem 4#32 * shl 1#32 (k - 2#32)

/-- A round of the loop of `class_of`: `(while (gte s (shl 1 (+ k 1))) (set! k (+ k 1)))`. -/
def topBit (s k : BitVec 32) : Outcome (BitVec 32 ⊕ BitVec 32) :=
  if (shl 1#32 (k + 1#32)).sle s then done (.inl (k + 1#32)) else done (.inr k)

def classOf (fuel : Nat) (n : BitVec 32) : Outcome (BitVec 32) := do
  require ((0#32).slt n)
  let s := round8 n
  if s.sle 24#32 then pure (s.sdiv 8#32 - 1#32)
  else
    let k ← iterate (topBit s) fuel 5#32
    let base := shl 1#32 k
    let step := shl 1#32 (k - 2#32)
    let j := (s - base + (step - 1#32)).sdiv step
    if j = 4#32 then pure (3#32 + (4#32 * (k + 1#32 - 5#32) + 0#32))
    else pure (3#32 + (4#32 * (k - 5#32) + j))

/-! ### Allocating and freeing -/

def carve (R : Runtime) (h : Heap) (m : Mem) (size : BitVec 32) :
    Outcome (BitVec 32 × Heap × Mem) := do
  let need := size + 8#32
  let (h, m) ← if (h.end_ - h.cur).slt need then do
      let chunk := if CHUNK.slt need then need else CHUNK
      let (cur, m) ← memAlloc R m chunk
      pure ({ h with cur := cur, end_ := cur + chunk, reserved := h.reserved + chunk }, m)
    else pure (h, m)
  pure (h.cur + 8#32, { h with cur := h.cur + need }, m)

/-- A round of the loop of `written_after_free`, at `q`. -/
def checkPoison (m : Mem) (end_ q : BitVec 32) : Outcome (BitVec 32 ⊕ Bool) :=
  if q.slt end_ then do
    let w ← load64 m q
    if w ≠ POISON then pure (.inr true) else pure (.inl (q + 8#32))
  else pure (.inr false)

def writtenAfterFree (fuel : Nat) (m : Mem) (p : BitVec 32) : Outcome Bool := do
  let n ← load32 m (p - 4#32)
  iterate (checkPoison m (p + round8 n)) fuel (p + 8#32)

def reuse (fuel : Nat) (m : Mem) (p : BitVec 32) : Outcome Unit := do
  let b ← writtenAfterFree fuel m p
  require (!b)

/-- The loop of `raw`: `n` zeroed bytes at `p`, 8 at a time. -/
def zeroBlock (R : Runtime) (m : Mem) (p n : BitVec 32) : Outcome Mem :=
  let words := (round8 n).sdiv 8#32
  forLoop (words.toNat + 1) 0#32 words (fun i m => store64 R m (p + 8#32 * i) 0#64) m

def raw (R : Runtime) (fuel : Nat) (h : Heap) (m : Mem) (n : BitVec 32) :
    Outcome (BitVec 32 × Heap × Mem) := do
  require ((0#32).slt n)
  require (n.sle 1879048184#32)
  let h ← atomicLock h
  let c ← classOf fuel n
  let size := classSize c
  let p ← arrGet h.heads c
  let (p, h, m) ← if p ≠ 0#32 then do
      reuse fuel m p
      let link ← load32 m p
      let heads ← arrSet h.heads c link
      pure (p, { h with heads := heads }, m)
    else carve R h m size
  let m ← store32 R m (p - 8#32) (h.addr ^^^ LIVE)
  let m ← store32 R m (p - 4#32) n
  let m ← zeroBlock R m p n
  let h := { h with nlive := h.nlive + 1#32, liveBytes := h.liveBytes + n }
  pure (p, atomicUnlock h, m)

def notFreedAlready (h : Heap) (m : Mem) (p : BitVec 32) : Outcome Bool :=
  if p.slt 1032#32 || p &&& 7#32 != 0#32 then pure true
  else do
    let w ← load32 m (p - 8#32)
    pure (w != h.addr ^^^ FREED)

def allocatedBy (h : Heap) (m : Mem) (p : BitVec 32) : Outcome Bool :=
  if p.slt 1032#32 || p &&& 7#32 != 0#32 then pure false
  else do
    let w ← load32 m (p - 8#32)
    pure (w == h.addr ^^^ LIVE)

def sizeMatches (m : Mem) (p n : BitVec 32) : Outcome Bool := do
  let w ← load32 m (p - 4#32)
  pure (w == n)

/-- A round of the loop of `free_raw` that fills the block with junk, at `q`. -/
def poisonWord (R : Runtime) (end_ : BitVec 32) (s : BitVec 32 × Mem) :
    Outcome ((BitVec 32 × Mem) ⊕ Mem) :=
  if s.1.slt end_ then do
    let m ← store64 R s.2 s.1 POISON
    pure (.inl (s.1 + 8#32, m))
  else pure (.inr s.2)

def freeRaw (R : Runtime) (fuel : Nat) (h : Heap) (m : Mem) (p n : BitVec 32) :
    Outcome (Heap × Mem) := do
  let ok ← notFreedAlready h m p
  require ok
  let ok ← allocatedBy h m p
  require ok
  let ok ← sizeMatches m p n
  require ok
  let h ← atomicLock h
  let m ← store32 R m (p - 8#32) (h.addr ^^^ FREED)
  let m ← iterate (poisonWord R (p + round8 n)) fuel (p + 8#32, m)
  let c ← classOf fuel n
  let head ← arrGet h.heads c
  let m ← store32 R m p head
  let m ← store32 R m (p + 4#32) 0#32
  let heads ← arrSet h.heads c p
  let h := { h with heads := heads, nlive := h.nlive - 1#32, liveBytes := h.liveBytes - n }
  pure (atomicUnlock h, m)

end Aipl.StdHeap
