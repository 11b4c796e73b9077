import Aipl.Std.Blocks

/-! # `std/buf`, as its source computes it

A growable buffer of bytes.  Its storage is an array, and writes go through the array's address, which
the buffer keeps beside it.  A view (`str.Bytes`) is of an array, checked, or of bare memory; a `str` is
its address and its length.  Numbers are written by `std/fmt`.  Loops take a fuel.
-/

namespace Aipl.StdBuf

open Aipl.Lib Aipl.Lib.Outcome Aipl.Std

/-- `str.Bytes`; without an array, `start` is an address. -/
structure Bytes where
  data : Option Arr
  start : BitVec 32
  len : BitVec 32

/-- `str`. -/
structure Str where
  ptr : BitVec 32
  len : BitVec 32

/-- `buf.Buf`, less its allocator, which the functions are given. -/
structure Buf where
  data : BitVec 32
  store : Arr
  len : BitVec 32
  cap : BitVec 32

/-- `sizeof Buf`. -/
def SIZEOF : BitVec 32 := 40#32

variable {σ : Type} (R : Runtime) (A : BlockAllocator σ) (fuel : Nat)

/-- `str.byte_at`. -/
def byteAt (w : World σ) (s : Bytes) (i : BitVec 32) : Outcome (BitVec 32) := do
  require ((0#32).sle i && i.slt s.len)
  match s.data with
  | none => load8 w.mem (s.start + i)
  | some d => d.get w (s.start + i)

/-- `str.of_array`. -/
def ofArray (w : World σ) (a : Arr) (start len : BitVec 32) : Outcome Bytes := do
  require ((0#32).sle start && (0#32).sle len)
  alive w a
  require ((start + len).sle a.len)
  pure ⟨some a, start, len⟩

/-- `alloc.create Buf`: the object is typed memory, which its owner keeps as a record. -/
def createBuf (w : World σ) : Outcome (World σ) := do
  let (_, s, m) ← ofOption (A.raw w.alloc w.mem (SIZEOF + 8#32))
  pure { w with mem := m, alloc := s, made := w.made + 1 }

def make (w : World σ) (capacity : BitVec 32) : Outcome (Buf × World σ) := do
  let cap := if capacity.slt 16#32 then 16#32 else capacity
  let (store, w) ← Arr.make A w cap
  let w ← createBuf A w
  pure ({ data := store.addr, store, len := 0#32, cap }, w)

def clear (b : Buf) : Buf := { b with len := 0#32 }

def truncate (b : Buf) (n : BitVec 32) : Outcome Buf := do
  require ((0#32).sle n && n.sle b.len)
  pure { b with len := n }

/-- `buf.bytes`. -/
def bytes (w : World σ) (b : Buf) : Outcome Bytes := ofArray w b.store 0#32 b.len

def ensure (b : Buf) (w : World σ) (extra : BitVec 32) : Outcome (Buf × World σ) := do
  let need := b.len + extra
  if need.sle b.cap then pure (b, w)
  else do
    let cap ← iterate (doubleRound need) fuel (2#32 * b.cap)
    let old := b.store
    let (store, w) ← Arr.make A w cap
    let w ← forLoop fuel 0#32 b.len
      (fun i w => do
        let x ← old.get w i
        store.set w i x)
      w
    let w ← old.free A w
    pure ({ b with store, data := store.addr, cap }, w)

def pushByte (b : Buf) (w : World σ) (c : BitVec 32) : Outcome (Buf × World σ) := do
  let (b, w) ← ensure A fuel b w 1#32
  let m ← store8 R w.mem (b.data + b.len) c
  pure ({ b with len := b.len + 1#32 }, { w with mem := m })

def pushBytes (b : Buf) (w : World σ) (s : Bytes) : Outcome (Buf × World σ) := do
  let n := s.len
  let (b, w) ← ensure A fuel b w n
  let at_ := b.data + b.len
  let m ← forLoop fuel 0#32 n
    (fun i m => do
      let x ← byteAt { w with mem := m } s i
      store8 R m (at_ + i) x)
    w.mem
  pure ({ b with len := b.len + n }, { w with mem := m })

def pushStr (b : Buf) (w : World σ) (s : Str) : Outcome (Buf × World σ) := do
  let n := s.len
  let (b, w) ← ensure A fuel b w n
  let at_ := b.data + b.len
  let from_ := s.ptr
  let m ← forLoop fuel 0#32 n
    (fun i m => do
      let x ← load8 m (from_ + i)
      store8 R m (at_ + i) x)
    w.mem
  pure ({ b with len := b.len + n }, { w with mem := m })

def insert (b : Buf) (w : World σ) (at_ n c : BitVec 32) : Outcome (Buf × World σ) := do
  require ((0#32).sle at_ && (at_.sle b.len && (0#32).sle n))
  let (b, w) ← ensure A fuel b w n
  let d := b.data
  let len := b.len
  let m ← forLoop fuel 0#32 (len - at_)
    (fun j m => do
      let i := len - 1#32 - j
      let x ← load8 m (d + i)
      store8 R m (d + (i + n)) x)
    w.mem
  let m ← forLoop fuel 0#32 n (fun i m => store8 R m (d + (at_ + i)) c) m
  pure ({ b with len := len + n }, { w with mem := m })

/-! ### Numbers -/

/-- The character of a digit. -/
def digitChar (upper : Bool) (r : BitVec 32) : BitVec 32 :=
  if r.slt 10#32 then 48#32 + r else if upper then 55#32 + r else 87#32 + r

/-- A round of the loop of `push_unsigned`: memory, the digits written, and what is left. -/
def digitRound (at_ : BitVec 32) (base : BitVec 64) (upper : Bool) :
    Mem × BitVec 32 × BitVec 64 × Bool →
      Outcome ((Mem × BitVec 32 × BitVec 64 × Bool) ⊕ (Mem × BitVec 32))
  | (m, n, v, first) =>
    if first ∨ v ≠ 0#64 then do
      let r := (v % base).setWidth 32
      let m ← store8 R m (at_ + n) (digitChar upper r)
      pure (.inl (m, n + 1#32, v / base, false))
    else pure (.inr (m, n))

/-- Turns the `n` bytes at `at_` around. -/
def turnAround (m : Mem) (at_ n : BitVec 32) : Outcome Mem :=
  forLoop fuel 0#32 (n.sdiv 2#32)
    (fun i m => do
      let x := at_ + i
      let y := at_ + (n - 1#32 - i)
      let t ← load8 m x
      let u ← load8 m y
      let m ← store8 R m x u
      store8 R m y t)
    m

def pushUnsigned (b : Buf) (w : World σ) (u : BitVec 64) (base : BitVec 32) (upper : Bool) :
    Outcome (Buf × World σ) := do
  require (base = 2#32 || (base = 8#32 || (base = 10#32 || base = 16#32)))
  let (b, w) ← ensure A fuel b w 64#32
  let start := b.len
  let (m, n) ← iterate (digitRound R (b.data + start) (base.signExtend 64) upper) fuel
    (w.mem, 0#32, u, true)
  let m ← turnAround R fuel m (b.data + start) n
  pure ({ b with len := start + n }, { w with mem := m })

/-- A round of the loop that counts decimal digits. -/
def countRound {k : Nat} : BitVec 32 × BitVec k → Outcome ((BitVec 32 × BitVec k) ⊕ BitVec 32)
  | (count, v) =>
    if v ≠ 0#k then pure (.inl (count + 1#32, v / 10#k)) else pure (.inr count)

/-- `fmt.uint_to_bytes` and `fmt.uint64_to_bytes`: the decimal digits of `n`, of which there are at
most `most`, written at `out`. -/
def decimalToBytes {k : Nat} (most : BitVec 32) (m : Mem) (n : BitVec k) (out : BitVec 32) :
    Outcome (BitVec 32 × Mem) := do
  let count ← iterate countRound fuel (1#32, n / 10#k)
  let (m, _) ← forLoop fuel 1#32 (count + 1#32)
    (fun i (m, v) => do
      let m ← store8 R m (out + (count - i)) (48#32 + (v % 10#k).setWidth 32)
      pure (m, v / 10#k))
    (m, n)
  require ((1#32).sle count && count.sle most)
  pure (count, m)

def uintToBytes (m : Mem) (n out : BitVec 32) : Outcome (BitVec 32 × Mem) :=
  decimalToBytes R fuel 10#32 m n out

def uint64ToBytes (m : Mem) (n : BitVec 64) (out : BitVec 32) : Outcome (BitVec 32 × Mem) :=
  decimalToBytes R fuel 20#32 m n out

/-- The body of `fmt.int_to_bytes` and `fmt.int64_to_bytes`, over the function for `|n|`. -/
def signedBody {k : Nat} (unsigned : Mem → BitVec k → BitVec 32 → Outcome (BitVec 32 × Mem))
    (m : Mem) (n : BitVec k) (out : BitVec 32) : Outcome (BitVec 32 × Mem) :=
  if n.slt 0#k then do
    let m ← store8 R m out 45#32
    let (count, m) ← unsigned m (0#k - n) (out + 1#32)
    pure (1#32 + count, m)
  else unsigned m n out

/-- The two functions: their body, and what they promise of the count. -/
def signedToBytes {k : Nat} (most : BitVec 32)
    (unsigned : Mem → BitVec k → BitVec 32 → Outcome (BitVec 32 × Mem)) (m : Mem) (n : BitVec k)
    (out : BitVec 32) : Outcome (BitVec 32 × Mem) := do
  let (res, m) ← signedBody R unsigned m n out
  require ((1#32).sle res && res.sle most)
  pure (res, m)

def intToBytes (m : Mem) (n out : BitVec 32) : Outcome (BitVec 32 × Mem) :=
  signedToBytes R 11#32 (uintToBytes R fuel) m n out

def int64ToBytes (m : Mem) (n : BitVec 64) (out : BitVec 32) : Outcome (BitVec 32 × Mem) :=
  signedToBytes R 21#32 (uint64ToBytes R fuel) m n out

def pushInt (b : Buf) (w : World σ) (n : BitVec 32) : Outcome (Buf × World σ) := do
  let (b, w) ← ensure A fuel b w 11#32
  let (k, m) ← intToBytes R fuel w.mem n (b.data + b.len)
  pure ({ b with len := b.len + k }, { w with mem := m })

def pushI64 (b : Buf) (w : World σ) (n : BitVec 64) : Outcome (Buf × World σ) := do
  let (b, w) ← ensure A fuel b w 21#32
  let (k, m) ← int64ToBytes R fuel w.mem n (b.data + b.len)
  pure ({ b with len := b.len + k }, { w with mem := m })

end Aipl.StdBuf
