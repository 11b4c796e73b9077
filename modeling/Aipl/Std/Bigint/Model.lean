import Aipl.Std.Alloc
import Mathlib.Logic.Function.Basic

/-! # The integers of `std/bigint`, as its source computes them

A number is a sign and an array of limbs, 32 bits each in an `i64`, from an allocator of its own.  The
numbers are kept by their addresses, so that an operation's operands may be one number; pointers are
typed, so an operation is given numbers that were made.  Loops take a fuel.
-/

namespace Aipl.StdBigint

open Aipl.Lib Aipl.Lib.Outcome Aipl.Std

/-- `i64`, as an element. -/
def i64 : ElemType (BitVec 64) := ⟨8#32, 0#64⟩

/-- `bigint.Int`; `a` names its allocator. -/
structure BigInt (ι : Type) where
  limbs : List (BitVec 64)
  len : BitVec 32
  neg : Bool
  a : ι

/-- The numbers made so far, by address, and the state of the allocators. -/
structure World (ι σ : Type) where
  ints : Nat → BigInt ι
  made : Nat
  alloc : σ

variable {ι σ : Type} (A : ι → Allocator σ) (fuel : Nat)

def World.put (w : World ι σ) (p : Nat) (n : BigInt ι) : World ι σ :=
  { w with ints := Function.update w.ints p n }

def World.setLen (w : World ι σ) (p : Nat) (len : BitVec 32) : World ι σ :=
  w.put p { w.ints p with len := len }

def World.setNeg (w : World ι σ) (p : Nat) (neg : Bool) : World ι σ :=
  w.put p { w.ints p with neg := neg }

/-- `arr.get` on the limbs. -/
def limb (w : World ι σ) (p : Nat) (i : BitVec 32) : Outcome (BitVec 64) :=
  arrGet (w.ints p).limbs i

/-- `arr.set` on the limbs. -/
def setLimb (w : World ι σ) (p : Nat) (i : BitVec 32) (x : BitVec 64) : Outcome (World ι σ) := do
  let limbs ← arrSet (w.ints p).limbs i x
  pure (w.put p { w.ints p with limbs := limbs })

/-- `sizeof Int`: the array, the length, the sign and the allocator. -/
def SIZEOF : BitVec 32 := 32#32

def withCapacity (w : World ι σ) (a : ι) (limbs : BitVec 32) : Outcome (Nat × World ι σ) := do
  let s ← create (A a) w.alloc SIZEOF
  let (xs, s) ← array (A a) i64 s (if limbs.slt 4#32 then 4#32 else limbs)
  let n : BigInt ι := { limbs := xs, len := 0#32, neg := false, a := a }
  pure (w.made, { ints := Function.update w.ints w.made n, made := w.made + 1, alloc := s })

/-- A round of the loop of `trim`. -/
def trimRound (p : Nat) (w : World ι σ) : Outcome (World ι σ ⊕ World ι σ) := do
  let n := w.ints p
  if (0#32).slt n.len then do
    let top ← limb w p (n.len - 1#32)
    if top = 0#64 then pure (.inl (w.setLen p (n.len - 1#32))) else pure (.inr w)
  else pure (.inr w)

def trim (w : World ι σ) (p : Nat) : Outcome (World ι σ) := do
  let w ← iterate (trimRound p) fuel w
  pure (if (w.ints p).len = 0#32 then w.setNeg p false else w)

def setI32 (w : World ι σ) (p : Nat) (v : BitVec 32) : Outcome (World ι σ) := do
  let w ← forLoop fuel 0#32 (w.ints p).len (fun i w => setLimb w p i 0#64) w
  let x := v.signExtend 64
  let w := w.setNeg p (x.slt 0#64)
  let x := if x.slt 0#64 then 0#64 - x else x
  let w ← setLimb w p 0#32 x
  trim fuel (w.setLen p 1#32) p

def fromI32 (w : World ι σ) (a : ι) (v : BitVec 32) : Outcome (Nat × World ι σ) := do
  let (p, w) ← withCapacity A w a 4#32
  let w ← setI32 fuel w p v
  pure (p, w)

def isZero (w : World ι σ) (p : Nat) : Bool := (w.ints p).len == 0#32

def sign (w : World ι σ) (p : Nat) : BitVec 32 :=
  if isZero w p then 0#32 else if (w.ints p).neg then -1#32 else 1#32

def reserve (w : World ι σ) (p : Nat) (limbs : BitVec 32) : Outcome (World ι σ) := do
  let n := w.ints p
  let old := n.limbs
  if limbs.sle (arrLen old) then pure w
  else do
    let cap ← iterate (doubleRound limbs) fuel (arrLen old)
    let (grown, s) ← array (A n.a) i64 w.alloc cap
    let grown ← forLoop fuel 0#32 n.len
      (fun i grown => do
        let x ← arrGet old i
        arrSet grown i x)
      grown
    let s ← freeArray (A n.a) i64 s old
    pure { w.put p { n with limbs := grown } with alloc := s }

def assign (w : World ι σ) (dst src : Nat) : Outcome (World ι σ) := do
  let w ← reserve A fuel w dst (w.ints src).len
  let w ← forLoop fuel 0#32 (w.ints src).len
    (fun i w => do
      let x ← limb w src i
      setLimb w dst i x)
    w
  let w ← forLoop fuel (w.ints src).len (w.ints dst).len (fun i w => setLimb w dst i 0#64) w
  let w := w.setLen dst (w.ints src).len
  pure (w.setNeg dst (w.ints src).neg)

/-- A round of the loop of `compare_magnitude`, counting `j` up to `len`: it ends at the first limbs
that differ. -/
def compareRound (w : World ι σ) (a b : Nat) (j : BitVec 32) :
    Outcome (BitVec 32 ⊕ BitVec 32) := do
  if ((w.ints a).len + 1#32 - 1#32).slt j then pure (.inr 0#32)
  else do
    let i := (w.ints a).len - j
    let x ← limb w a i
    let y ← limb w b i
    if x = y then pure (.inl (j + 1#32))
    else pure (.inr (if x.slt y then -1#32 else 1#32))

def compareMagnitude (w : World ι σ) (a b : Nat) : Outcome (BitVec 32) :=
  if (w.ints a).len ≠ (w.ints b).len then
    done (if (w.ints a).len.slt (w.ints b).len then -1#32 else 1#32)
  else iterate (compareRound w a b) fuel 1#32

def compare (w : World ι σ) (a b : Nat) : Outcome (BitVec 32) := do
  let sa := sign w a
  let sb := sign w b
  if sa ≠ sb then pure (if sa.slt sb then -1#32 else 1#32)
  else do
    let c ← compareMagnitude fuel w a b
    pure (sa * c)

/-- The low 32 bits of a limb. -/
def MASK : BitVec 64 := 4294967295#64

/-- The longer of the two lengths. -/
def longer (w : World ι σ) (a b : Nat) : BitVec 32 :=
  if (w.ints b).len.slt (w.ints a).len then (w.ints a).len else (w.ints b).len

def magnitudeAddMul (w : World ι σ) (a b : Nat) (m : BitVec 64) : Outcome (World ι σ) := do
  let n := longer w a b
  let w ← reserve A fuel w a (n + 1#32)
  let lb := (w.ints b).len
  let (w, carry) ← forLoop fuel 0#32 lb
    (fun i (w, carry) => do
      let y ← limb w b i
      let x ← limb w a i
      let t := y * m + x + carry
      let w ← setLimb w a i (t &&& MASK)
      pure (w, t >>> 32))
    (w, 0#64)
  let (w, carry) ← forLoop fuel lb n
    (fun i (w, carry) => do
      let x ← limb w a i
      let t := x + carry
      let w ← setLimb w a i (t &&& MASK)
      pure (w, t >>> 32))
    (w, carry)
  let w ← setLimb w a n carry
  pure (w.setLen a (n + 1#32))

def magnitudeSubMul (w : World ι σ) (a b : Nat) (m : BitVec 64) : Outcome (Bool × World ι σ) := do
  let n := longer w a b + 1#32
  let w ← reserve A fuel w a n
  let lb := (w.ints b).len
  let (w, borrow) ← forLoop fuel 0#32 lb
    (fun i (w, borrow) => do
      let x ← limb w a i
      let y ← limb w b i
      let t := x - y * m - borrow
      let w ← setLimb w a i (t &&& MASK)
      pure (w, 0#64 - t.sshiftRight 32))
    (w, 0#64)
  let (w, borrow) ← forLoop fuel lb n
    (fun i (w, borrow) => do
      let x ← limb w a i
      let t := x - borrow
      let w ← setLimb w a i (t &&& MASK)
      pure (w, 0#64 - t.sshiftRight 32))
    (w, borrow)
  let w := w.setLen a n
  if borrow = 0#64 then pure (false, w)
  else do
    -- two's complement over n limbs: complement each, then add one
    let (w, _) ← forLoop fuel 0#32 n
      (fun i (w, carry) => do
        let x ← limb w a i
        let t := ((x ^^^ -1#64) &&& MASK) + carry
        let w ← setLimb w a i (t &&& MASK)
        pure (w, t >>> 32))
      (w, 1#64)
    pure (true, w)

def addMulSmall (w : World ι σ) (a b : Nat) (m : BitVec 32) : Outcome (World ι σ) := do
  require ((-2147483648#32).slt m)
  let mm := m.signExtend 64
  let termNeg := if m.slt 0#32 then !(w.ints b).neg else (w.ints b).neg
  let mm := if mm.slt 0#64 then 0#64 - mm else mm
  let w := if isZero w a then w.setNeg a termNeg else w
  if (w.ints a).neg = termNeg then do
    let w ← magnitudeAddMul A fuel w a b mm
    trim fuel w a
  else do
    let (larger, w) ← magnitudeSubMul A fuel w a b mm
    trim fuel (if larger then w.setNeg a !(w.ints a).neg else w) a

def subMulSmall (w : World ι σ) (a b : Nat) (m : BitVec 32) : Outcome (World ι σ) := do
  require ((-2147483648#32).slt m)
  addMulSmall A fuel w a b (0#32 - m)

def mulSmall (w : World ι σ) (a : Nat) (m : BitVec 32) : Outcome (World ι σ) := do
  require ((-2147483648#32).slt m)
  let w ← reserve A fuel w a ((w.ints a).len + 1#32)
  let mm := m.signExtend 64
  let w := if m.slt 0#32 then w.setNeg a !(w.ints a).neg else w
  let mm := if m.slt 0#32 then 0#64 - mm else mm
  let (w, carry) ← forLoop fuel 0#32 (w.ints a).len
    (fun i (w, carry) => do
      let x ← limb w a i
      let t := x * mm + carry
      let w ← setLimb w a i (t &&& MASK)
      pure (w, t >>> 32))
    (w, 0#64)
  let w ← setLimb w a (w.ints a).len carry
  trim fuel (w.setLen a ((w.ints a).len + 1#32)) a

end Aipl.StdBigint
