import Aipl.Std.Buf.Pushes

/-! # `arm64`: immediates, as the encoder's source computes them

The code buffer is its content while instructions are appended, and its place in memory while they are patched.
Registers, sizes and halfwords are words, as the source has them.
-/

namespace Aipl.Arm64

open Lib Lib.Outcome Aipl.Std StdBuf

section Emit

variable {σ : Type} (A : Allocator σ) (fuel : Nat)

/-- The instruction word `v`, little-endian. -/
def emit (c : Content σ) (v : BitVec 32) : Outcome (Content σ) := do
  let c ← c.pushByte A fuel (v &&& 255)
  let c ← c.pushByte A fuel ((v >>> 8) &&& 255)
  let c ← c.pushByte A fuel ((v >>> 16) &&& 255)
  c.pushByte A fuel ((v >>> 24) &&& 255)

def sf (sz : BitVec 32) : Outcome (BitVec 32) := do
  require (sz == 32 || sz == 64)
  pure (if sz = 64 then 1#32 <<< 31 else 0)

/-- A register field. -/
def r (x : BitVec 32) : Outcome (BitVec 32) := do
  require ((0#32).sle x && x.sle 31)
  pure x

def moveWide (c : Content σ) (sz opc rd imm16 shift : BitVec 32) : Outcome (Content σ) := do
  require ((0#32).sle imm16 && imm16.sle 65535)
  require (shift == 0 || (shift == 16 || (sz == 64 && shift == 32 || sz == 64 && shift == 48)))
  let s ← sf sz
  let d ← r rd
  emit A fuel c (s ||| (opc <<< 29 ||| (37#32 <<< 23 ||| ((shift >>> 4) <<< 21 ||| (imm16 <<< 5 ||| d)))))

def movz (c : Content σ) (sz rd imm16 shift : BitVec 32) : Outcome (Content σ) :=
  moveWide A fuel c sz 2 rd imm16 shift

def movk (c : Content σ) (sz rd imm16 shift : BitVec 32) : Outcome (Content σ) :=
  moveWide A fuel c sz 3 rd imm16 shift

def movn (c : Content σ) (sz rd imm16 shift : BitVec 32) : Outcome (Content σ) :=
  moveWide A fuel c sz 0 rd imm16 shift

/-- The halfword `k` of `v`. -/
def half (v : BitVec 64) (k : Nat) : BitVec 32 := ((v >>> (16 * k)) &&& 65535).setWidth 32

def movImm (c : Content σ) (sz rd : BitVec 32) (v : BitVec 64) : Outcome (Content σ) := do
  let n := if sz = 64 then 4 else 2
  let zeros := (List.range n).foldl (fun zeros k => if half v k = 0 then zeros + 1 else zeros) 0
  let ones := (List.range n).foldl (fun ones k => if half v k = 65535 then ones + 1 else ones) 0
  let fill : BitVec 32 := if zeros < ones then 65535 else 0
  let first : Int := (List.range n).foldl
    (fun first k => if first < 0 ∧ half v k ≠ fill then (k : Int) else first) (-1)
  if first < 0 then
    -- all `fill`
    if fill = 0 then movz A fuel c sz rd 0 0 else movn A fuel c sz rd 0 0
  else do
    let k := first.toNat
    let c ← (if fill = 0 then movz A fuel c sz rd (half v k) (16 * BitVec.ofNat 32 k)
      else movn A fuel c sz rd (half v k ^^^ 65535) (16 * BitVec.ofNat 32 k))
    foldAll (fun c k => if half v k ≠ fill then movk A fuel c sz rd (half v k) (16 * BitVec.ofNat 32 k) else pure c) c
      (List.range' (k + 1) (n - (k + 1)))

end Emit

/-! ### Logical and floating-point immediates -/

/-- One round of the loop over rotations, which returns at the first that brings the run to the bottom. -/
def logicImmRound (sz : BitVec 32) (x low mask : BitVec 64) (n r : Nat) : Option (BitVec 32) :=
  let rot := if r = 0 then x else ((x <<< r) ||| (x >>> (sz.toNat - r))) &&& mask
  if rot = low then
    some ((if sz = 64 then 1#32 else 0#32) <<< 12 ||| (BitVec.ofNat 32 r <<< 6 ||| (BitVec.ofNat 32 n - 1)))
  else none

/-- `logic_imm_field`, of a size that is not negative. -/
def logicImmField (sz : BitVec 32) (v : BitVec 64) : BitVec 32 :=
  let x := if sz = 32 then v &&& 4294967295 else v
  let n := (List.range sz.toNat).foldl (fun n k => if (x >>> k) &&& 1 ≠ 0 then n + 1 else n) 0
  if n = 0 ∨ n = sz.toNat then -1
  else
    let low := (1#64 <<< n) - 1
    let mask : BitVec 64 := if sz = 32 then 4294967295 else -1
    ((List.range sz.toNat).findSome? (logicImmRound sz x low mask n)).getD (-1)

def fpImm8 (ft : BitVec 32) (v : BitVec 64) : BitVec 32 :=
  let sign : BitVec 32 := if ft = 1 then ((v >>> 63) &&& 1).setWidth 32 else ((v >>> 31) &&& 1).setWidth 32
  let exp : BitVec 32 := if ft = 1 then ((v >>> 52) &&& 2047).setWidth 32 else ((v >>> 23) &&& 255).setWidth 32
  let frac := if ft = 1 then (v >>> 48) &&& 15 else (v >>> 19) &&& 15
  let lowbits := if ft = 1 then v &&& 281474976710655 else v &&& 524287
  let base : BitVec 32 := if ft = 1 then 1020 else 124
  if lowbits = 0 ∧ base.sle exp ∧ exp.sle (base + 7) then
    let e := exp - base
    let b : BitVec 32 := if e.slt 4 then 1 else 0
    sign <<< 7 ||| (b <<< 6 ||| (e.srem 4 <<< 4 ||| frac.setWidth 32))
  else -1

/-! ### Patches -/

section Patch

variable (R : Runtime) (m : Mem) (c : Buf)

/-- The instruction at a position. -/
def wordAt (at_ : BitVec 32) : Outcome (BitVec 32) := do
  require ((0#32).sle at_ && (at_ + 4).sle c.len)
  load32 m (c.data + at_)

def setWord (at_ v : BitVec 32) : Outcome Mem :=
  let p := c.data + at_
  foldAll (fun m k => store8 R m (p + BitVec.ofNat 32 k) ((v >>> (8 * k)) &&& 255)) m (List.range 4)

/-- A patch sets the bits outside `keep`. -/
def patch (at_ keep bits : BitVec 32) : Outcome Mem := do
  let w ← wordAt m c at_
  setWord R m c at_ ((w &&& keep) ||| bits)

def patchB (at_ target : BitVec 32) : Outcome Mem := do
  require ((target - at_).srem 4 == 0)
  require ((-33554432#32).sle ((target - at_).sdiv 4) && ((target - at_).sdiv 4).sle 33554431)
  let off := (target - at_).sdiv 4
  patch R m c at_ (-67108864) (off &&& 67108863)

def patchCond (at_ target : BitVec 32) : Outcome Mem := do
  require ((target - at_).srem 4 == 0)
  require ((-262144#32).sle ((target - at_).sdiv 4) && ((target - at_).sdiv 4).sle 262143)
  let off := (target - at_).sdiv 4
  patch R m c at_ (-16777185) ((off &&& 524287) <<< 5)

def patchAdr (at_ target : BitVec 32) : Outcome Mem := do
  require ((-1048576#32).sle (target - at_) && (target - at_).sle 1048575)
  let off := target - at_
  patch R m c at_ (-1627389921) ((off &&& 3) <<< 29 ||| ((off >>> 2) &&& 524287) <<< 5)

end Patch

example : logicImmField 64 0xff0 = BitVec.ofNat 32 (2 ^ 12 + 60 * 2 ^ 6 + 7) := by decide +kernel

example : fpImm8 1 0x3ff0000000000000 = 0x70 := by decide

end Aipl.Arm64
