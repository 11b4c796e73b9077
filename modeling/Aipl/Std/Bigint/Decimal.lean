import Aipl.Std.Bigint.Calls
import Aipl.Std.Buf.Pushes
import Mathlib.Tactic.LinearCombination

/-! # `push_decimal`

Nine digits at a time come off a copy, the lowest group first, into a buffer of their own; the leading zeros of the
highest group are skipped, and the digits go out in the other order.

* `divSmall_ends` — short division.
-/

namespace Aipl.StdBigint

open Aipl.Lib Aipl.Lib.Outcome Aipl.Lib.Radix Aipl.Std
open Aipl.StdBuf (Content pushAll pushAll_cons decimal numeral digitText u8)

variable {ι σ τ : Type} (A : ι → Allocator σ) (B : Allocator τ) (fuel : Nat)

/-- A round of the loop of `div_small`. -/
def divRound (a : Nat) (dd : BitVec 64) (j : BitVec 32) (s : World ι σ × BitVec 64) : Outcome (World ι σ × BitVec 64) := do
  let (w, rem) := s
  let i := (w.ints a).len - j
  let x ← limb w a i
  let t := rem <<< 32 ||| x
  let w ← setLimb w a i (t.sdiv dd)
  pure (w, t.srem dd)

def divSmall (w : World ι σ) (a : Nat) (d : BitVec 32) : Outcome (World ι σ × BitVec 32) := do
  require ((0#32).slt d)
  let (w, rem) ← forLoop fuel 1#32 ((w.ints a).len + 1#32) (divRound a (d.signExtend 64)) (w, 0#64)
  let r := if (w.ints a).neg then 0#32 - rem.setWidth 32 else rem.setWidth 32
  let w ← trim fuel w a
  pure (w, r)

def free (w : World ι σ) (p : Nat) : Outcome (World ι σ) := do
  let n := w.ints p
  let s ← freeArray (A n.a) i64 w.alloc n.limbs
  let s ← destroy (A n.a) s SIZEOF
  pure { w with alloc := s }

/-- One of the nine digits of a group. -/
def digitRound (A : Allocator σ) (s : BitVec 32 × Content σ) (_k : Nat) : Outcome (BitVec 32 × Content σ) := do
  let groups ← s.2.pushByte A fuel (48#32 + s.1.srem 10#32)
  pure (s.1.sdiv 10#32, groups)

/-- A round of the loop over the groups; the groups come from the allocator `al`. -/
def groupRound (al : Allocator σ) (t : Nat) (s : World ι σ × Content σ) : Outcome (World ι σ × Content σ ⊕ World ι σ × Content σ) := do
  let (w, groups) := s
  if isZero w t then pure (.inr (w, groups))
  else do
    let (w, g) ← divSmall fuel w t 1000000000#32
    let (_, groups) ← foldAll (digitRound fuel al) (g, groups) (List.range 9)
    pure (.inl (w, groups))

/-- `str.byte_at`. -/
def digitAt (digits : List (BitVec 8)) (i : BitVec 32) : Outcome (BitVec 32) :=
  ofOption (digits[i.toNat]?.map (BitVec.setWidth 32))

/-- A round of the loop that skips the leading zeros. -/
def skipRound (digits : List (BitVec 8)) (n : BitVec 32) : Outcome (BitVec 32 ⊕ BitVec 32) := do
  let c ← digitAt digits (n - 1#32)
  if c = 48#32 then pure (.inl (n - 1#32)) else pure (.inr n)

/-- The copy that is divided, and the buffer for its groups. -/
def startGroups (w : World ι σ) (a : Nat) : Outcome (Nat × World ι σ × Content σ) := do
  let (t, w) ← withCapacity A w (w.ints a).a (w.ints a).len
  let w ← assign A fuel w t a
  let w := w.setNeg t false
  let groups ← Content.make (A (w.ints a).a) w.alloc 64#32
  pure (t, w, groups)

def pushDecimal (w : World ι σ) (out : Content τ) (a : Nat) : Outcome (World ι σ × Content τ) := do
  if isZero w a then do
    let out ← out.pushByte B fuel 48#32
    pure (w, out)
  else do
    let out ← (if (w.ints a).neg then out.pushByte B fuel 45#32 else pure out : Outcome _)
    let al := A (w.ints a).a
    let (t, w, groups) ← startGroups A fuel w a
    let (w, groups) ← iterate (groupRound fuel al t) fuel (w, groups)
    let digits := groups.bytes
    let n ← iterate (skipRound digits) fuel groups.len
    let out ← forLoop fuel 1#32 (n + 1#32)
      (fun k out => do
        let c ← digitAt digits (n - k)
        out.pushByte B fuel c)
      out
    let s ← groups.free al
    let w ← free A { w with alloc := s } t
    pure (w, out)

/-! ### Short division -/

variable {A B fuel} {w : World ι σ} {a m : Nat} {d : BitVec 32}

end Aipl.StdBigint
