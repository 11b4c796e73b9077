import Aipl.Lib.Fallible
import Aipl.Std.Alloc
import Aipl.Std.Str.Bytes

/-! # `std/fmt`: an `f64` with a fixed number of decimals

A big integer is an array of 40 limbs of 32 bits, held in `i64`s, least significant first.  What is written is
the list of the bytes from `out` on: a store is at a place in it, or puts a byte after it.  Where `strict` holds,
an operation on limbs that loses a bit of its result stops the program; the source's do not look. -/

namespace Aipl.StdFmt

open Aipl.Lib Aipl.Lib.Outcome Aipl.StdBytes
open Aipl.Std (Allocator ElemType array freeArray)

abbrev Limbs := List (BitVec 64)

abbrev Bytes := List (BitVec 8)

def bigLimbs : Nat := 40

/-- `arr.get` on limbs. -/
def getLimb (a : Limbs) (i : Nat) : Outcome (BitVec 64) := ofOption a[i]?

/-- `arr.set` on limbs. -/
def setLimb (a : Limbs) (i : Nat) (x : BitVec 64) : Outcome Limbs := if i < a.length then pure (a.set i x) else stop

/-- `mem.store8` at `out + i`. -/
def store8 (out : Bytes) (i : Nat) (v : Nat) : Outcome Bytes :=
  if i < out.length then pure (out.set i (BitVec.ofNat 8 v))
  else if i = out.length then pure (out ++ [BitVec.ofNat 8 v])
  else stop

/-- The number that limbs are. -/
def limbsValue (a : Limbs) : Nat := a.foldr (fun x n => x.toNat + 2 ^ 32 * n) 0

def bigBit (a : Limbs) (k : Nat) : Outcome Nat := do
  let x ← getLimb a (k / 32)
  pure ((x >>> (k % 32)) &&& 1#64).toNat

def bigIsZero (a : Limbs) : Outcome Bool := do
  let found ← firstOf (fun i => do pure (if (← getLimb a i) ≠ 0#64 then some false else none)) (List.range bigLimbs)
  pure (found.getD true)

/-- A round of the loop of `big_shl`. -/
def shlRound (s : Nat) (a : Limbs) (j : Nat) : Outcome Limbs := do
  let q := s / 32
  let r := s % 32
  let i := bigLimbs - 1 - j
  let hi ← (if q ≤ i then getLimb a (i - q) else pure 0#64)
  let lo ← (if q + 1 ≤ i ∧ r ≠ 0 then getLimb a (i - q - 1) else pure 0#64)
  setLimb a i ((hi <<< r ||| (if r = 0 then 0#64 else lo >>> (32 - r))) &&& 4294967295#64)

def bigShl (strict : Bool) (a : Limbs) (s : Nat) : Outcome Limbs := do
  require (!strict || decide (limbsValue a * 2 ^ s < 2 ^ (32 * bigLimbs)))
  foldAll (shlRound s) a (List.range bigLimbs)

/-- A round of the loop of `big_mask`. -/
def maskRound (k : Nat) (a : Limbs) (i : Nat) : Outcome Limbs :=
  let q := k / 32
  if q < i then setLimb a i 0#64
  else if i = q then do
    let x ← getLimb a i
    setLimb a i (x &&& ((1#64 <<< (k % 32)) - 1#64))
  else pure a

def bigMask (a : Limbs) (k : Nat) : Outcome Limbs := foldAll (maskRound k) a (List.range bigLimbs)

/-- A round of the loop of `big_mul_small`: the limbs and the carry. -/
def mulRound (f : BitVec 64) (s : Limbs × BitVec 64) (i : Nat) : Outcome (Limbs × BitVec 64) := do
  let x ← getLimb s.1 i
  let t := x * f + s.2
  let a ← setLimb s.1 i (t &&& 4294967295#64)
  pure (a, t >>> 32)

def bigMulSmall (strict : Bool) (a : Limbs) (f : BitVec 64) : Outcome Limbs := do
  require (!strict || decide (limbsValue a * f.toNat < 2 ^ (32 * bigLimbs)))
  let (a, _) ← foldAll (mulRound f) (a, 0#64) (List.range bigLimbs)
  pure a

/-- A round of the loop of `big_divmod_small`: the limbs and the remainder. -/
def divmodRound (d : BitVec 64) (s : Limbs × BitVec 64) (j : Nat) : Outcome (Limbs × BitVec 64) := do
  let i := bigLimbs - 1 - j
  let x ← getLimb s.1 i
  let t := s.2 <<< 32 ||| x
  let a ← setLimb s.1 i (t / d)
  pure (a, t % d)

def bigDivmodSmall (a : Limbs) (d : BitVec 64) : Outcome (Limbs × BitVec 64) :=
  foldAll (divmodRound d) (a, 0#64) (List.range bigLimbs)

def bigDigitAt (strict : Bool) (a : Limbs) (k : Nat) : Outcome Nat := do
  require (!strict || decide (limbsValue a < 16 * 2 ^ k))
  let b₀ ← bigBit a k
  let b₁ ← bigBit a (k + 1)
  let b₂ ← bigBit a (k + 2)
  let b₃ ← bigBit a (k + 3)
  pure (b₀ + (2 * b₁ + (4 * b₂ + 8 * b₃)))

/-- `put_str` at `out + n`: what is written, and the place after it. -/
def putStr (out : Bytes) (n : Nat) (s : List Nat) : Outcome (Bytes × Nat) :=
  foldAll (fun r c => do
    let out ← store8 r.1 r.2 c
    pure (out, r.2 + 1)) (out, n) s

/-- A round of the loop that writes the integer digits, the lowest first. -/
def digitRound (s : Bool × Limbs × Bytes × Nat) : Outcome (Bool × Limbs × Bytes × Nat ⊕ Bytes × Nat) := do
  let (first, whole, out, n) := s
  let more ← (if first then pure true else do pure (!(← bigIsZero whole)) : Outcome Bool)
  if more then do
    let (whole, d) ← bigDivmodSmall whole 10#64
    let out ← store8 out n (48 + d.toNat)
    pure (.inl (false, whole, out, n + 1))
  else pure (.inr (out, n))

/-- A round of the loop that turns `out[start..n)` around. -/
def swapRound (start n : Nat) (out : Bytes) (i : Nat) : Outcome Bytes := do
  let a := start + i
  let b := n - 1 - i
  let t ← byteAt out a
  let u ← byteAt out b
  let out ← store8 out a u
  store8 out b t

/-- A round of the loop over the decimals. -/
def decimalRound (strict : Bool) (k : Nat) (s : Limbs × Bytes × Nat) (_d : Nat) : Outcome (Limbs × Bytes × Nat) := do
  let (frac, out, n) := s
  if k = 0 then do
    let out ← store8 out n 48
    pure (frac, out, n + 1)
  else do
    let frac ← bigMulSmall strict frac 10#64
    let digit ← bigDigitAt strict frac k
    let out ← store8 out n (48 + digit)
    let frac ← bigMask frac k
    pure (frac, out, n + 1)

/-- A round of the loop of `round_up`, which goes down to `start`: `i` is one more than the source's. -/
def carryRound (start : Nat) (s : Bytes × Nat × Bool) : Outcome (Bytes × Nat × Bool ⊕ Bytes × Bool) := do
  let (out, i, carry) := s
  if carry && decide (start < i) then do
    let c ← byteAt out (i - 1)
    if c = 46 then pure (.inl (out, i - 1, true))
    else if c = 57 then do
      let out ← store8 out (i - 1) 48
      pure (.inl (out, i - 1, true))
    else do
      let out ← store8 out (i - 1) (c + 1)
      pure (.inl (out, i - 1, false))
  else pure (.inr (out, carry))

/-- A round of the loop that moves `out[start..n)` up by one. -/
def moveRound (n : Nat) (out : Bytes) (j : Nat) : Outcome Bytes := do
  let from_ := n - 1 - j
  let c ← byteAt out from_
  store8 out (from_ + 1) c

section

variable (fuel : Nat)

def roundUp (out : Bytes) (start n : Nat) : Outcome (Bytes × Nat) := do
  let (out, carry) ← iterate (carryRound start) fuel (out, n, true)
  if carry then do
    let out ← foldAll (moveRound n) out (List.range (n - start))
    let out ← store8 out start 49
    pure (out, n + 1)
  else pure (out, n)

/-- The integer digits of `whole` at `out + n`, and the place after them. -/
def putWhole (out : Bytes) (n : Nat) (whole : Limbs) : Outcome (Bytes × Nat) := do
  let start := n
  let (out, n) ← iterate digitRound fuel (true, whole, out, n)
  let out ← foldAll (swapRound start n) out (List.range ((n - start) / 2))
  pure (out, n)

/-- Half to even on what remains, `frac / 2 ^ k`. -/
def roundLast (out : Bytes) (start n : Nat) (frac rest : Limbs) (k : Nat) : Outcome (Bytes × Nat) := do
  let halfBit ← bigBit frac (k - 1)
  let rest ← foldAll (fun rest i => do
    let x ← getLimb frac i
    setLimb rest i x) rest (List.range bigLimbs)
  let rest ← bigMask rest (k - 1)
  let above ← (if halfBit = 1 then do pure (!(← bigIsZero rest)) else pure false : Outcome Bool)
  let tie ← (if halfBit = 1 then bigIsZero rest else pure false : Outcome Bool)
  let last ← byteAt out (n - 1)
  let lastOdd := decide ((last - 48) % 2 = 1)
  if above || (tie && lastOdd) then roundUp fuel out start n else pure (out, n)

/-- The finite numbers, `m * 2 ^ e`, after the sign. -/
def fixedFinite (strict : Bool) (m : BitVec 64) (e : Int) (digits : Nat) (out : Bytes) (n : Nat) (whole frac rest : Limbs) :
    Outcome (Bytes × Nat) := do
  let whole ← setLimb whole 0 (m &&& 4294967295#64)
  let whole ← setLimb whole 1 (m >>> 32)
  let (k, whole, frac) ← (if 0 ≤ e then do
    let whole ← bigShl strict whole e.toNat
    pure (0, whole, frac)
  else do
    let k := (-e).toNat
    let frac ← setLimb frac 0 (← getLimb whole 0)
    let frac ← setLimb frac 1 (← getLimb whole 1)
    let frac ← bigMask frac k
    let whole ← (if 64 ≤ k then do
      let whole ← setLimb whole 0 0#64
      setLimb whole 1 0#64
    else do
      let w := m >>> k
      let whole ← setLimb whole 0 (w &&& 4294967295#64)
      setLimb whole 1 (w >>> 32) : Outcome Limbs)
    pure (k, whole, frac) : Outcome (Nat × Limbs × Limbs))
  let start := n
  let (out, n) ← putWhole fuel out n whole
  let (out, n) ← (if 0 < digits then do
    let out ← store8 out n 46
    pure (out, n + 1)
  else pure (out, n) : Outcome (Bytes × Nat))
  let (frac, out, n) ← foldAll (decimalRound strict k) (frac, out, n) (List.range digits)
  if 0 < k then roundLast fuel out start n frac rest k else pure (out, n)

/-- `f64_fixed_into`, for the number of these bits: what is written, and its length. -/
def f64FixedInto (strict : Bool) (bits : BitVec 64) (digits : Nat) (whole frac rest : Limbs) : Outcome (Bytes × Nat) := do
  let neg := bits.slt 0#64
  let ex := ((bits >>> 52) &&& 2047#64).toNat
  let mant := bits &&& 4503599627370495#64
  let (out, n) ← (if neg then do
    let out ← store8 [] 0 45
    pure (out, 1)
  else pure ([], 0) : Outcome (Bytes × Nat))
  if ex = 2047 then putStr out n (if mant = 0#64 then [105, 110, 102] else [110, 97, 110])
  else do
    let m := if ex = 0 then mant else mant ||| 4503599627370496#64
    let e : Int := if ex = 0 then -1074 else ex - 1075
    fixedFinite fuel strict m e digits out n whole frac rest

/-- `i64`, as an element. -/
def i64 : ElemType (BitVec 64) := ⟨8#32, 0#64⟩

/-- `f64_fixed`: its big integers come from the heap and go back to it. -/
def f64Fixed {σ : Type} (A : Allocator σ) (strict : Bool) (heap : σ) (bits : BitVec 64) (digits : Nat) : Outcome (Bytes × Nat × σ) := do
  require (decide (digits ≤ 40))
  let (whole, heap) ← array A i64 heap (BitVec.ofNat 32 bigLimbs)
  let (frac, heap) ← array A i64 heap (BitVec.ofNat 32 bigLimbs)
  let (rest, heap) ← array A i64 heap (BitVec.ofNat 32 bigLimbs)
  let (out, n) ← f64FixedInto fuel strict bits digits whole frac rest
  let heap ← freeArray A i64 heap rest
  let heap ← freeArray A i64 heap frac
  let heap ← freeArray A i64 heap whole
  pure (out, n, heap)

end

end Aipl.StdFmt
