import Aipl.Std.Buf.Content
import Aipl.Std.Url.Model
import Aipl.Std.Vec

/-! # `std/path`

File paths as text, as the source takes them apart and puts them together.  A str is its bytes; of what is
allocated, the vec of parts and the buffer are here. -/

namespace Aipl.StdPath

open Aipl.Lib Aipl.Lib.Outcome Aipl.Std Aipl.StdBytes
open Aipl.StdBuf (Content)
open Aipl.StdUrl (Bytes fromBytes)

variable {σ : Type} (A : Allocator σ) (fuel : Nat)

def piece (b : Bytes) (from_ to_ : Nat) : Outcome Bytes := do
  let s ← slice b from_ (to_ - from_)
  fromBytes fuel s

/-- A round of a loop that goes back while the byte before is a `/`, or while it is not. -/
def backRound (b : Bytes) (slash : Bool) (i : Nat) : Outcome (Nat ⊕ Nat) :=
  if 0 < i then do
    let c ← byteAt b (i - 1)
    pure (if decide (c = 47) = slash then .inl (i - 1) else .inr i)
  else pure (.inr i)

/-- A round of a loop that goes on while the byte is a `/`, or while it is not. -/
def onRound (b : Bytes) (slash : Bool) (i : Nat) : Outcome (Nat ⊕ Nat) :=
  if i < b.length then do
    let c ← byteAt b i
    pure (if decide (c = 47) = slash then .inl (i + 1) else .inr i)
  else pure (.inr i)

def afterSlash (b : Bytes) : Outcome Nat := iterate (backRound b false) fuel b.length

def isAbsolute (p : Bytes) : Outcome Bool :=
  if 0 < p.length then do
    let c ← byteAt p 0
    pure (decide (c = 47))
  else pure false

/-- Whether nothing is to stand between a path and what is put after it. -/
def endsOpen (a : Bytes) : Outcome Bool :=
  if a.length = 0 then pure true
  else do
    let c ← byteAt a (a.length - 1)
    pure (decide (c = 47))

def join (a b : Bytes) : Outcome Bytes := do
  if ← isAbsolute b then pure b
  else do
    let bare ← endsOpen a
    pure (if bare then a ++ b else (a ++ [47#8]) ++ b)

def fileName (p : Bytes) : Outcome Bytes := do
  let i ← afterSlash fuel p
  piece fuel p i p.length

def parent (p : Bytes) : Outcome Bytes := do
  let i ← afterSlash fuel p
  let allSlashes ← foldAll (fun all k => do
      let c ← byteAt p k
      pure (if c ≠ 47 then false else all))
    true (List.range i)
  let head ← (if allSlashes then pure i else iterate (backRound p true) fuel i : Outcome Nat)
  piece fuel p 0 head

/-! ### `normalize` -/

/-- The root of a path that begins with `lead` slashes. -/
def rootOf (lead : Nat) : Bytes := if lead = 0 then [] else if lead = 2 then [47#8, 47#8] else [47#8]

/-- Whether the last part is a name that two dots take. -/
def takesLast (parts : Vec σ Bytes) : Outcome Bool :=
  if (0#32).slt parts.len then do
    let last ← parts.at_ (parts.len - 1#32)
    pure (decide (last ≠ [46#8, 46#8]))
  else pure false

/-- What a part does to the parts before it. -/
def addPart (rooted : Bool) (parts : Vec σ Bytes) (part : Bytes) : Outcome (Vec σ Bytes) := do
  if part.length = 0 ∨ part = [46#8] then pure parts
  else if part = [46#8, 46#8] then do
    if ← takesLast parts then do
      let (_, parts) ← parts.pop
      pure parts
    else if rooted then pure parts
    else parts.push A view part
  else parts.push A view part

/-- A round of the loop over the parts. -/
def partRound (b : Bytes) (rooted : Bool) (s : Nat × Vec σ Bytes) : Outcome (Nat × Vec σ Bytes ⊕ Vec σ Bytes) := do
  let (i, parts) := s
  if i < b.length then do
    let e ← iterate (onRound b false) fuel i
    let part ← slice b i (e - i)
    let parts ← addPart A rooted parts part
    pure (.inl (e + 1, parts))
  else pure (.inr parts)

/-- The `k`-th part goes out, after a `/` if it is not the first. -/
def pushPart (parts : Vec σ Bytes) (o : Content σ) (k : Nat) : Outcome (Content σ) := do
  let o ← (if 0 < k then o.pushByte A fuel 47#32 else pure o : Outcome (Content σ))
  let part ← parts.at_ (BitVec.ofNat 32 k)
  o.pushBytes A fuel part

def normalize (heap : σ) (p : Bytes) : Outcome Bytes := do
  if p.length = 0 then pure [46#8]
  else do
    let lead ← iterate (onRound p true) fuel 0
    let root := rootOf lead
    let parts ← Vec.make A view heap 8#32
    let parts ← iterate (partRound A fuel p (decide (0 < root.length))) fuel (lead, parts)
    let o ← Content.make A parts.heap (BitVec.ofNat 32 (p.length + 2))
    let o ← o.pushBytes A fuel root
    let o ← foldAll (pushPart A fuel parts) o (List.range parts.len.toNat)
    let s ← (if o.len = 0#32 then pure [46#8] else fromBytes fuel o.bytes : Outcome Bytes)
    let heap ← o.free A
    let _ ← Vec.free A view { parts with heap }
    pure s

end Aipl.StdPath
