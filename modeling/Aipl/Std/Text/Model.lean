import Aipl.Std.Buf.Content
import Aipl.Std.Str.Bytes
import Aipl.Std.Str.Find
import Aipl.Std.Vec

/-! # `std/text`: splitting, joining, replacing

The functions that walk the occurrences of a text, and `str.count`.  A view is its bytes; of what is allocated,
the vec of pieces and the buffers are here. -/

namespace Aipl.StdText

open Aipl.Lib Aipl.Lib.Outcome Aipl.Std Aipl.StdBytes Aipl.StdStr
open Aipl.StdBuf (Content)

abbrev Bytes := List (BitVec 8)

variable {σ : Type} (A : Allocator σ) (fuel : Nat)

/-- `buf.push_bytes`.  What a byte put outside the array does is not said. -/
def pushView (o : Content σ) (s : Bytes) : Outcome (Content σ) := do
  let o ← o.ensure A fuel (arrLen s)
  require (o.bytes.length + s.length ≤ o.cap.toNat)
  pure { o with bytes := o.bytes ++ s }

/-- A round of the loop of `split`, and of that of `replace`: `body` is given what is before the occurrence
at `i`. -/
def eachRound {α : Type} (b sep : Bytes) (body : α → Bytes → Outcome α) (s : α × Nat × Int) : Outcome (α × Nat × Int ⊕ α × Nat) := do
  let (acc, start, i) := s
  if 0 ≤ i then do
    let piece ← slice b start (i.toNat - start)
    let acc ← body acc piece
    let start := i.toNat + sep.length
    let i ← findFrom fuel b sep start
    pure (.inl (acc, start, i))
  else pure (.inr (acc, start))

def split (heap : σ) (b sep : Bytes) : Outcome (Vec σ Bytes) := do
  require (0 < sep.length)
  let out ← Vec.make A view heap 8#32
  let i ← findFrom fuel b sep 0
  let (out, start) ← iterate (eachRound fuel b sep (Vec.push A view)) fuel (out, 0, i)
  let piece ← slice b start (b.length - start)
  out.push A view piece

/-- The `k`-th part goes out, after `sep` if it is not the first. -/
def joinRound (parts : Vec σ Bytes) (sep : Bytes) (out : Content σ) (k : Nat) : Outcome (Content σ) := do
  let out ← (if 0 < k then pushView A fuel out sep else pure out : Outcome (Content σ))
  let part ← parts.at_ (BitVec.ofNat 32 k)
  pushView A fuel out part

def join (heap : σ) (parts : Vec σ Bytes) (sep : Bytes) : Outcome (Content σ) := do
  let out ← Content.make A heap 64#32
  foldAll (joinRound A fuel parts sep) out (List.range parts.len.toNat)

def replace (heap : σ) (b from_ to_ : Bytes) : Outcome (Content σ) := do
  require (0 < from_.length)
  let out ← Content.make A heap (arrLen b + 16#32)
  let i ← findFrom fuel b from_ 0
  let (out, start) ← iterate (eachRound fuel b from_ fun out piece => do
      let out ← pushView A fuel out piece
      pushView A fuel out to_) fuel (out, 0, i)
  let piece ← slice b start (b.length - start)
  pushView A fuel out piece

/-- A round of the loop of `str.count`. -/
def countRound (b p : Bytes) (s : Nat × Int) : Outcome (Nat × Int ⊕ Nat) := do
  let (k, i) := s
  if 0 ≤ i then do
    let next := i.toNat + p.length
    let i ← (if next ≤ b.length then findFrom fuel b p next else pure (-1) : Outcome Int)
    pure (.inl (k + 1, i))
  else pure (.inr k)

/-- `str.count`. -/
def count (b p : Bytes) : Outcome Nat := do
  require (0 < p.length)
  let i ← findFrom fuel b p 0
  iterate (countRound fuel b p) fuel (0, i)

/-- What the four make of one text. -/
structure Texts where
  pieces : List Bytes
  joined : Bytes
  rejoined : Bytes
  replaced : Bytes
  count : Nat

/-- The four, one after another. -/
def texts (heap : σ) (b sep to_ : Bytes) : Outcome Texts := do
  let pieces ← split A fuel heap b sep
  let joined ← join A fuel pieces.heap pieces sep
  let rejoined ← join A fuel joined.heap pieces to_
  let replaced ← replace A fuel rejoined.heap b sep to_
  let n ← count fuel b sep
  pure { pieces := pieces.elems, joined := joined.bytes, rejoined := rejoined.bytes, replaced := replaced.bytes, count := n }

end Aipl.StdText
