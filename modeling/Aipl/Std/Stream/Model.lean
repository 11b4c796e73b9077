import Aipl.Std.Buf.Content

/-! # The readers of `std/stream`, as their source computes them

A reader holds a window of bytes it has read and not handed out.  The window is modelled by the bytes
it views: the reader's own array, or, for a reader of memory, the bytes it reads.  Checked accesses stop
the program outside it; the raw ones of the source (`fs.read` into the window, the copy of what a fill
function appended, the scan of `next_line`) read and write the elements the address arithmetic names, and
a raw store outside the window is lost.

A source is modelled by what it delivers: its bytes in the pieces they arrive in, and whether the read
after them fails.  A read of a file takes as much of the next piece as it has room for.  A fill function
is known by what it appends, whatever it says it did.  `close_reader` and who owns the file are left out.
-/

namespace Aipl.StdStream

open Aipl.Lib Aipl.Lib.Outcome Aipl.Std
open Aipl.StdBuf (u8 Content)

/-- What a source has left. -/
structure Supply where
  pieces : List (List (BitVec 8))
  fails : Bool

/-- `stream.Source`. -/
inductive Source where
  | fd (s : Supply)
  | memory
  | custom (s : Supply)

/-- `stream.Reader`.  `view` is the start and length of a slice of the window; `heap` the state of
the reader's allocator. -/
structure Reader (σ : Type) where
  src : Source
  win : List (BitVec 8)
  start : BitVec 32
  end_ : BitVec 32
  atEnd : Bool
  failed : Bool
  view : BitVec 32 × BitVec 32
  heap : σ

variable {σ : Type} (A : Allocator σ) (fuel : Nat)

/-! ### Views of the window -/

/-- `str.byte_at`. -/
def byteAt (win : List (BitVec 8)) (i : BitVec 32) : Outcome (BitVec 32) := do
  require ((0#32).sle i && i.slt (arrLen win))
  let c ← arrGet win i
  pure (c.setWidth 32)

/-- `str.set_byte`. -/
def setByte (win : List (BitVec 8)) (i c : BitVec 32) : Outcome (List (BitVec 8)) := do
  require ((0#32).sle i && i.slt (arrLen win))
  arrSet win i (c.setWidth 8)

/-- `str.slice`. -/
def slice (win : List (BitVec 8)) (start len : BitVec 32) : Outcome (BitVec 32 × BitVec 32) := do
  require ((0#32).sle start && ((0#32).sle len && (start + len).sle (arrLen win)))
  pure (start, len)

/-- `mem.load8` at the window's address. -/
def load (win : List (BitVec 8)) (i : BitVec 32) : BitVec 8 := win.getD i.toNat 0#8

/-- Bytes stored from `i` on. -/
def storeAll : List (BitVec 8) → Nat → List (BitVec 8) → List (BitVec 8)
  | win, _, [] => win
  | win, i, b :: bs => storeAll (win.set i b) (i + 1) bs

/-- `fs.read`: how many bytes, the window with them, and what is left. -/
def fsRead (s : Supply) (win : List (BitVec 8)) (at_ room : BitVec 32) :
    BitVec 32 × List (BitVec 8) × Supply :=
  match s.pieces with
  | [] => (if s.fails then -1#32 else 0#32, win, s)
  | p :: ps =>
    let got := p.take room.toNat
    let rest := p.drop room.toNat
    (arrLen got, storeAll win at_.toNat got, { s with pieces := if rest = [] then ps else rest :: ps })

/-- A call of a fill function: what it says, what it appended, and what is left. -/
def callFill (s : Supply) : BitVec 32 × List (BitVec 8) × Supply :=
  match s.pieces with
  | [] => (if s.fails then -1#32 else 0#32, [], s)
  | p :: ps => (arrLen p, p, { s with pieces := ps })

/-! ### Readers -/

def makeReader (heap : σ) (src : Source) (win : List (BitVec 8)) (end_ : BitVec 32) (atEnd : Bool) :
    Outcome (Reader σ) := do
  let view ← slice win 0#32 0#32
  pure { src, win, start := 0#32, end_, atEnd, failed := false, view, heap }

/-- A reader with a window of its own, 8 KiB to start. -/
def ownedReader (heap : σ) (src : Source) : Outcome (Reader σ) := do
  let (store, heap) ← array A u8 heap 8192#32
  makeReader heap src store 0#32 false

def ofBytes (heap : σ) (b : List (BitVec 8)) : Outcome (Reader σ) := do
  require ((0#32).sle (arrLen b))
  makeReader heap .memory b (arrLen b) true

namespace Reader

def cap (r : Reader σ) : BitVec 32 := arrLen r.win

/-- Moves the unread bytes to the window's start. -/
def compact (r : Reader σ) : Outcome (Reader σ) := do
  let s := r.start
  let n := r.end_ - s
  if (0#32).slt s then do
    let win ← forLoop fuel 0#32 n
      (fun i win => do
        let c ← byteAt win (s + i)
        setByte win i c)
      r.win
    pure { r with win, start := 0#32, end_ := n }
  else pure r

/-- Doubles the window until `need` more bytes fit behind its first `n`. -/
def widen (r : Reader σ) (n need : BitVec 32) : Outcome (Reader σ) := do
  let bigger ← iterate (doubleRound (n + need)) fuel (r.cap * 2#32)
  let old := r.win
  let (store, heap) ← array A u8 r.heap bigger
  let store ← forLoop fuel 0#32 n
    (fun i store => do
      let c ← arrGet old i
      arrSet store i c)
    store
  let heap ← freeArray A u8 heap old
  require ((0#32).sle bigger && bigger.sle (arrLen store))
  pure { r with win := store, heap }

def makeRoom (r : Reader σ) (need : BitVec 32) : Outcome (Reader σ) := do
  let n := r.end_ - r.start
  let r ← compact fuel r
  if (n + need).sle r.cap then pure r else widen A fuel r n need

def fillFd (r : Reader σ) (s : Supply) : Outcome (BitVec 32 × Reader σ) := do
  let r ← makeRoom A fuel r 4096#32
  let (got, win, s) := fsRead s r.win r.end_ (r.cap - r.end_)
  pure (got, { r with win, src := .fd s })

def fillCustom (r : Reader σ) (s : Supply) : Outcome (BitVec 32 × Reader σ) := do
  let (got, sc, s) := callFill s
  let r := { r with src := .custom s }
  if got.slt 0#32 then pure (got, r)
  else do
    -- what it appended, whatever it said
    let n := arrLen sc
    let r ← makeRoom A fuel r n
    let at_ := r.end_
    let win ← forLoop fuel 0#32 n
      (fun i win => pure (win.set (at_ + i).toNat (load sc i)))
      r.win
    pure (n, { r with win })

/-- Asks the source for more. -/
def ask (r : Reader σ) : Outcome (BitVec 32 × Reader σ) :=
  match r.src with
  | .fd s => fillFd A fuel r s
  | .memory => pure (0#32, r)
  | .custom s => fillCustom A fuel r s

/-- What `fill` makes of the number it got. -/
def settle (r : Reader σ) (got : BitVec 32) : Bool × Reader σ :=
  if got.slt 0#32 then (false, { r with failed := true, atEnd := true })
  else if got = 0#32 then (false, { r with atEnd := true })
  else (true, { r with end_ := r.end_ + got })

/-- Reads more into the window; whether any bytes came. -/
def fill (r : Reader σ) : Outcome (Bool × Reader σ) :=
  if r.atEnd then pure (false, r)
  else do
    let (got, r) ← ask A fuel r
    pure (settle r got)

/-- Fills an empty window; whether it holds anything. -/
def fillEmpty (r : Reader σ) : Outcome (Bool × Reader σ) :=
  if r.start = r.end_ then fill A fuel r else pure (true, r)

def peekByte (r : Reader σ) : Outcome (BitVec 32 × Reader σ) := do
  let (more, r) ← fillEmpty A fuel r
  if more then do
    let c ← byteAt r.win r.start
    pure (c, r)
  else pure (-1#32, r)

def readByte (r : Reader σ) : Outcome (BitVec 32 × Reader σ) := do
  let (c, r) ← peekByte A fuel r
  pure (c, if (0#32).sle c then { r with start := r.start + 1#32 } else r)

/-- A round of the scan for the end of a line. -/
def scanRound (win : List (BitVec 8)) (e i : BitVec 32) : Outcome (BitVec 32 ⊕ BitVec 32) :=
  if i.slt e ∧ load win i ≠ 10#8 then done (.inl (i + 1#32)) else done (.inr i)

/-- The line that ends at `i`, a "\n". -/
def endLine (r : Reader σ) (i : BitVec 32) : Outcome (Reader σ) := do
  let s := r.start
  let stop := if s.slt i ∧ load r.win (i - 1#32) = 13#8 then i - 1#32 else i
  let view ← slice r.win s (stop - s)
  pure { r with view, start := i + 1#32 }

/-- The line the input ends in, if there is one. -/
def lastLine (r : Reader σ) : Outcome (Bool × Reader σ) :=
  if r.start = r.end_ then pure (false, r)
  else do
    let view ← slice r.win r.start (r.end_ - r.start)
    pure (true, { r with view, start := r.end_ })

/-- A round of `next_line`, with the number of bytes behind `start` already scanned. -/
def lineRound : Reader σ × BitVec 32 → Outcome (Reader σ × BitVec 32 ⊕ Bool × Reader σ)
  | (r, scanned) => do
    let s := r.start
    let e := r.end_
    let i ← iterate (scanRound r.win e) fuel (s + scanned)
    if i.slt e then do
      let r ← endLine r i
      pure (.inr (true, r))
    else do
      let (more, r) ← fill A fuel r
      if more then pure (.inl (r, e - s))
      else do
        let last ← lastLine r
        pure (.inr last)

def nextLine (r : Reader σ) : Outcome (Bool × Reader σ) :=
  iterate (lineRound A fuel) fuel (r, 0#32)

/-- The bytes of the line `next_line` moved to. -/
def line (r : Reader σ) : List (BitVec 8) := (r.win.drop r.view.1.toNat).take r.view.2.toNat

variable {τ : Type} (B : Allocator τ)

/-- Appends up to `max` bytes to `into`. -/
def read (r : Reader σ) (into : Content τ) (max : BitVec 32) :
    Outcome (BitVec 32 × Reader σ × Content τ) := do
  require ((0#32).slt max)
  let (more, r) ← fillEmpty A fuel r
  if more then do
    let s := r.start
    let left := r.end_ - s
    let n := if max.slt left then max else left
    let view ← slice r.win s n
    let into ← into.pushBytes B fuel ((r.win.drop view.1.toNat).take view.2.toNat)
    pure (n, { r with start := s + n }, into)
  else pure (if r.failed then -1#32 else 0#32, r, into)

end Reader

/-- The byte before `i`, if the line from `s` has one. -/
def byteBefore (b : List (BitVec 8)) (i s : BitVec 32) : Outcome (BitVec 32) :=
  if s.slt i then byteAt b (i - 1#32) else pure 0#32

/-- What `text.lines` does at a "\n": the line from `s` to it joins those before, and the next starts
behind it. -/
def breakAt (b : List (BitVec 8)) (i s : BitVec 32) (out : List (List (BitVec 8))) :
    Outcome (BitVec 32 × List (List (BitVec 8))) := do
  let before ← byteBefore b i s
  let e := if s.slt i ∧ before = 13#32 then i - 1#32 else i
  let line ← slice b s (e - s)
  pure (i + 1#32, out ++ [(b.drop line.1.toNat).take line.2.toNat])

/-- `text.lines`: the lines of `b`, by their bytes. -/
def textLines (b : List (BitVec 8)) : Outcome (List (List (BitVec 8))) := do
  let n := arrLen b
  let (s, out) ← forLoop fuel 0#32 n
    (fun i (s, out) => do
      let c ← byteAt b i
      if c = 10#32 then breakAt b i s out else pure (s, out))
    (0#32, [])
  if s.slt n then do
    let line ← slice b s (n - s)
    pure (out ++ [(b.drop line.1.toNat).take line.2.toNat])
  else pure out

end Aipl.StdStream
