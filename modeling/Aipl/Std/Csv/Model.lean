import Aipl.Std.Stream.Reads
import Aipl.Std.Stream.Writer
import Aipl.Std.Vec

/-! # `std/csv`, as its source computes it

The reader's state machine and the writer's quoting, over the readers and writers of `std/stream`.  A row's
fields are slices of one buffer; the views handed out are kept as the start and length of each.  Column
names and the typed readers of fields are left out.
-/

namespace Aipl.StdCsv

open Aipl.Lib Aipl.Lib.Outcome Aipl.Std
open Aipl.StdBuf (Content)
open Aipl.StdStream (byteAt slice)

inductive State where
  | startRecord
  | startField
  | inField
  | inQuoted
  | quoteInQuoted
  | eatCrnl
deriving DecidableEq, Repr

/-- `csv.Reader`. -/
structure Reader (σ : Type) where
  src : StdStream.Reader σ
  delim : BitVec 32
  state : State
  data : Content σ
  fieldStart : BitVec 32
  spans : Vec σ (BitVec 32)
  views : Vec σ (BitVec 32 × BitVec 32)
  n : BitVec 32
  row : BitVec 32

/-- `str.Bytes`, as an element. -/
def view : ElemType (BitVec 32 × BitVec 32) := ⟨12#32, (0#32, 0#32)⟩

/-- `sizeof Reader`. -/
def SIZEOF : BitVec 32 := 48#32

variable {σ : Type} (A : Allocator σ) (fuel : Nat)

def readerWith (heap : σ) (src : StdStream.Reader σ) (delim : BitVec 32) : Outcome (Reader σ) := do
  let data ← Content.make A heap 256#32
  let spans ← Vec.make A i32 heap 32#32
  let views ← Vec.make A view heap 16#32
  let _ ← create A heap SIZEOF
  pure { src, delim, state := .startRecord, data, fieldStart := 0#32, spans, views, n := 0#32,
         row := 0#32 }

namespace Reader

def saveField (cr : Reader σ) : Outcome (Reader σ) := do
  let spans ← cr.spans.push A i32 cr.fieldStart
  let spans ← spans.push A i32 cr.data.len
  pure { cr with spans, fieldStart := cr.data.len }

def fieldLen (cr : Reader σ) : BitVec 32 := cr.data.len - cr.fieldStart

def pushByte (cr : Reader σ) (c : BitVec 32) : Outcome (Reader σ) := do
  let data ← cr.data.pushByte A fuel c
  pure { cr with data }

/-- A field's end, at a line break or the line's end. -/
def endField (cr : Reader σ) (eol : Bool) : Outcome (Reader σ) := do
  let cr ← saveField A cr
  pure { cr with state := if eol then .startRecord else .eatCrnl }

/-- A field's end, at a delimiter. -/
def nextField (cr : Reader σ) : Outcome (Reader σ) := do
  let cr ← saveField A cr
  pure { cr with state := .startField }

/-- An ordinary character, in an unquoted field. -/
def inField (cr : Reader σ) (c : BitVec 32) : Outcome (Reader σ) := do
  let cr ← pushByte A fuel cr c
  pure { cr with state := .inField }

/-- `step`, in the state `st`. -/
def stepIn (cr : Reader σ) (st : State) (c : BitVec 32) : Outcome (Reader σ) :=
  let eol : Bool := c = -1#32
  let newline : Bool := c = 10#32 || c = 13#32
  match st with
  | .startField =>
    if newline || eol then endField A cr eol
    else if c = 34#32 then pure { cr with state := .inQuoted }
    else if c = cr.delim then nextField A cr
    else inField A fuel cr c
  | .inField =>
    if newline || eol then endField A cr eol
    else if c = cr.delim then nextField A cr
    else pushByte A fuel cr c
  | .inQuoted =>
    if eol then pure cr
    else if c = 34#32 then pure { cr with state := .quoteInQuoted }
    else pushByte A fuel cr c
  | .quoteInQuoted =>
    -- "" is one quote
    if c = 34#32 then do
      let cr ← pushByte A fuel cr c
      pure { cr with state := .inQuoted }
    else if c = cr.delim then nextField A cr
    else if newline || eol then endField A cr eol
    else inField A fuel cr c
  | .eatCrnl => if eol then pure { cr with state := .startRecord } else pure cr
  | .startRecord => pure cr

/-- One character of a line, or the line's end (`c` -1). -/
def step (cr : Reader σ) (c : BitVec 32) : Outcome (Reader σ) :=
  if cr.state = .startRecord then
    if c = -1#32 then pure cr
    else if c = 10#32 || c = 13#32 then pure { cr with state := .eatCrnl }
    else stepIn A fuel cr .startField c
  else stepIn A fuel cr cr.state c

/-- The row's fields as views. -/
def finish (cr : Reader σ) : Outcome (Reader σ) := do
  let n := cr.spans.len.sdiv 2#32
  let views ← forLoop fuel 0#32 n
    (fun k views => do
      let s ← cr.spans.at_ (2#32 * k)
      let e ← cr.spans.at_ (2#32 * k + 1#32)
      let v ← slice cr.data.bytes s (e - s)
      views.push A view v)
    cr.views.clear
  pure { cr with views, n, row := cr.row + 1#32 }

/-- The last line's end, if it had no line break. -/
def endPending (cr : Reader σ) (pending : Bool) : Outcome (Reader σ) :=
  if pending then step A fuel cr (-1#32) else pure cr

/-- The end of the input. -/
def atEnd (cr : Reader σ) (pending : Bool) : Outcome (Bool × Reader σ) := do
  let cr ← endPending A fuel cr pending
  if pending ∧ cr.state = .startRecord then do
    let cr ← finish A fuel cr
    pure (true, cr)
  -- a field begun, or a quote left open, is the last
  else if (0#32).slt cr.fieldLen ∨ cr.state = .inQuoted then do
    let cr ← saveField A cr
    let cr ← finish A fuel cr
    pure (true, cr)
  else pure (false, { cr with n := 0#32 })

/-- The "\n" behind a "\r". -/
def takeNewline (cr : Reader σ) (c : BitVec 32) : Outcome (Reader σ) :=
  if c = 13#32 then do
    let (next, src) ← cr.src.peekByte A fuel
    if next = 10#32 then do
      let (_, src) ← src.readByte A fuel
      step A fuel { cr with src } 10#32
    else pure { cr with src }
  else pure cr

/-- What follows a character of a line: a line ends after "\n", "\r\n", or "\r". -/
def afterByte (cr : Reader σ) (c : BitVec 32) : Outcome (Bool × Reader σ ⊕ Bool × Reader σ) :=
  if c = 10#32 || c = 13#32 then do
    let cr ← step A fuel cr (-1#32)
    if cr.state = .startRecord then do
      let cr ← finish A fuel cr
      pure (.inr (true, cr))
    else pure (.inl (false, cr))
  else pure (.inl (true, cr))

/-- A character of a line. -/
def onByte (cr : Reader σ) (c : BitVec 32) : Outcome (Bool × Reader σ ⊕ Bool × Reader σ) := do
  let cr ← step A fuel cr c
  let cr ← takeNewline A fuel cr c
  afterByte A fuel cr c

/-- A round of `next_row`; the flag says whether characters were read since the last line ended. -/
def rowRound : Bool × Reader σ → Outcome (Bool × Reader σ ⊕ Bool × Reader σ)
  | (pending, cr) => do
    let (c, src) ← cr.src.readByte A fuel
    if c.slt 0#32 then do
      let last ← atEnd A fuel { cr with src } pending
      pure (.inr last)
    else onByte A fuel { cr with src } c

def nextRow (cr : Reader σ) : Outcome (Bool × Reader σ) :=
  iterate (rowRound A fuel) fuel (false, { cr with
    data := cr.data.clear
    spans := cr.spans.clear
    fieldStart := 0#32
    state := .startRecord })

/-- The bytes of the current row's fields. -/
def fields (cr : Reader σ) : List (List (BitVec 8)) :=
  cr.views.elems.map fun v => (cr.data.bytes.drop v.1.toNat).take v.2.toNat

/-- `(while (next_row cr) …)`: the rows, in order. -/
def rows (cr : Reader σ) : Outcome (List (List (List (BitVec 8)))) :=
  iterate (fun (cr, rows) => do
    let (more, cr) ← nextRow A fuel cr
    pure (if more then .inl (cr, rows ++ [cr.fields]) else .inr rows)) fuel (cr, [])

end Reader

/-! ### Writing -/

/-- `csv.Writer`. -/
structure Writer (σ : Type) where
  out : StdStream.Writer σ
  delim : BitVec 32
  fields : BitVec 32
  wrote : Bool
deriving DecidableEq

def writerWith (out : StdStream.Writer σ) (delim : BitVec 32) : Writer σ :=
  { out, delim, fields := 0#32, wrote := false }

namespace Writer

/-- The delimiter before a field that is not the row's first. -/
def writeDelim (cw : Writer σ) : Outcome (StdStream.Writer σ) :=
  if (0#32).slt cw.fields then cw.out.writeByte A fuel cw.delim else pure cw.out

/-- The first of the two that a quote is written as. -/
def writeFirst (c : BitVec 32) (w : StdStream.Writer σ) : Outcome (StdStream.Writer σ) :=
  if c = 34#32 then w.writeByte A fuel 34#32 else pure w

/-- A character of a quoted field. -/
def writeQuoted (c : BitVec 32) (w : StdStream.Writer σ) : Outcome (StdStream.Writer σ) := do
  let w ← writeFirst A fuel c w
  w.writeByte A fuel c

/-- Whether a field has to be quoted. -/
def needsQuote (cw : Writer σ) (b : List (BitVec 8)) : Outcome Bool :=
  forLoop fuel 0#32 (arrLen b)
    (fun k quote => do
      let c ← byteAt b k
      pure (quote || (c = cw.delim || c = 34#32 || c = 10#32 || c = 13#32)))
    false

/-- The field itself, quoted if it has to be. -/
def writeField (w : StdStream.Writer σ) (b : List (BitVec 8)) (quote : Bool) :
    Outcome (StdStream.Writer σ) :=
  if quote then do
    let w ← w.writeByte A fuel 34#32
    let w ← forLoop fuel 0#32 (arrLen b)
      (fun k w => do
        let c ← byteAt b k
        writeQuoted A fuel c w)
      w
    w.writeByte A fuel 34#32
  else w.writeBytes A fuel b

def fieldBytes (cw : Writer σ) (b : List (BitVec 8)) : Outcome (Writer σ) := do
  let w ← writeDelim A fuel cw
  let quote ← needsQuote fuel cw b
  let w ← writeField A fuel w b quote
  pure { cw with
    out := w
    fields := cw.fields + 1#32
    wrote := cw.wrote || (0#32).slt (arrLen b) }

/-- A row of one empty field is written `""`, so that it reads back as one. -/
def writeEmpty (cw : Writer σ) : Outcome (StdStream.Writer σ) :=
  if cw.fields = 1#32 ∧ cw.wrote = false then cw.out.writeBytes A fuel [34#8, 34#8] else pure cw.out

def endRow (cw : Writer σ) : Outcome (Writer σ) := do
  let w ← writeEmpty A fuel cw
  let w ← w.writeBytes A fuel [13#8, 10#8]
  pure { cw with out := w, fields := 0#32, wrote := false }

end Writer

end Aipl.StdCsv
