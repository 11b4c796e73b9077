import Aipl.Lib.Leb128

/-! # The line table

* `encodeLines` — the contents of the section `aipl.lines`, as the compiler writes them.
* `tryRead`, `LineTable.find` — as `aipl-run` reads them, and looks a position up.
* `withoutLines` — a module without the section.
* `Module` — modules: a header, and sections with their sizes.

Slices are lists; a `HashMap` is a function.  The sizes of what is read are numbers that may be larger than a
`usize`; such a size runs past the end. -/

namespace Aipl.Compiler.Lines

open Aipl.Lib

abbrev Bytes := List (BitVec 8)

/-- `str::as_bytes`. -/
def asBytes (s : String) : Bytes := s.toByteArray.data.toList.map UInt8.toBitVec

/-! ### Writing -/

/-- A source position: file name, line, column. -/
structure Pos where
  file : String
  line : BitVec 32
  col : BitVec 32
deriving DecidableEq

/-- A function's index, and its positions by their offsets in the body. -/
abbrev FnLines := BitVec 32 × List (BitVec 32 × Pos)

/-- `u`: an unsigned number, as LEB128. -/
def u (v : BitVec 32) : Bytes := Leb.encodeNat v.toNat

/-- `s`: a signed one. -/
def s (v : Int) : Bytes := Leb.encodeInt v

/-- `len() as u32`. -/
def len32 {α : Type} (l : List α) : BitVec 32 := BitVec.ofNat 32 l.length

def addFile (files : List String) (e : BitVec 32 × Pos) : List String :=
  if files.contains e.2.file then files else files ++ [e.2.file]

/-- The files, each once, in the order they come up in. -/
def fileNames (lines : List FnLines) : List String :=
  lines.foldl (fun files l => l.2.foldl addFile files) []

/-- The positions of a function: the offset and the line are told as the difference to the last ones. -/
def encodeEntries (files : List String) : BitVec 32 → BitVec 32 → List (BitVec 32 × Pos) → Bytes
  | _, _, [] => []
  | off, line, (o, p) :: l =>
    u (o - off) ++ u (BitVec.ofNat 32 (files.idxOf p.file)) ++ s (p.line.toNat - line.toNat) ++ u p.col ++ encodeEntries files o p.line l

def encodeFn (files : List String) (f : FnLines) : Bytes := u f.1 ++ u (len32 f.2) ++ encodeEntries files 0#32 0#32 f.2

def encodeFile (f : String) : Bytes := u (len32 (asBytes f)) ++ asBytes f

/-- The functions that have positions. -/
def withLines (lines : List FnLines) : List FnLines := lines.filter fun l => !l.2.isEmpty

def encodeLines (lines : List FnLines) : Bytes :=
  let files := fileNames lines
  u (len32 files) ++ files.flatMap encodeFile ++ (u (len32 (withLines lines)) ++ (withLines lines).flatMap (encodeFn files))

/-! ### Reading -/

/-- The loops that put the groups of a number together in 64 bits: the number, its last byte, and how many bytes
it had.  Those of `try_read` give up past 63 bits. -/
def lebFrom (limited : Bool) : Bytes → BitVec 64 → Nat → Option (BitVec 64 × BitVec 8 × Nat)
  | [], _, _ => none
  | b :: bs, v, shift =>
    let v := v ||| ((b &&& 0x7f#8).setWidth 64 <<< (shift % 64))
    let shift := shift + 7
    if b &&& 0x80#8 = 0#8 then some (v, b, 1)
    else if limited && decide (63 < shift) then none
    else do
      let (v, last, n) ← lebFrom limited bs v shift
      pure (v, last, n + 1)

/-- `u` of `try_read`: the number, and the place after it. -/
def readU (b : Bytes) (at_ : Nat) : Option (Nat × Nat) := do
  let (v, _, n) ← lebFrom true (b.drop at_) 0#64 0
  pure (v.toNat, at_ + n)

/-- `s` of `try_read`. -/
def readS (b : Bytes) (at_ : Nat) : Option (Int × Nat) := do
  let (v, last, n) ← lebFrom true (b.drop at_) 0#64 0
  let v := if 7 * n < 64 ∧ last &&& 0x40#8 ≠ 0#8 then v ||| ((-1#64) <<< (7 * n)) else v
  pure (v.toInt, at_ + n)

/-- `b.get(lo..hi)`. -/
def get (b : Bytes) (lo hi : Nat) : Option Bytes := if lo ≤ hi ∧ hi ≤ b.length then some ((b.drop lo).take (hi - lo)) else none

/-- (offset in the function's body, file, line, column) -/
abbrev LineEntry := BitVec 32 × BitVec 32 × BitVec 32 × BitVec 32

/-- Of a function: where its body begins in the module, and its entries. -/
structure LineTable where
  files : List String
  funcs : BitVec 32 → Option (Nat × List LineEntry)

/-- The bodies of a code section that begins at `at_`: where each begins in the module. -/
def readBodies (sec : Bytes) (at_ : Nat) : Nat → Nat → List Nat → Option (List Nat)
  | 0, _, bodies => some bodies
  | k + 1, p, bodies => do
    let (n, p) ← readU sec p
    readBodies sec at_ k (p + n) (bodies ++ [at_ + p])

/-- The loop over the sections: the bodies, and the line table's contents.  A section has two bytes at least. -/
def readSections (wasm : Bytes) : Nat → Nat → List Nat → Option Bytes → Option (List Nat × Option Bytes)
  | 0, _, _, _ => none
  | rounds + 1, at_, bodies, table =>
    if at_ < wasm.length then do
      let id ← wasm[at_]?
      let (size, at_) ← readU wasm (at_ + 1)
      let sec ← get wasm at_ (at_ + size)
      if id = 10#8 then do
        let (count, p) ← readU sec 0
        let bodies ← readBodies sec at_ count p bodies
        readSections wasm rounds (at_ + size) bodies table
      else if id = 0#8 then do
        let (n, p) ← readU sec 0
        let name ← get sec p (p + n)
        readSections wasm rounds (at_ + size) bodies (if name = asBytes "aipl.lines" then some (sec.drop (p + n)) else table)
      else readSections wasm rounds (at_ + size) bodies table
    else some (bodies, table)

variable (lossy : Bytes → String)

/-- `String::from_utf8_lossy`; what becomes of bytes that are not UTF-8 is `lossy`. -/
def fromUtf8Lossy (b : Bytes) : String :=
  (String.fromUTF8? ⟨(b.map UInt8.ofBitVec).toArray⟩).getD (lossy b)

def readFiles (t : Bytes) : Nat → Nat → List String → Option (List String × Nat)
  | 0, p, files => some (files, p)
  | k + 1, p, files => do
    let (n, p) ← readU t p
    let name ← get t p (p + n)
    readFiles t k (p + n) (files ++ [fromUtf8Lossy lossy name])

def readEntries (t : Bytes) : Nat → Nat → BitVec 32 → Int → List LineEntry → Option (List LineEntry × Nat)
  | 0, p, _, _, entries => some (entries, p)
  | k + 1, p, off, line, entries => do
    let (o, p) ← readU t p
    let off := off + BitVec.ofNat 32 o
    let (file, p) ← readU t p
    let (delta, p) ← readS t p
    let line := line + delta
    let (col, p) ← readU t p
    readEntries t k p off line (entries ++ [(off, BitVec.ofNat 32 file, BitVec.ofInt 32 line, BitVec.ofNat 32 col)])

/-- `checked_sub`. -/
def checkedSub (a b : BitVec 32) : Option (BitVec 32) := if b ≤ a then some (a - b) else none

def readFuncs (t : Bytes) (bodies : List Nat) (imported : BitVec 32) : Nat → Nat → (BitVec 32 → Option (Nat × List LineEntry)) →
    Option (BitVec 32 → Option (Nat × List LineEntry))
  | 0, _, funcs => some funcs
  | k + 1, p, funcs => do
    let (func, p) ← readU t p
    let func := BitVec.ofNat 32 func
    let local_ ← checkedSub func imported
    let start ← bodies[local_.toNat]?
    let (count, p) ← readU t p
    let (entries, p) ← readEntries t count p 0#32 0 []
    readFuncs t bodies imported k p (Function.update funcs func (some (start, entries)))

def tryRead (wasm : Bytes) (imported : BitVec 32) : Option LineTable := do
  let (bodies, table) ← readSections wasm (wasm.length + 1) 8 [] none
  let t ← table
  let (count, p) ← readU t 0
  let (files, p) ← readFiles lossy t count p []
  let (count, p) ← readU t p
  let funcs ← readFuncs t bodies imported count p fun _ => none
  pure { files := files, funcs := funcs }

/-- `partition_point`, of a slice that the predicate holds of as far as a point. -/
def partitionPoint {α : Type} (l : List α) (pred : α → Bool) : Nat := (l.takeWhile pred).length

/-- "file:line:col" of the instruction at `moduleOffset` in function `func`. -/
def LineTable.find (t : LineTable) (func : BitVec 32) (moduleOffset : Nat) : Option String := do
  let (start, entries) ← t.funcs func
  if start ≤ moduleOffset then do
    let at_ := BitVec.ofNat 32 (moduleOffset - start)
    let k := partitionPoint entries fun e => decide (e.1 ≤ at_)
    if 1 ≤ k then do
      let (_, file, line, col) ← entries[k - 1]?
      let name ← t.files[file.toNat]?
      pure (name ++ ":" ++ toString line.toNat ++ ":" ++ toString col.toNat)
    else none
  else none

/-! ### Leaving the section out -/

/-- `leb` of `without_lines`; it stops when it leaves the module. -/
def leb (wasm : Bytes) (at_ : Nat) : Option (Nat × Nat) := do
  let (v, _, n) ← lebFrom false (wasm.drop at_) 0#64 0
  pure (v.toNat, at_ + n)

/-- The loop of `without_lines`. -/
def withoutFrom (wasm : Bytes) : Nat → Nat → Bytes → Option Bytes
  | 0, _, _ => none
  | rounds + 1, at_, out =>
    if at_ < wasm.length then do
      let start := at_
      let id ← wasm[at_]?
      let (size, at_) ← leb wasm (at_ + 1)
      let end_ := at_ + size
      let isLines ← (if id = 0#8 then do
          let (n, nameAt) ← leb wasm at_
          let name ← get wasm nameAt (nameAt + n)
          pure (decide (name = asBytes "aipl.lines"))
        else pure false : Option Bool)
      let out ← (if !isLines then do
          let section_ ← get wasm start end_
          pure (out ++ section_)
        else pure out : Option Bytes)
      withoutFrom wasm rounds end_ out
    else some out

def withoutLines (wasm : Bytes) : Option Bytes := do
  let header ← get wasm 0 8
  withoutFrom wasm (wasm.length + 1) 8 header

/-! ### Modules -/

/-- A number as the module has it: LEB128 of five bytes at most. -/
structure U32 (n : Nat) where
  bytes : Bytes
  isLeb : Leb.IsLeb bytes
  short : bytes.length ≤ 5
  value : Leb.unsigned bytes = n
  lt : n < 2 ^ 32

structure Body where
  bytes : Bytes
  size : U32 bytes.length

/-- What is in a section. -/
inductive Content where
  | custom (name : Bytes) (nameSize : U32 name.length) (data : Bytes)
  | code (bodies : List Body) (count : U32 bodies.length)
  | plain (id : BitVec 8) (hcustom : id ≠ 0#8) (hcode : id ≠ 10#8) (bytes : Bytes)

namespace Content

def id : Content → BitVec 8
  | custom .. => 0#8
  | code .. => 10#8
  | plain id _ _ _ => id

def bytes : Content → Bytes
  | custom name nameSize data => nameSize.bytes ++ (name ++ data)
  | code bodies count => count.bytes ++ bodies.flatMap fun b => b.size.bytes ++ b.bytes
  | plain _ _ _ bytes => bytes

end Content

structure Section where
  content : Content
  size : U32 content.bytes.length

namespace Section

def bytes (s : Section) : Bytes := s.content.id :: (s.size.bytes ++ s.content.bytes)

def isLines (s : Section) : Bool :=
  match s.content with
  | .custom name _ _ => decide (name = asBytes "aipl.lines")
  | _ => false

end Section

/-- A module's bytes: the header, and the sections one after another. -/
def moduleBytes (header : Bytes) (sections : List Section) : Bytes := header ++ sections.flatMap Section.bytes

/-- Where the bodies of a code section begin; `p` is where the first one's size is. -/
def bodyStarts : Nat → List Body → List Nat
  | _, [] => []
  | p, b :: bodies => (p + b.size.bytes.length) :: bodyStarts (p + b.size.bytes.length + b.bytes.length) bodies

/-- Where the bodies of a module begin; `at_` is where the first section is. -/
def starts : Nat → List Section → List Nat
  | _, [] => []
  | at_, s :: sections =>
    (match s.content with
      | .code bodies count => bodyStarts (at_ + 1 + s.size.bytes.length + count.bytes.length) bodies
      | _ => []) ++ starts (at_ + s.bytes.length) sections

end Aipl.Compiler.Lines
