import Aipl.Native.WasmReader.Model

/-! # Decoding a wasm module — instructions, bodies and the section loop

`decode` runs the section loop on the machine of the reading library, then every function body from its
own start; `decodeIdeal` is the same on the library's ideal.
-/

namespace Aipl.WasmReader

open Aipl.Lib Aipl.Lib.Outcome

variable (mem : BitVec 32 → BitVec 8) (b : Bytes)

/-! ### Instructions -/

/-- The f32 conversions. -/
def conversion (op : BitVec 32) : Bool :=
  op = 168#32 || op = 170#32 || op = 174#32 || op = 178#32 || op = 180#32 || op = 182#32 || op = 183#32
    || op = 187#32 || op = 188#32 || op = 190#32

def between (op lo hi : BitVec 32) : Bool := lo.sle op && op.sle hi

/-- The immediates of an opcode: 0 none, 1 one index, 2 a block type, 3 a memory argument, 4 two indices,
5 an `i32`, 6 an `i64`, 7 an `f64`, 8 a memory index, 10 an `f32`; -1 is no instruction. -/
def plainKind (op : BitVec 32) : Int :=
  if op = 0#32 ∨ op = 5#32 ∨ op = 11#32 ∨ op = 15#32 ∨ op = 26#32 then 0
  else if op = 2#32 ∨ op = 3#32 ∨ op = 4#32 then 2
  else if op = 12#32 ∨ op = 13#32 ∨ op = 16#32 then 1
  else if op = 17#32 then 4
  else if between op 32#32 36#32 then 1
  else if between op 40#32 47#32 then 3
  else if between op 54#32 59#32 then 3
  else if op = 63#32 ∨ op = 64#32 then 8
  else if op = 65#32 then 5
  else if op = 66#32 then 6
  else if op = 68#32 then 7
  else if op = 67#32 then 10
  else if between op 69#32 79#32 then 0
  else if between op 81#32 90#32 then 0
  else if between op 91#32 102#32 then 0
  else if between op 103#32 105#32 then 0
  else if between op 106#32 120#32 then 0
  else if between op 121#32 123#32 then 0
  else if between op 124#32 138#32 then 0
  else if between op 146#32 149#32 then 0
  else if between op 160#32 163#32 then 0
  else if op = 159#32 then 0
  else if op = 167#32 ∨ op = 172#32 ∨ op = 173#32 ∨ op = 176#32 ∨ op = 185#32 ∨ op = 189#32 ∨ op = 191#32 then 0
  else if conversion op then 0
  else -1

def atomicOk (sub : BitVec 32) : Bool :=
  sub = 0#32 || sub = 1#32 || sub = 16#32 || sub = 23#32 || sub = 30#32 || sub = 65#32 || sub = 72#32

/-- Little-endian bytes, `n` of them: the bits of a float, from the byte `k` on. -/
def floatBits : Nat → Nat → BitVec 64 → Reading (BitVec 64)
  | 0, _, bits => pure bits
  | n + 1, k, bits => do
    let c ← byte b
    floatBits n (k + 1) (bits ||| (c.setWidth 64 <<< (8 * k)))

/-- An opcode, with the sub-opcode of a prefixed one, and the kind of its immediates. -/
def opcode : Reading (BitVec 32 × Int) := do
  let op ← byte b
  if op = 252#32 then do
    let sub ← u32 b
    pure (64512#32 + sub, if sub = 8#32 then 9 else -1)
  else if op = 254#32 then do
    let sub ← u32 b
    pure (65024#32 + sub, if atomicOk sub then 3 else -1)
  else pure (op, plainKind op)

/-- The instruction at the cursor; `start` is where its body's code starts. -/
def readInstr (start : BitVec 32) : Reading Instr := do
  let at_ ← .pos
  let (op, kind) ← opcode b
  let ins : Instr := ⟨op, 0#32, 0#32, 0#64, at_ - start⟩
  if kind = 0 then pure ins
  else if kind = 1 then do
    let a ← u32 b
    pure { ins with a }
  else if kind = 2 then do
    let bt ← byte b
    if bt = 64#32 ∨ bt = 127#32 ∨ bt = 126#32 ∨ bt = 125#32 ∨ bt = 124#32 then pure { ins with a := bt }
    else do
      fail "unsupported block type"
      pure ins
  else if kind = 3 ∨ kind = 4 then do
    let a ← u32 b
    let b ← u32 b
    pure { ins with a, b }
  else if kind = 5 then do
    let c ← s32 b
    pure { ins with c := c.signExtend 64 }
  else if kind = 6 then do
    let c ← s64 b
    pure { ins with c }
  else if kind = 7 then do
    let c ← floatBits b 8 0 0#64
    pure { ins with c }
  else if kind = 10 then do
    let c ← floatBits b 4 0 0#64
    pure { ins with c }
  else if kind = 8 then do
    let b ← byte b
    pure { ins with b }
  else if kind = 9 then do
    let a ← u32 b
    let b ← byte b
    pure { ins with a, b }
  else do
    failOp op at_
    pure ins

def locals : Reading Locals := do
  let count ← u32 b
  let type ← valtype b
  pure ⟨count, type⟩

def codeRound (codeStart end_ : BitVec 32) (code : List Instr) : Reading (List Instr ⊕ List Instr) := do
  let pos ← .pos
  let failed ← .failed
  if pos.slt end_ && !failed then do
    let ins ← readInstr b codeStart
    .hold
    pure (.inl (code ++ [ins]))
  else pure (.inr code)

/-- A body from `start` to `end_`, with the cursor at its start: local declarations, then instructions. -/
def readBody (start end_ : BitVec 32) : Reading Body := do
  let groups ← u32 b
  let locals ← push groups (locals b)
  let codeStart ← .pos
  let code ← .loop (codeRound b codeStart end_) []
  let failed ← .failed
  let pos ← .pos
  failIf (!failed && pos ≠ end_) "function body length does not match its instructions"
  pure ⟨locals, code, codeStart - start⟩

/-! ### The section loop -/

/-- The contents of the section `id`, which ends at `end_`. -/
def section_ (id end_ : BitVec 32) (w : Wasm) : Reading Wasm :=
  if id = 0#32 then do
    let w ← readCustom mem b w end_
    .seek end_
    pure w
  else if id = 1#32 then readTypes b w
  else if id = 2#32 then readImports b w
  else if id = 3#32 then readFunctions b w
  else if id = 4#32 then readTables b w
  else if id = 5#32 then readMemories b w
  else if id = 6#32 then readGlobals b w
  else if id = 7#32 then readExports b w
  else if id = 8#32 then do
    let start ← u32 b
    pure { w with start }
  else if id = 9#32 then readElems b w
  else if id = 10#32 then readCode b w
  else if id = 11#32 then readDatas b w
  else if id = 12#32 then do
    let dataCount ← u32 b
    pure { w with dataCount }
  else do
    fail "unsupported section"
    pure w

/-- The section at the cursor. -/
def sectionBody (w : Wasm) : Reading (Wasm ⊕ Wasm) := do
  let id ← byte b
  let size ← u32 b
  let pos ← .pos
  let end_ := pos + size
  if b.len.slt end_ then do
    fail "section runs past the end of the module"
    pure (.inr w)
  else do
    let w ← section_ mem b id end_ w
    let failed ← .failed
    let pos ← .pos
    failIf (!failed && pos ≠ end_) "section length does not match its contents"
    pure (.inl w)

def sectionRound (w : Wasm) : Reading (Wasm ⊕ Wasm) := do
  let pos ← .pos
  let failed ← .failed
  if pos.slt b.len && !failed then sectionBody mem b w else pure (.inr w)

/-- Whether the next bytes differ from these; the first that differs is the last one read. -/
def differ : List (BitVec 32) → Reading Bool
  | [] => pure false
  | x :: xs => do
    let c ← byte b
    if c ≠ x then pure true else differ xs

/-- `"\0asm"`, version 1, then sections. -/
def sections : Reading Wasm := do
  let magic ← differ b [0#32, 97#32, 115#32, 109#32]
  failIf magic "not a wasm module (bad magic)"
  let version ← differ b [1#32, 0#32, 0#32, 0#32]
  failIf version "unsupported wasm version"
  .loop (sectionRound mem b) emptyModule

/-! ### Decoding -/

/-- What decoding returns, what the section loop did, and what the bodies' readers did. -/
structure Decoded where
  wasm : Wasm
  sections : List Event
  bodies : List Event
deriving DecidableEq

variable (room : Nat) (short : b.len.toNat < 2 ^ 31)

def input : Input := ⟨b.len, fun i => mem (b.addr + i), short⟩

/-- Each body from its own start, until one fails. -/
def readBodies (fuel : Nat) : List Bytes → Reader → Outcome (List Body × Reader × List Event)
  | [], r => done ([], r, [])
  | range :: rest, r =>
    if r.failed then done ([], r, [])
    else
      let start := range.addr - b.addr
      Reading.andThen ((readBody b start (start + range.len)).exec (input mem b short) room fuel { r with pos := start })
        fun body r =>
          if r.held < room then
            Reading.andThen (readBodies fuel rest { r with held := r.held + 1 })
              fun bodies r => done (body :: bodies, r, [])
          else stop

/-- Decodes the bytes.  `room` entries fit in memory. -/
def decode (fuel : Nat) : Outcome Decoded := do
  let (w, r, l) ← (sections mem b).exec (input mem b short) room fuel ⟨0#32, false, "", 0⟩
  let (code, r, l') ← readBodies mem b room short fuel w.bodies r
  pure ⟨{ w with code, ok := !r.failed, error := r.msg }, l, l'⟩

def readBodiesIdeal : List Bytes → Cursor → Outcome (List Body × Cursor)
  | [], c => done ([], c)
  | range :: rest, c =>
    if c.failed then done ([], c)
    else
      let start := range.addr - b.addr
      (readBody b start (start + range.len)).ideal (input mem b short) room { c with pos := start.toNat } >>= fun x =>
        if x.2.held < room then
          readBodiesIdeal rest { x.2 with held := x.2.held + 1 } >>= fun y => done (x.1 :: y.1, y.2)
        else stop

/-- The bytes decoded with natural numbers for the cursor and for lengths. -/
def decodeIdeal : Outcome (Wasm × Cursor) :=
  (sections mem b).ideal (input mem b short) room ⟨0, false, 0⟩ >>= fun x =>
    readBodiesIdeal mem b room short x.1.bodies x.2 >>= fun y => done ({ x.1 with code := y.1 }, y.2)

end Aipl.WasmReader
