import Aipl.Lib.Reading.Program

/-! # Decoding a wasm module, as the source of `native/wasm_reader` computes it

Every function that reads is a program of the library's cursor: `R` is the cursor, the failure and its
message.  The module's bytes are a span of the memory.  Vectors are lists; what a vector holds is counted
against the memory there is for entries, which a record allocated for an entry is counted with.
-/

namespace Aipl.WasmReader

open Aipl.Lib Aipl.Lib.Outcome

/-- A `str.Bytes`: an address and a length. -/
structure Bytes where
  addr : BitVec 32
  len : BitVec 32
deriving DecidableEq

/-! ### Records -/

structure FuncType where
  params : List (BitVec 32)
  results : List (BitVec 32)
deriving DecidableEq

structure Limits where
  min : BitVec 32
  max : BitVec 32
  hasMax : Bool
  shared : Bool
deriving DecidableEq

/-- Kind 0 is a function, kind 2 a memory. -/
structure Import where
  module : Bytes
  name : Bytes
  kind : BitVec 32
  typeIndex : BitVec 32
  limits : Option Limits
deriving DecidableEq

structure Table where
  elemType : BitVec 32
  limits : Limits
deriving DecidableEq

structure Global where
  valtype : BitVec 32
  mutable_ : Bool
  init : BitVec 64
deriving DecidableEq

structure Export where
  name : Bytes
  kind : BitVec 32
  index : BitVec 32
deriving DecidableEq

structure Elem where
  offset : BitVec 32
  funcs : List (BitVec 32)
deriving DecidableEq

structure Data where
  passive : Bool
  offset : BitVec 32
  bytes : Bytes
deriving DecidableEq

structure Locals where
  count : BitVec 32
  type : BitVec 32
deriving DecidableEq

structure Instr where
  op : BitVec 32
  a : BitVec 32
  b : BitVec 32
  c : BitVec 64
  offset : BitVec 32
deriving DecidableEq

structure Body where
  locals : List Locals
  code : List Instr
  head : BitVec 32
deriving DecidableEq

structure LinePos where
  at_ : BitVec 32
  file : BitVec 32
  line : BitVec 32
  col : BitVec 32
deriving DecidableEq

structure FnLines where
  index : BitVec 32
  entries : List LinePos
deriving DecidableEq

structure FnName where
  index : BitVec 32
  name : Bytes
deriving DecidableEq

structure Wasm where
  ok : Bool
  error : String
  types : List FuncType
  imports : List Import
  funcs : List (BitVec 32)
  tables : List Table
  memories : List Limits
  globals : List Global
  exports : List Export
  start : BitVec 32
  elems : List Elem
  dataCount : BitVec 32
  datas : List Data
  bodies : List Bytes
  code : List Body
  names : List FnName
  lineFiles : List Bytes
  lineFns : List FnLines
deriving DecidableEq

def emptyModule : Wasm where
  ok := false
  error := ""
  types := []
  imports := []
  funcs := []
  tables := []
  memories := []
  globals := []
  exports := []
  start := -1#32
  elems := []
  dataCount := -1#32
  datas := []
  bodies := []
  code := []
  names := []
  lineFiles := []
  lineFns := []

/-! ### Reading bytes -/

variable (mem : BitVec 32 → BitVec 8) (b : Bytes)

def fail (msg : String) : Reading Unit := .report msg none

/-- `(when c (call fail r msg))`. -/
def failIf (c : Prop) [Decidable c] (msg : String) : Reading Unit := if c then fail msg else pure ()

def failOp (op at_ : BitVec 32) : Reading Unit :=
  .report ("unsupported instruction " ++ toString op.toInt) (some at_)

def byte : Reading (BitVec 32) := do
  let failed ← .failed
  let pos ← .pos
  if failed || b.len.sle pos then do
    fail "unexpected end of module"
    pure 0#32
  else .read

/-- A round of `u32`: what is read so far, and the shift of the next seven bits. -/
def u32Round : BitVec 32 × BitVec 32 → Reading (BitVec 32 × BitVec 32 ⊕ BitVec 32)
  | (result, shift) => do
    let c ← byte b
    let result := result ||| ((c &&& 127#32) <<< shift)
    if c &&& 128#32 = 0#32 then pure (.inr result)
    else
      let shift := shift + 7#32
      if (28#32).slt shift then do
        fail "LEB128 u32 longer than 5 bytes"
        pure (.inr result)
      else pure (.inl (result, shift))

def u32 : Reading (BitVec 32) := .loop (u32Round b) (0#32, 0#32)

/-- A round of `s32`, which leaves with the last byte too. -/
def s32Round : BitVec 32 × BitVec 32 →
    Reading (BitVec 32 × BitVec 32 ⊕ BitVec 32 × BitVec 32 × BitVec 32)
  | (result, shift) => do
    let c ← byte b
    let result := result ||| ((c &&& 127#32) <<< shift)
    let shift := shift + 7#32
    if c &&& 128#32 = 0#32 then pure (.inr (result, shift, c))
    else if (28#32).slt shift then do
      fail "LEB128 s32 longer than 5 bytes"
      pure (.inr (result, shift, c))
    else pure (.inl (result, shift))

def s32 : Reading (BitVec 32) := do
  let (result, shift, c) ← .loop (s32Round b) (0#32, 0#32)
  pure (if shift.slt 32#32 && c &&& 64#32 ≠ 0#32 then result ||| (-1#32 <<< shift) else result)

def s64Round : BitVec 64 × BitVec 64 →
    Reading (BitVec 64 × BitVec 64 ⊕ BitVec 64 × BitVec 64 × BitVec 32)
  | (result, shift) => do
    let c ← byte b
    let result := result ||| ((c &&& 127#32).setWidth 64 <<< shift)
    let shift := shift + 7#64
    if c &&& 128#32 = 0#32 then pure (.inr (result, shift, c))
    else if (63#64).slt shift then do
      fail "LEB128 s64 longer than 10 bytes"
      pure (.inr (result, shift, c))
    else pure (.inl (result, shift))

def s64 : Reading (BitVec 64) := do
  let (result, shift, c) ← .loop (s64Round b) (0#64, 0#64)
  pure (if shift.slt 64#64 && c &&& 64#32 ≠ 0#32 then result ||| (-1#64 <<< shift) else result)

/-- A length-prefixed name, as a slice of the module. -/
def name : Reading Bytes := do
  let n ← u32 b
  let start ← .pos
  if b.len.slt (start + n) then do
    fail "name runs past the end of the module"
    pure ⟨0#32, 0#32⟩
  else do
    .skip n
    pure ⟨b.addr + start, n⟩

/-- Whether a slice of the memory spells a text. -/
def bytesEq (s : Bytes) (text : String) : Bool :=
  s.len.toNat = text.length &&
    text.toList.zipIdx.all fun x => (mem (s.addr + BitVec.ofNat 32 x.2)).toNat = x.1.toNat

/-! ### Custom sections -/

/-- `for k 1 (+ count 1)` with a push in each round. -/
def push {T : Type} (count : BitVec 32) (entry : Reading T) : Reading (List T) := do
  let (entries, _) ← .times count (fun () => do
    let x ← entry
    pure (some (x, ()))) ()
  pure entries

/-- The line and the offset are each told as the difference to the last ones. -/
def lineEntry (end_ : BitVec 32) : BitVec 32 × BitVec 32 →
    Reading (Option (LinePos × BitVec 32 × BitVec 32))
  | (at_, line) => do
    let failed ← .failed
    let pos ← .pos
    if failed || end_.slt pos then pure none
    else do
      let at_ := at_ + (← u32 b)
      let file ← u32 b
      let line := line + (← s32 b)
      let col ← u32 b
      pure (some (⟨at_, file, line, col⟩, at_, line))

def lineFile (end_ : BitVec 32) : Unit → Reading (Option (Bytes × Unit))
  | () => do
    let failed ← .failed
    let pos ← .pos
    if failed || end_.slt pos then pure none
    else do
      let file ← name b
      pure (some (file, ()))

def lineFn (end_ : BitVec 32) : Unit → Reading (Option (FnLines × Unit))
  | () => do
    let failed ← .failed
    let pos ← .pos
    if failed || end_.slt pos then pure none
    else do
      let index ← u32 b
      let n ← u32 b
      let (entries, _) ← .times n (lineEntry b end_) (0#32, 0#32)
      pure (some (⟨index, entries⟩, ()))

/-- The line table; a malformed one is left out (the module is still read). -/
def readLines (w : Wasm) (end_ : BitVec 32) : Reading Wasm := do
  let files ← u32 b
  let (lineFiles, _) ← .times files (lineFile b end_) ()
  let fns ← u32 b
  let (lineFns, _) ← .times fns (lineFn b end_) ()
  let failed ← .failed
  let pos ← .pos
  if failed || pos ≠ end_ then do
    .forget
    pure { w with lineFiles := [], lineFns := [] }
  else pure { w with lineFiles := w.lineFiles ++ lineFiles, lineFns := w.lineFns ++ lineFns }

def fnName (subEnd : BitVec 32) : Unit → Reading (Option (FnName × Unit))
  | () => do
    let index ← u32 b
    let name ← name b
    let failed ← .failed
    let pos ← .pos
    if failed || subEnd.slt pos then pure none else pure (some (⟨index, name⟩, ()))

/-- A subsection of a "name" section. -/
def subsection (end_ : BitVec 32) (w : Wasm) : Reading (Wasm ⊕ Wasm) := do
  let pos ← .pos
  if !pos.slt end_ then pure (.inr w)
  else do
    let sub ← byte b
    let size ← u32 b
    let pos ← .pos
    let subEnd := pos + size
    let failed ← .failed
    if failed || end_.slt subEnd then pure (.inr { w with names := [] })
    else if sub = 1#32 then do
      let count ← u32 b
      let (names, left) ← .times count (fnName b subEnd) ()
      if left then pure (.inr { w with names := [] })
      else do
        .seek subEnd
        pure (.inl { w with names := w.names ++ names })
    else do
      .seek subEnd
      pure (.inl w)

/-- A custom section that ends at `end_`: the function names of a "name" section, or the line table. -/
def readCustom (w : Wasm) (end_ : BitVec 32) : Reading Wasm := do
  let title ← name b
  let failed ← .failed
  if failed then pure w
  else if bytesEq mem title "aipl.lines" then readLines b w end_
  else if bytesEq mem title "name" then .loop (subsection b end_) w
  else pure w

/-! ### Sections -/

def valtype : Reading (BitVec 32) := do
  let t ← byte b
  if t = 127#32 ∨ t = 126#32 ∨ t = 125#32 ∨ t = 124#32 then pure t
  else do
    fail "unsupported value type"
    pure t

/-- Flags 0: min; 1: min max; 3: min max shared. -/
def limits : Reading Limits := do
  let flags ← byte b
  let min ← u32 b
  let hasMax : Bool := flags &&& 1#32 ≠ 0#32
  let max ← if hasMax then u32 b else pure 0#32
  failIf (flags = 2#32 ∨ (3#32).slt flags) "unsupported limits flags"
  pure ⟨min, max, hasMax, flags = 3#32⟩

/-- A constant expression: `i32.const` or `i64.const`, then `end`. -/
def constValue (op : BitVec 32) : Reading (BitVec 64) :=
  if op = 65#32 then do
    let v ← s32 b
    pure (v.signExtend 64)
  else if op = 66#32 then s64 b
  else do
    fail "unsupported constant expression"
    pure 0#64

def constExpr : Reading (BitVec 64) := do
  let op ← byte b
  let v ← constValue b op
  let last ← byte b
  failIf (last ≠ 11#32) "constant expression without end"
  pure v

def funcType : Unit → Reading (Option (FuncType × Unit))
  | () => do
    let form ← byte b
    if form ≠ 96#32 then do
      fail "type is not a function type"
      pure none
    else do
      let np ← u32 b
      let params ← push np (valtype b)
      let nr ← u32 b
      let results ← push nr (valtype b)
      pure (some (⟨params, results⟩, ()))

def readTypes (w : Wasm) : Reading Wasm := do
  let count ← u32 b
  let (types, _) ← .times count (funcType b) ()
  pure { w with types := w.types ++ types }

def import_ : Reading Import := do
  let module ← name b
  let name ← name b
  let kind ← byte b
  if kind = 0#32 then do
    let index ← u32 b
    pure ⟨module, name, kind, index, none⟩
  else if kind = 2#32 then do
    let limits ← limits b
    pure ⟨module, name, kind, -1#32, some limits⟩
  else do
    fail "unsupported import kind (only functions and memories)"
    pure ⟨module, name, kind, -1#32, none⟩

def readImports (w : Wasm) : Reading Wasm := do
  let count ← u32 b
  let imports ← push count (import_ b)
  pure { w with imports := w.imports ++ imports }

def readFunctions (w : Wasm) : Reading Wasm := do
  let count ← u32 b
  let funcs ← push count (u32 b)
  pure { w with funcs := w.funcs ++ funcs }

def table : Reading Table := do
  let elemType ← byte b
  failIf (elemType ≠ 112#32) "unsupported table element type (only funcref)"
  let limits ← limits b
  pure ⟨elemType, limits⟩

def readTables (w : Wasm) : Reading Wasm := do
  let count ← u32 b
  let tables ← push count (table b)
  pure { w with tables := w.tables ++ tables }

def readMemories (w : Wasm) : Reading Wasm := do
  let count ← u32 b
  let memories ← push count (limits b)
  pure { w with memories := w.memories ++ memories }

def global : Reading Global := do
  let valtype ← valtype b
  let m ← byte b
  failIf ((1#32).slt m) "unsupported global mutability"
  let init ← constExpr b
  pure ⟨valtype, m = 1#32, init⟩

def readGlobals (w : Wasm) : Reading Wasm := do
  let count ← u32 b
  let globals ← push count (global b)
  pure { w with globals := w.globals ++ globals }

def export_ : Reading Export := do
  let name ← name b
  let kind ← byte b
  failIf (kind ≠ 0#32 ∧ kind ≠ 2#32) "unsupported export kind (only functions and memories)"
  let index ← u32 b
  pure ⟨name, kind, index⟩

def readExports (w : Wasm) : Reading Wasm := do
  let count ← u32 b
  let exports ← push count (export_ b)
  pure { w with exports := w.exports ++ exports }

/-- Only flag 0: an active segment for table 0. -/
def elem : Unit → Reading (Option (Elem × Unit))
  | () => do
    let flag ← u32 b
    if flag ≠ 0#32 then do
      fail "unsupported element segment kind"
      pure none
    else do
      let offset ← constExpr b
      let nf ← u32 b
      let funcs ← push nf (u32 b)
      pure (some (⟨offset.setWidth 32, funcs⟩, ()))

def readElems (w : Wasm) : Reading Wasm := do
  let count ← u32 b
  let (elems, _) ← .times count (elem b) ()
  pure { w with elems := w.elems ++ elems }

/-- A function body stays a slice of the module. -/
def range : Unit → Reading (Option (Bytes × Unit))
  | () => do
    let size ← u32 b
    let pos ← .pos
    if b.len.slt (pos + size) then do
      fail "function body runs past the end of the module"
      pure none
    else do
      .skip size
      pure (some (⟨b.addr + pos, size⟩, ()))

def readCode (w : Wasm) : Reading Wasm := do
  let count ← u32 b
  let (bodies, _) ← .times count (range b) ()
  pure { w with bodies := w.bodies ++ bodies }

/-- Flag 0: active for memory 0; flag 1: passive. -/
def dataOffset (flag : BitVec 32) : Reading (BitVec 32) :=
  if flag = 0#32 then do
    let offset ← constExpr b
    pure (offset.setWidth 32)
  else if flag = 1#32 then pure 0#32
  else do
    fail "unsupported data segment kind"
    pure 0#32

def data : Unit → Reading (Option (Data × Unit))
  | () => do
    let flag ← u32 b
    let offset ← dataOffset b flag
    let n ← u32 b
    let pos ← .pos
    if b.len.slt (pos + n) then do
      fail "data segment runs past the end of the module"
      pure none
    else do
      .skip n
      pure (some (⟨flag = 1#32, offset, b.addr + pos, n⟩, ()))

def readDatas (w : Wasm) : Reading Wasm := do
  let count ← u32 b
  let (datas, _) ← .times count (data b) ()
  pure { w with datas := w.datas ++ datas }

end Aipl.WasmReader
