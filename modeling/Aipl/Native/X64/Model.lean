import Aipl.Std.Buf.Pushes

/-! # `x64`: instruction forms, as the encoder's source computes them

The code buffer is its content.  Registers, sizes, opcodes and immediates are words, as the source has them; a memory
operand is its record.
-/

namespace Aipl.X64Code

open Lib Lib.Outcome Aipl.Std StdBuf

/-- `[base + index * scale + disp]`; an index below 0 is none. -/
structure Mem where
  base : BitVec 32
  index : BitVec 32
  scale : BitVec 32
  disp : BitVec 32
deriving DecidableEq

def mem (base disp : BitVec 32) : Outcome Mem := do
  require ((0#32).sle base && base.sle 15)
  pure { base, index := -1, scale := 1, disp }

def memIndex (base index scale disp : BitVec 32) : Outcome Mem := do
  require ((0#32).sle base && base.sle 15)
  require (((0#32).sle index && index.sle 15) && index != 4)
  require (scale == 1 || (scale == 2 || (scale == 4 || scale == 8)))
  pure { base, index, scale, disp }

/-! ### Operation numbers -/

def opAdd : BitVec 32 := 0
def opOr : BitVec 32 := 1
def opAnd : BitVec 32 := 4
def opSub : BitVec 32 := 5
def opXor : BitVec 32 := 6
def opCmp : BitVec 32 := 7

def shRol : BitVec 32 := 0
def shRor : BitVec 32 := 1
def shShl : BitVec 32 := 4
def shShr : BitVec 32 := 5
def shSar : BitVec 32 := 7

/-! ### Operands that are accepted -/

def fits8 (v : BitVec 32) : Bool := (-128#32).sle v && v.sle 127

def regOk (r : BitVec 32) : Bool := (0#32).sle r && r.sle 15

def sizeOk (sz : BitVec 32) : Bool := sz == 32 || sz == 64

def aluOk (op : BitVec 32) : Bool := op.sle 1 || ((4#32).sle op && op.sle 7)

def ccOk (cc : BitVec 32) : Bool := (0#32).sle cc && cc.sle 15

def kindOk (kind : BitVec 32) : Bool := kind == 0 || (kind == 1 || (kind == 4 || (kind == 5 || kind == 7)))

section Emit

variable {σ : Type} (A : Allocator σ) (fuel : Nat)

def byte (c : Content σ) (v : BitVec 32) : Outcome (Content σ) := c.pushByte A fuel (v &&& 255)

def u32 (c : Content σ) (v : BitVec 32) : Outcome (Content σ) := do
  let c ← byte A fuel c v
  let c ← byte A fuel c (v >>> 8)
  let c ← byte A fuel c (v >>> 16)
  byte A fuel c (v >>> 24)

def u64 (c : Content σ) (v : BitVec 64) : Outcome (Content σ) := do
  let c ← u32 A fuel c (v.setWidth 32)
  u32 A fuel c ((v >>> 32).setWidth 32)

/-- The bits of a REX prefix: `w`, and the high bits of three registers. -/
def rexBits (w : Bool) (r x b : BitVec 32) : BitVec 32 :=
  (if w then 8#32 else 0#32) ||| ((r.sshiftRight 3 &&& 1#32) <<< 2 |||
    ((x.sshiftRight 3 &&& 1#32) <<< 1 ||| (b.sshiftRight 3 &&& 1#32)))

def rex (c : Content σ) (w : Bool) (r x b : BitVec 32) (force : Bool) : Outcome (Content σ) :=
  if rexBits w r x b ≠ 0 ∨ force then byte A fuel c (64#32 ||| rexBits w r x b) else pure c

def opcode (c : Content σ) (op : BitVec 32) : Outcome (Content σ) := do
  let c ← (if (255#32).slt op then byte A fuel c 15 else pure c)
  byte A fuel c op

def between47 (r : BitVec 32) : Bool := (4#32).sle r && r.sle 7

/-- An operation with a register in ModRM. -/
def rr (c : Content σ) (sz op reg rm : BitVec 32) (byteRegs : Bool) : Outcome (Content σ) := do
  let force := byteRegs && (between47 reg || between47 rm)
  let c ← rex A fuel c (sz == 64) reg 0 rm force
  let c ← opcode A fuel c op
  byte A fuel c (192#32 ||| ((reg &&& 7#32) <<< 3 ||| (rm &&& 7#32)))

def scaleBits (scale : BitVec 32) : BitVec 32 :=
  if scale = 1 then 0 else if scale = 2 then 1 else if scale = 4 then 2 else 3

/-- An operation with a memory operand. -/
def rm (c : Content σ) (sz op reg : BitVec 32) (m : Mem) (byteRegs : Bool) : Outcome (Content σ) := do
  let force := byteRegs && between47 reg
  let c ← rex A fuel c (sz == 64) reg (if m.index.slt 0 then 0 else m.index) m.base force
  let c ← opcode A fuel c op
  let md : BitVec 32 := if m.disp = 0 ∧ m.base &&& 7#32 ≠ 5 then 0 else if fits8 m.disp then 1 else 2
  let r3 := (reg &&& 7#32) <<< 3
  let c ← (if (0#32).sle m.index then do
      let c ← byte A fuel c (md <<< 6 ||| (r3 ||| 4#32))
      byte A fuel c (scaleBits m.scale <<< 6 ||| ((m.index &&& 7#32) <<< 3 ||| (m.base &&& 7#32)))
    else if m.base &&& 7#32 = 4 then do
      let c ← byte A fuel c (md <<< 6 ||| (r3 ||| 4#32))
      -- SIB: no index, base rsp or r12
      byte A fuel c 36
    else byte A fuel c (md <<< 6 ||| (r3 ||| (m.base &&& 7#32))))
  if md = 1 then byte A fuel c m.disp else if md = 2 then u32 A fuel c m.disp else pure c

/-! ### Forms of a size -/

/-- An opcode with two registers, `reg` and `rm`. -/
def regForm (op : BitVec 32) (c : Content σ) (sz reg rm : BitVec 32) : Outcome (Content σ) := do
  require (sizeOk sz && (regOk reg && regOk rm))
  rr A fuel c sz op reg rm false

/-- An opcode with a register and memory. -/
def memForm (op : BitVec 32) (c : Content σ) (sz reg : BitVec 32) (m : Mem) : Outcome (Content σ) := do
  require (sizeOk sz && regOk reg)
  rm A fuel c sz op reg m false

/-- A form of one register, with a digit. -/
def groupForm (digit : BitVec 32) (c : Content σ) (sz src : BitVec 32) : Outcome (Content σ) := do
  require (sizeOk sz && regOk src)
  rr A fuel c sz 247 digit src false

/-! ### Moves -/

def movRr (c : Content σ) (sz dst src : BitVec 32) : Outcome (Content σ) := regForm A fuel 137 c sz src dst

def movRi32 (c : Content σ) (dst imm : BitVec 32) : Outcome (Content σ) := do
  require (regOk dst)
  let c ← rex A fuel c false 0 0 dst false
  let c ← byte A fuel c (184#32 + (dst &&& 7#32))
  u32 A fuel c imm

def movRi64 (c : Content σ) (dst : BitVec 32) (imm : BitVec 64) : Outcome (Content σ) := do
  require (regOk dst)
  if ((-2147483648#64).sle imm && imm.sle 2147483647) = true then do
    let c ← rr A fuel c 64 199 0 dst false
    u32 A fuel c (imm.setWidth 32)
  else do
    let c ← rex A fuel c true 0 0 dst false
    let c ← byte A fuel c (184#32 + (dst &&& 7#32))
    u64 A fuel c imm

def load (c : Content σ) (sz dst : BitVec 32) (m : Mem) : Outcome (Content σ) := memForm A fuel 139 c sz dst m

def store (c : Content σ) (sz : BitVec 32) (m : Mem) (src : BitVec 32) : Outcome (Content σ) :=
  memForm A fuel 137 c sz src m

def store8 (c : Content σ) (m : Mem) (src : BitVec 32) : Outcome (Content σ) := do
  require (regOk src)
  rm A fuel c 32 136 src m true

def load8u (c : Content σ) (dst : BitVec 32) (m : Mem) : Outcome (Content σ) := do
  require (regOk dst)
  rm A fuel c 32 4022 dst m false

def movzx8 (c : Content σ) (dst src : BitVec 32) : Outcome (Content σ) := do
  require (regOk dst && regOk src)
  rr A fuel c 32 4022 dst src true

def bsr (c : Content σ) (sz dst src : BitVec 32) : Outcome (Content σ) := regForm A fuel 4029 c sz dst src

def bsf (c : Content σ) (sz dst src : BitVec 32) : Outcome (Content σ) := regForm A fuel 4028 c sz dst src

def popcnt (c : Content σ) (sz dst src : BitVec 32) : Outcome (Content σ) := do
  require (sizeOk sz && (regOk dst && regOk src))
  let c ← byte A fuel c 243
  rr A fuel c sz 4024 dst src false

def cmov (c : Content σ) (sz cc dst src : BitVec 32) : Outcome (Content σ) := do
  require (sizeOk sz && (ccOk cc && (regOk dst && regOk src)))
  rr A fuel c sz (3904#32 + cc) dst src false

def movsxd (c : Content σ) (dst src : BitVec 32) : Outcome (Content σ) := do
  require (regOk dst && regOk src)
  rr A fuel c 64 99 dst src false

def lea (c : Content σ) (sz dst : BitVec 32) (m : Mem) : Outcome (Content σ) := memForm A fuel 141 c sz dst m

def push (c : Content σ) (r : BitVec 32) : Outcome (Content σ) := do
  require (regOk r)
  let c ← rex A fuel c false 0 0 r false
  byte A fuel c (80#32 + (r &&& 7#32))

def pop (c : Content σ) (r : BitVec 32) : Outcome (Content σ) := do
  require (regOk r)
  let c ← rex A fuel c false 0 0 r false
  byte A fuel c (88#32 + (r &&& 7#32))

/-! ### Arithmetic -/

def aluRr (c : Content σ) (sz op dst src : BitVec 32) : Outcome (Content σ) := do
  require (sizeOk sz && (aluOk op && (regOk dst && regOk src)))
  rr A fuel c sz (op * 8#32 + 1#32) src dst false

def aluRi (c : Content σ) (sz op dst imm : BitVec 32) : Outcome (Content σ) := do
  require (sizeOk sz && (aluOk op && regOk dst))
  if fits8 imm then do
    let c ← rr A fuel c sz 131 op dst false
    byte A fuel c imm
  else if dst = 0 then do
    let c ← rex A fuel c (sz == 64) 0 0 0 false
    let c ← byte A fuel c (op * 8#32 + 5#32)
    u32 A fuel c imm
  else do
    let c ← rr A fuel c sz 129 op dst false
    u32 A fuel c imm

def testRr (c : Content σ) (sz a b : BitVec 32) : Outcome (Content σ) := regForm A fuel 133 c sz b a

def testRi (c : Content σ) (sz r imm : BitVec 32) : Outcome (Content σ) := do
  require (sizeOk sz && regOk r)
  let c ← (if r = 0 then do
      let c ← rex A fuel c (sz == 64) 0 0 0 false
      byte A fuel c 169
    else rr A fuel c sz 247 0 r false)
  u32 A fuel c imm

def shiftRi (c : Content σ) (sz kind r count : BitVec 32) : Outcome (Content σ) := do
  require (sizeOk sz && regOk r)
  require (kindOk kind)
  require ((0#32).sle count && count.slt sz)
  if count = 1 then rr A fuel c sz 209 kind r false
  else do
    let c ← rr A fuel c sz 193 kind r false
    byte A fuel c count

def shiftCl (c : Content σ) (sz kind r : BitVec 32) : Outcome (Content σ) := do
  require (sizeOk sz && regOk r)
  require (kindOk kind)
  rr A fuel c sz 211 kind r false

def imulRr (c : Content σ) (sz dst src : BitVec 32) : Outcome (Content σ) := regForm A fuel 4015 c sz dst src

def divR (c : Content σ) (sz src : BitVec 32) : Outcome (Content σ) := groupForm A fuel 6 c sz src

def idivR (c : Content σ) (sz src : BitVec 32) : Outcome (Content σ) := groupForm A fuel 7 c sz src

def cdq (c : Content σ) : Outcome (Content σ) := byte A fuel c 153

def cqo (c : Content σ) : Outcome (Content σ) := do
  let c ← byte A fuel c 72
  byte A fuel c 153

def setcc (c : Content σ) (cc dst : BitVec 32) : Outcome (Content σ) := do
  require (ccOk cc && regOk dst)
  rr A fuel c 32 (3984#32 + cc) 0 dst true

/-! ### Atomics and calls -/

def lock (c : Content σ) : Outcome (Content σ) := byte A fuel c 240

def xadd (c : Content σ) (sz : BitVec 32) (m : Mem) (src : BitVec 32) : Outcome (Content σ) :=
  memForm A fuel 4033 c sz src m

def xchg (c : Content σ) (sz : BitVec 32) (m : Mem) (src : BitVec 32) : Outcome (Content σ) :=
  memForm A fuel 135 c sz src m

def cmpxchg (c : Content σ) (sz : BitVec 32) (m : Mem) (src : BitVec 32) : Outcome (Content σ) :=
  memForm A fuel 4017 c sz src m

def callR (c : Content σ) (r : BitVec 32) : Outcome (Content σ) := do
  require (regOk r)
  rr A fuel c 32 255 2 r false

end Emit

end Aipl.X64Code
