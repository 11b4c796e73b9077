import Aipl.Lib.Wasm.Ints

/-! # Library — reading x86-64 instructions

The encoding of a subset of the 64-bit instructions, read as the manual describes it: legacy prefixes, a REX prefix,
an opcode of one byte or two, ModRM, SIB, a displacement and an immediate.  Nothing here names a program.

* `Instr` — instructions with their operands; `decode` — the first of a list of bytes, and what follows it.
* `takeRm` — a ModRM byte with what belongs to it.
* `decode_one`, `decode_two` — behind a REX prefix or none.
* `takeRm_reg`, `takeRm_based` — operands, written and read back.
-/

namespace Aipl.Lib.X86

abbrev Byte := BitVec 8

abbrev Reg := BitVec 4

/-- A byte register: the low byte of a register, or the second byte of one of the first four. -/
inductive Reg8 where
  | low (r : Reg)
  | high (r : BitVec 2)
deriving DecidableEq

/-- An index register, with the shift of its scale. -/
structure Index where
  reg : Reg
  scale : BitVec 2
deriving DecidableEq

inductive Addr where
  | based (base : Reg) (index : Option Index) (disp : BitVec 32)
  | unbased (index : Option Index) (disp : BitVec 32)
  | ripRelative (disp : BitVec 32)
deriving DecidableEq

/-- A register or memory. -/
inductive Operand (ρ : Type) where
  | reg (r : ρ)
  | mem (a : Addr)
deriving DecidableEq

def Operand.map {ρ ρ' : Type} (f : ρ → ρ') : Operand ρ → Operand ρ'
  | .reg r => .reg (f r)
  | .mem a => .mem a

/-- Instructions; `wide` are those of 64 bits, the others are of 32. -/
inductive Instr where
  | alu (wide : Bool) (op : BitVec 3) (dst : Operand Reg) (src : Reg)
  | aluImm (wide : Bool) (op : BitVec 3) (dst : Operand Reg) (imm : BitVec 32)
  | test (wide : Bool) (a : Operand Reg) (b : Reg)
  | testImm (wide : Bool) (a : Operand Reg) (imm : BitVec 32)
  | mov (wide : Bool) (dst : Operand Reg) (src : Reg)
  | load (wide : Bool) (dst : Reg) (src : Operand Reg)
  | mov8 (dst : Operand Reg8) (src : Reg8)
  | movImm (wide : Bool) (dst : Operand Reg) (value : BitVec 64)
  | movzx8 (wide : Bool) (dst : Reg) (src : Operand Reg8)
  | movsxd (wide : Bool) (dst : Reg) (src : Operand Reg)
  | lea (wide : Bool) (dst : Reg) (src : Addr)
  | xchg (wide : Bool) (dst : Operand Reg) (src : Reg)
  | xadd (wide : Bool) (dst : Operand Reg) (src : Reg)
  | cmpxchg (wide : Bool) (dst : Operand Reg) (src : Reg)
  | shiftImm (wide : Bool) (kind : BitVec 3) (dst : Operand Reg) (count : Byte)
  | shiftCl (wide : Bool) (kind : BitVec 3) (dst : Operand Reg)
  | imul (wide : Bool) (dst : Reg) (src : Operand Reg)
  | div (wide : Bool) (src : Operand Reg)
  | idiv (wide : Bool) (src : Operand Reg)
  /-- `cdq` and `cqo`. -/
  | signs (wide : Bool)
  | setcc (cc : BitVec 4) (dst : Operand Reg8)
  | cmov (wide : Bool) (cc : BitVec 4) (dst : Reg) (src : Operand Reg)
  | bsf (wide : Bool) (dst : Reg) (src : Operand Reg)
  | bsr (wide : Bool) (dst : Reg) (src : Operand Reg)
  | popcnt (wide : Bool) (dst : Reg) (src : Operand Reg)
  | push (r : Reg)
  | pop (r : Reg)
  | call (target : Operand Reg)
deriving DecidableEq

/-- Whether a `lock` may stand before an instruction: those that write memory they have read. -/
def Instr.lockable : Instr → Bool
  | .alu _ op (.mem _) _ => op != 7
  | .aluImm _ op (.mem _) _ => op != 7
  | .xchg _ (.mem _) _ => true
  | .xadd _ (.mem _) _ => true
  | .cmpxchg _ (.mem _) _ => true
  | _ => false

/-! ### Prefixes -/

structure Prefixes where
  lock : Bool
  rep : Bool
deriving DecidableEq

structure Rex where
  w : Bool
  r : Bool
  x : Bool
  b : Bool
deriving DecidableEq

/-- The prefixes F0 and F3. -/
def takePrefixes : List Byte → Prefixes × List Byte
  | [] => (⟨false, false⟩, [])
  | b :: l =>
    if b = 0xf0#8 then ({ (takePrefixes l).1 with lock := true }, (takePrefixes l).2)
    else if b = 0xf3#8 then ({ (takePrefixes l).1 with rep := true }, (takePrefixes l).2)
    else (⟨false, false⟩, b :: l)

/-- A REX prefix, 40 to 4F. -/
def takeRex : List Byte → Option Rex × List Byte
  | [] => (none, [])
  | b :: l =>
    if b.extractLsb' 4 4 = 4#4 then (some ⟨b.getLsbD 3, b.getLsbD 2, b.getLsbD 1, b.getLsbD 0⟩, l) else (none, b :: l)

/-- The bits of a prefix, which are clear without one. -/
def bitsOf (rex : Option Rex) : Rex := rex.getD ⟨false, false, false, false⟩

/-- A register, from the bit of the prefix and the field. -/
def ext (high : Bool) (field : BitVec 3) : Reg := BitVec.ofBool high ++ field

/-- Without a REX prefix, the numbers 4 to 7 are the second bytes. -/
def byteReg (rex : Option Rex) (r : Reg) : Reg8 :=
  if rex = none ∧ r.extractLsb' 2 2 = 1#2 then .high (r.extractLsb' 0 2) else .low r

/-! ### Operands -/

def take32 : List Byte → Option (BitVec 32 × List Byte)
  | a :: b :: c :: d :: l => some (d ++ c ++ b ++ a, l)
  | _ => none

def take64 (l : List Byte) : Option (BitVec 64 × List Byte) := do
  let (lo, l) ← take32 l
  let (hi, l) ← take32 l
  some (hi ++ lo, l)

/-- The displacement of an addressing mode. -/
def takeDisp (mode : BitVec 2) (l : List Byte) : Option (BitVec 32 × List Byte) :=
  if mode = 0 then some (0, l)
  else if mode = 1 then
    match l with
    | [] => none
    | d :: l => some (d.signExtend 32, l)
  else take32 l

/-- The memory of a ModRM byte whose `rm` is `rm`. -/
def takeAddr (rex : Rex) (mode : BitVec 2) (rm : BitVec 3) (l : List Byte) : Option (Addr × List Byte) :=
  if rm = 4 then
    match l with
    | [] => none
    | sib :: l =>
      let x := ext rex.x (sib.extractLsb' 3 3)
      let index := if x = 4 then none else some ⟨x, sib.extractLsb' 6 2⟩
      let base := sib.extractLsb' 0 3
      if mode = 0 ∧ base = 5 then (take32 l).map fun (d, l) => (.unbased index d, l)
      else (takeDisp mode l).map fun (d, l) => (.based (ext rex.b base) index d, l)
  else if mode = 0 ∧ rm = 5 then (take32 l).map fun (d, l) => (.ripRelative d, l)
  else (takeDisp mode l).map fun (d, l) => (.based (ext rex.b rm) none d, l)

/-- A ModRM byte: its `reg` field, and the operand of the others. -/
def takeRm (rex : Rex) : List Byte → Option (BitVec 3 × Operand Reg × List Byte)
  | [] => none
  | m :: l =>
    let reg := m.extractLsb' 3 3
    let rm := m.extractLsb' 0 3
    if m.extractLsb' 6 2 = 3 then some (reg, .reg (ext rex.b rm), l)
    else (takeAddr rex (m.extractLsb' 6 2) rm l).map fun (a, l) => (reg, .mem a, l)

/-! ### Opcodes -/

/-- Opcodes of one byte. -/
inductive One where
  | alu (op : BitVec 3)
  | aluEax (op : BitVec 3)
  | push (field : BitVec 3)
  | pop (field : BitVec 3)
  | movsxd
  | aluImm32
  | aluImm8
  | test
  | xchg
  | mov8
  | mov
  | load
  | lea
  | signs
  | testEax
  | movReg (field : BitVec 3)
  | shiftImm
  | movImm
  | shiftOne
  | shiftCl
  | group3
  | group5
deriving DecidableEq

def one (o : Byte) : Option One :=
  if o.extractLsb' 6 2 = 0 ∧ o.extractLsb' 0 3 = 1 then some (.alu (o.extractLsb' 3 3))
  else if o.extractLsb' 6 2 = 0 ∧ o.extractLsb' 0 3 = 5 then some (.aluEax (o.extractLsb' 3 3))
  else if o.extractLsb' 3 5 = 0b01010 then some (.push (o.extractLsb' 0 3))
  else if o.extractLsb' 3 5 = 0b01011 then some (.pop (o.extractLsb' 0 3))
  else if o.extractLsb' 3 5 = 0b10111 then some (.movReg (o.extractLsb' 0 3))
  else match o.toNat with
    | 0x63 => some .movsxd
    | 0x81 => some .aluImm32
    | 0x83 => some .aluImm8
    | 0x85 => some .test
    | 0x87 => some .xchg
    | 0x88 => some .mov8
    | 0x89 => some .mov
    | 0x8b => some .load
    | 0x8d => some .lea
    | 0x99 => some .signs
    | 0xa9 => some .testEax
    | 0xc1 => some .shiftImm
    | 0xc7 => some .movImm
    | 0xd1 => some .shiftOne
    | 0xd3 => some .shiftCl
    | 0xf7 => some .group3
    | 0xff => some .group5
    | _ => none

/-- Opcodes behind 0F. -/
inductive Two where
  | cmov (cc : BitVec 4)
  | setcc (cc : BitVec 4)
  | imul
  | cmpxchg
  | movzx8
  | popcnt
  | bsf
  | bsr
  | xadd
deriving DecidableEq

/-- Before B8, an F3 is part of the opcode. -/
def two (rep : Bool) (o : Byte) : Option Two :=
  if rep then (if o = 0xb8#8 then some .popcnt else none)
  else if o.extractLsb' 4 4 = 4 then some (.cmov (o.extractLsb' 0 4))
  else if o.extractLsb' 4 4 = 9 then some (.setcc (o.extractLsb' 0 4))
  else match o.toNat with
    | 0xaf => some .imul
    | 0xb1 => some .cmpxchg
    | 0xb6 => some .movzx8
    | 0xbc => some .bsf
    | 0xbd => some .bsr
    | 0xc1 => some .xadd
    | _ => none

/-- What follows an opcode of one byte. -/
def One.read (rex : Option Rex) (l : List Byte) : One → Option (Instr × List Byte)
  | .alu op => do
    let (reg, rm, l) ← takeRm (bitsOf rex) l
    some (.alu (bitsOf rex).w op rm (ext (bitsOf rex).r reg), l)
  | .aluEax op => do
    let (imm, l) ← take32 l
    some (.aluImm (bitsOf rex).w op (.reg 0) imm, l)
  | .push field => some (.push (ext (bitsOf rex).b field), l)
  | .pop field => some (.pop (ext (bitsOf rex).b field), l)
  | .movsxd => do
    let (reg, rm, l) ← takeRm (bitsOf rex) l
    some (.movsxd (bitsOf rex).w (ext (bitsOf rex).r reg) rm, l)
  | .aluImm32 => do
    let (op, rm, l) ← takeRm (bitsOf rex) l
    let (imm, l) ← take32 l
    some (.aluImm (bitsOf rex).w op rm imm, l)
  | .aluImm8 => do
    let (op, rm, l) ← takeRm (bitsOf rex) l
    let (imm, l) ← takeDisp 1 l
    some (.aluImm (bitsOf rex).w op rm imm, l)
  | .test => do
    let (reg, rm, l) ← takeRm (bitsOf rex) l
    some (.test (bitsOf rex).w rm (ext (bitsOf rex).r reg), l)
  | .xchg => do
    let (reg, rm, l) ← takeRm (bitsOf rex) l
    some (.xchg (bitsOf rex).w rm (ext (bitsOf rex).r reg), l)
  | .mov8 => do
    let (reg, rm, l) ← takeRm (bitsOf rex) l
    some (.mov8 (rm.map (byteReg rex)) (byteReg rex (ext (bitsOf rex).r reg)), l)
  | .mov => do
    let (reg, rm, l) ← takeRm (bitsOf rex) l
    some (.mov (bitsOf rex).w rm (ext (bitsOf rex).r reg), l)
  | .load => do
    let (reg, rm, l) ← takeRm (bitsOf rex) l
    some (.load (bitsOf rex).w (ext (bitsOf rex).r reg) rm, l)
  | .lea => do
    let (reg, rm, l) ← takeRm (bitsOf rex) l
    match rm with
    | .mem a => some (.lea (bitsOf rex).w (ext (bitsOf rex).r reg) a, l)
    | .reg _ => none
  | .signs => some (.signs (bitsOf rex).w, l)
  | .testEax => do
    let (imm, l) ← take32 l
    some (.testImm (bitsOf rex).w (.reg 0) imm, l)
  | .movReg field => do
    if (bitsOf rex).w then
      let (imm, l) ← take64 l
      some (.movImm true (.reg (ext (bitsOf rex).b field)) imm, l)
    else
      let (imm, l) ← take32 l
      some (.movImm false (.reg (ext (bitsOf rex).b field)) (imm.setWidth 64), l)
  | .shiftImm => do
    let (kind, rm, l) ← takeRm (bitsOf rex) l
    match l with
    | [] => none
    | count :: l => some (.shiftImm (bitsOf rex).w kind rm count, l)
  | .movImm => do
    let (digit, rm, l) ← takeRm (bitsOf rex) l
    let (imm, l) ← take32 l
    if digit = 0 then
      some (.movImm (bitsOf rex).w rm (if (bitsOf rex).w then imm.signExtend 64 else imm.setWidth 64), l)
    else none
  | .shiftOne => do
    let (kind, rm, l) ← takeRm (bitsOf rex) l
    some (.shiftImm (bitsOf rex).w kind rm 1, l)
  | .shiftCl => do
    let (kind, rm, l) ← takeRm (bitsOf rex) l
    some (.shiftCl (bitsOf rex).w kind rm, l)
  | .group3 => do
    let (digit, rm, l) ← takeRm (bitsOf rex) l
    if digit = 0 then
      let (imm, l) ← take32 l
      some (.testImm (bitsOf rex).w rm imm, l)
    else if digit = 6 then some (.div (bitsOf rex).w rm, l)
    else if digit = 7 then some (.idiv (bitsOf rex).w rm, l)
    else none
  | .group5 => do
    let (digit, rm, l) ← takeRm (bitsOf rex) l
    if digit = 2 then some (.call rm, l) else none

/-- What follows an opcode of two bytes. -/
def Two.read (rex : Option Rex) (l : List Byte) (o : Two) : Option (Instr × List Byte) := do
  let (reg, rm, l) ← takeRm (bitsOf rex) l
  let wide := (bitsOf rex).w
  let r := ext (bitsOf rex).r reg
  match o with
  | .cmov cc => some (.cmov wide cc r rm, l)
  | .setcc cc => some (.setcc cc (rm.map (byteReg rex)), l)
  | .imul => some (.imul wide r rm, l)
  | .cmpxchg => some (.cmpxchg wide rm r, l)
  | .movzx8 => some (.movzx8 wide r (rm.map (byteReg rex)), l)
  | .popcnt => some (.popcnt wide r rm, l)
  | .bsf => some (.bsf wide r rm, l)
  | .bsr => some (.bsr wide r rm, l)
  | .xadd => some (.xadd wide rm r, l)

/-- An opcode and what follows it; behind an F3 only opcodes of which it is a part. -/
def readOpcode (rep : Bool) (rex : Option Rex) : List Byte → Option (Instr × List Byte)
  | [] => none
  | o :: l =>
    if o = 0x0f#8 then
      match l with
      | [] => none
      | o :: l => (two rep o).bind fun k => k.read rex l
    else if rep then none
    else (one o).bind fun k => k.read rex l

/-- The first instruction, whether it is locked, and the bytes behind it. -/
def decode (l : List Byte) : Option (Bool × Instr × List Byte) := do
  let (p, l) := takePrefixes l
  let (rex, l) := takeRex l
  let (i, l) ← readOpcode p.rep rex l
  if p.lock ∧ i.lockable = false then none else some (p.lock, i, l)

/-! ### What is read back: prefixes -/

def rexByte (w r x b : Bool) : Byte :=
  4#4 ++ BitVec.ofBool w ++ BitVec.ofBool r ++ BitVec.ofBool x ++ BitVec.ofBool b

/-- A REX prefix where one is needed or asked for. -/
def rexBytes (w r x b force : Bool) : List Byte := if w || r || x || b || force then [rexByte w r x b] else []

def rexOf (w r x b force : Bool) : Option Rex := if w || r || x || b || force then some ⟨w, r, x, b⟩ else none

section Prefixes

variable {w r x b f : Bool} {o : Byte} {l : List Byte}

@[simp] theorem bitsOf_rexOf : bitsOf (rexOf w r x b f) = ⟨w, r, x, b⟩ := by
  cases w <;> cases r <;> cases x <;> cases b <;> cases f <;> rfl

/-- A byte that starts an opcode. -/
def Opening (o : Byte) : Prop := o ≠ 0xf0#8 ∧ o ≠ 0xf3#8 ∧ o.extractLsb' 4 4 ≠ 4#4

instance : Decidable (Opening o) := inferInstanceAs (Decidable (_ ∧ _))

theorem takeRex_rexBytes (ho : Opening o) : takeRex (rexBytes w r x b f ++ o :: l) = (rexOf w r x b f, o :: l) := by
  have hnone : takeRex (o :: l) = (none, o :: l) := by simp [takeRex, ho.2.2]
  have hbyte : ∀ w r x b, takeRex (rexByte w r x b :: o :: l) = (some ⟨w, r, x, b⟩, o :: l) := by
    intro w r x b
    cases w <;> cases r <;> cases x <;> cases b <;> rfl
  rw [rexBytes, rexOf]
  split
  · exact hbyte w r x b
  · exact hnone

theorem takePrefixes_rexBytes (ho : Opening o) :
    takePrefixes (rexBytes w r x b f ++ o :: l) = (⟨false, false⟩, rexBytes w r x b f ++ o :: l) := by
  have hbyte : ∀ w r x b, rexByte w r x b ≠ 0xf0#8 ∧ rexByte w r x b ≠ 0xf3#8 := by decide
  rw [rexBytes]
  split
  · simp [takePrefixes, hbyte]
  · simp [takePrefixes, ho.1, ho.2.1]

/-- An instruction with no legacy prefix. -/
theorem decode_plain (ho : Opening o) : decode (rexBytes w r x b f ++ o :: l) =
    (readOpcode false (rexOf w r x b f) (o :: l)).map fun (i, l) => (false, i, l) := by
  rw [decode, takePrefixes_rexBytes ho]
  simp only [Option.bind_eq_bind, takeRex_rexBytes ho]
  cases readOpcode false (rexOf w r x b f) (o :: l) <;> rfl

variable {l' : List Byte} {i : Instr}

theorem readOpcode_one {k : One} {rex : Option Rex} (h0 : o ≠ 0x0f#8) (hk : one o = some k)
    (hread : k.read rex l = some (i, l')) : readOpcode false rex (o :: l) = some (i, l') := by
  simp [readOpcode, h0, hk, hread]

theorem readOpcode_two {k : Two} {rep : Bool} {rex : Option Rex} (hk : two rep o = some k)
    (hread : k.read rex l = some (i, l')) : readOpcode rep rex (0x0f#8 :: o :: l) = some (i, l') := by
  simp [readOpcode, hk, hread]

/-- An instruction behind F0. -/
theorem decode_lock (hl : takePrefixes l = (⟨false, false⟩, l)) (h : decode l = some (false, i, l'))
    (hi : i.lockable = true) : decode (0xf0#8 :: l) = some (true, i, l') := by
  rw [decode, hl] at h
  rw [decode, takePrefixes, if_pos rfl, hl]
  simp only [Option.bind_eq_bind] at h ⊢
  cases hread : readOpcode false (takeRex l).1 (takeRex l).2 with
  | none => simp [hread] at h
  | some out =>
    simp only [hread, Option.bind_some, Bool.false_eq_true, false_and, if_false] at h ⊢
    cases h
    simp [hi]

/-- An opcode of one byte. -/
theorem decode_one {k : One} (ho : Opening o) (h0 : o ≠ 0x0f#8) (hk : one o = some k)
    (hread : k.read (rexOf w r x b f) l = some (i, l')) :
    decode (rexBytes w r x b f ++ o :: l) = some (false, i, l') := by
  rw [decode_plain ho, readOpcode_one h0 hk hread]
  rfl

/-- An opcode of two bytes. -/
theorem decode_two {k : Two} (hk : two false o = some k) (hread : k.read (rexOf w r x b f) l = some (i, l')) :
    decode (rexBytes w r x b f ++ 0x0f#8 :: o :: l) = some (false, i, l') := by
  rw [decode_plain (by decide), readOpcode_two hk hread]
  rfl

/-- An opcode of which F3 is a part. -/
theorem decode_rep {k : Two} (hk : two true o = some k) (hread : k.read (rexOf w r x b f) l = some (i, l')) :
    decode (0xf3#8 :: (rexBytes w r x b f ++ 0x0f#8 :: o :: l)) = some (false, i, l') := by
  have ho : Opening 0x0f#8 := by decide
  rw [decode, takePrefixes, if_neg (by decide), if_pos rfl, takePrefixes_rexBytes ho]
  simp only [Option.bind_eq_bind, takeRex_rexBytes ho, readOpcode_two hk hread, Option.bind_some, Bool.false_eq_true,
    false_and, if_false]

end Prefixes

/-! ### What is read back: operands -/

/-- The field of a register. -/
def low (r : Reg) : BitVec 3 := r.extractLsb' 0 3

@[simp] theorem ext_low : ∀ r : Reg, ext r.msb (low r) = r := by decide

def modrm (mode : BitVec 2) (reg rm : BitVec 3) : Byte := mode ++ reg ++ rm

theorem modrm_mode : ∀ mode reg rm, (modrm mode reg rm).extractLsb' 6 2 = mode := by decide

theorem modrm_reg : ∀ mode reg rm, (modrm mode reg rm).extractLsb' 3 3 = reg := by decide

theorem modrm_rm : ∀ mode reg rm, (modrm mode reg rm).extractLsb' 0 3 = rm := by decide

@[simp] theorem takeRm_reg (w a x : Bool) (reg : BitVec 3) (rm : Reg) (l : List Byte) :
    takeRm ⟨w, a, x, rm.msb⟩ (modrm 3#2 reg (low rm) :: l) = some (reg, .reg rm, l) := by
  simp [takeRm, modrm_mode, modrm_reg, modrm_rm]

/-- The bytes of a number, the lowest first. -/
def bytes32 (d : BitVec 32) : List Byte := [d.extractLsb' 0 8, d.extractLsb' 8 8, d.extractLsb' 16 8, d.extractLsb' 24 8]

def bytes64 (d : BitVec 64) : List Byte := bytes32 (d.extractLsb' 0 32) ++ bytes32 (d.extractLsb' 32 32)

@[simp] theorem take32_bytes32 (d : BitVec 32) (l : List Byte) : take32 (bytes32 d ++ l) = some (d, l) := by
  have h : d.extractLsb' 24 8 ++ d.extractLsb' 16 8 ++ d.extractLsb' 8 8 ++ d.extractLsb' 0 8 = d := by
    apply BitVec.eq_of_getLsbD_eq
    intro i hi
    simp only [BitVec.getLsbD_append, BitVec.getLsbD_extractLsb']
    split
    · simp [*]
    · split
      · rw [decide_eq_true (by omega), Bool.true_and, Nat.add_sub_cancel' (by omega)]
      · split
        · rw [decide_eq_true (by omega), Bool.true_and]
          congr 1
          omega
        · rw [decide_eq_true (by omega), Bool.true_and]
          congr 1
          omega
  show some (_, l) = _
  rw [h]

@[simp] theorem take64_bytes64 (d : BitVec 64) (l : List Byte) : take64 (bytes64 d ++ l) = some (d, l) := by
  have h : d.extractLsb' 32 32 ++ d.extractLsb' 0 32 = d := by
    apply BitVec.eq_of_getLsbD_eq
    intro i hi
    simp only [BitVec.getLsbD_append, BitVec.getLsbD_extractLsb']
    split
    · simp [*]
    · rw [decide_eq_true (by omega), Bool.true_and, Nat.add_sub_cancel' (by omega)]
  simp [take64, bytes64, h]

/-- A number of eight bits, with its sign. -/
def fits8 (d : BitVec 32) : Bool := (-128#32).sle d && d.sle 127

theorem signExtend_setWidth {w l : Nat} {x : BitVec w} (hl : 0 < l) (hle : l ≤ w) (h : Wasm.InRange l x.toInt) :
    (x.setWidth l).signExtend w = x := by
  apply BitVec.eq_of_toInt_eq
  rw [BitVec.toInt_signExtend_of_le hle, Wasm.toInt_setWidth_of_inRange hl hle h]

theorem signExtend_low {d : BitVec 32} (h : fits8 d = true) : (d.setWidth 8).signExtend 32 = d := by
  rw [fits8, Bool.and_eq_true, BitVec.sle_iff_toInt_le, BitVec.sle_iff_toInt_le] at h
  have hlo : (-128#32).toInt = -128 := by decide
  have hhi : (127 : BitVec 32).toInt = 127 := by decide
  exact signExtend_setWidth (by decide) (by decide) ⟨by omega, by omega⟩

/-- The addressing mode of a base and a displacement. -/
def modeOf (base : Reg) (disp : BitVec 32) : BitVec 2 :=
  if disp = 0 ∧ low base ≠ 5 then 0 else if fits8 disp then 1 else 2

def dispBytes (base : Reg) (disp : BitVec 32) : List Byte :=
  if disp = 0 ∧ low base ≠ 5 then [] else if fits8 disp then [disp.setWidth 8] else bytes32 disp

theorem takeDisp_dispBytes (base : Reg) (disp : BitVec 32) (l : List Byte) :
    takeDisp (modeOf base disp) (dispBytes base disp ++ l) = some (disp, l) := by
  rw [modeOf, dispBytes]
  split
  · next h => simp [takeDisp, h.1]
  · split
    · next h => simp [takeDisp, signExtend_low h]
    · simp [takeDisp]

theorem modeOf_ne (base : Reg) (disp : BitVec 32) : modeOf base disp ≠ 3#2 ∧ (low base = 5#3 → modeOf base disp ≠ 0#2) := by
  rw [modeOf]
  split
  · next h => exact ⟨by decide, fun h5 => absurd h5 h.2⟩
  · split
    · exact ⟨by decide, fun _ => by decide⟩
    · exact ⟨by decide, fun _ => by decide⟩

/-- ModRM, SIB and displacement of a base, an index and a displacement. -/
def addrBytes (reg : BitVec 3) (base : Reg) (index : Option Index) (disp : BitVec 32) : List Byte :=
  match index with
  | some i => modrm (modeOf base disp) reg 4 :: modrm i.scale (low i.reg) (low base) :: dispBytes base disp
  | none =>
    if low base = 4 then modrm (modeOf base disp) reg 4 :: modrm 0 4 4 :: dispBytes base disp
    else modrm (modeOf base disp) reg (low base) :: dispBytes base disp

/-- The bit of an index. -/
def indexBit (index : Option Index) : Bool := match index with
  | some i => i.reg.msb
  | none => false

/-- **Memory operands are read back**: bases that need a displacement or a SIB byte have one, and register 4 is no
index. -/
theorem takeRm_based (w a : Bool) (reg : BitVec 3) (base : Reg) {index : Option Index} (disp : BitVec 32) (l : List Byte)
    (hindex : ∀ i, index = some i → i.reg ≠ 4#4) :
    takeRm ⟨w, a, indexBit index, base.msb⟩ (addrBytes reg base index disp ++ l) =
      some (reg, .mem (.based base index disp), l) := by
  obtain ⟨hne3, hne0⟩ := modeOf_ne base disp
  have hbase : ¬ (modeOf base disp = 0#2 ∧ low base = 5#3) := fun h => hne0 h.2 h.1
  cases index with
  | some i =>
    have hi := hindex i rfl
    simp [addrBytes, takeRm, takeAddr, indexBit, modrm_mode, modrm_reg, modrm_rm, hne3, hbase, hi, takeDisp_dispBytes]
  | none =>
    rw [addrBytes]
    split
    · next h4 =>
      have hb : ext base.msb 4#3 = base := by rw [show 4#3 = low base from h4.symm, ext_low]
      have hext : ext false 4#3 = 4#4 := by decide
      simp [takeRm, takeAddr, indexBit, modrm_mode, modrm_reg, modrm_rm, hne3, hext, hb, takeDisp_dispBytes]
    · next h4 =>
      have h4' : ¬ low base = 4#3 := h4
      simp [takeRm, takeAddr, modrm_mode, modrm_reg, modrm_rm, hne3, h4', hbase, takeDisp_dispBytes]

end Aipl.Lib.X86
