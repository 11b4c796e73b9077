import Aipl.Native.X64.Forms

/-! # x86-64 operands decode to themselves

* `Call` — the forms with their arguments; `Call.run_eq` — the bytes of each.
* `Call.decode_bytes` — read by the rules of the manual, the bytes are that instruction and no more.
* `operands_decode` — for all that the encoder takes.
-/

namespace Aipl.X64Code

open Lib Lib.Outcome Aipl.Std StdBuf Lib.X86

/-! ### The forms -/

inductive AluOp where
  | add
  | or_
  | and_
  | sub
  | xor_
  | cmp
deriving DecidableEq

def AluOp.word : AluOp → BitVec 32
  | .add => opAdd
  | .or_ => opOr
  | .and_ => opAnd
  | .sub => opSub
  | .xor_ => opXor
  | .cmp => opCmp

/-- The digit of an operation. -/
def AluOp.digit (op : AluOp) : BitVec 3 := op.word.setWidth 3

inductive ShiftKind where
  | rol
  | ror
  | shl
  | shr
  | sar
deriving DecidableEq

def ShiftKind.word : ShiftKind → BitVec 32
  | .rol => shRol
  | .ror => shRor
  | .shl => shShl
  | .shr => shShr
  | .sar => shSar

def ShiftKind.digit (kind : ShiftKind) : BitVec 3 := kind.word.setWidth 3

/-- A size, as the source numbers it. -/
def sizeWord (wide : Bool) : BitVec 32 := if wide then 64 else 32

/-- A call of a form; the atomics are behind `lock` or not. -/
inductive Call where
  | movRr (wide : Bool) (dst src : Reg)
  | movRi32 (dst : Reg) (imm : BitVec 32)
  | movRi64 (dst : Reg) (imm : BitVec 64)
  | load (wide : Bool) (dst : Reg) (m : Place)
  | store (wide : Bool) (m : Place) (src : Reg)
  | store8 (m : Place) (src : Reg)
  | load8u (dst : Reg) (m : Place)
  | movzx8 (dst src : Reg)
  | bsr (wide : Bool) (dst src : Reg)
  | bsf (wide : Bool) (dst src : Reg)
  | popcnt (wide : Bool) (dst src : Reg)
  | cmov (wide : Bool) (cc : BitVec 4) (dst src : Reg)
  | movsxd (dst src : Reg)
  | lea (wide : Bool) (dst : Reg) (m : Place)
  | push (r : Reg)
  | pop (r : Reg)
  | aluRr (wide : Bool) (op : AluOp) (dst src : Reg)
  | aluRi (wide : Bool) (op : AluOp) (dst : Reg) (imm : BitVec 32)
  | testRr (wide : Bool) (a b : Reg)
  | testRi (wide : Bool) (r : Reg) (imm : BitVec 32)
  | shiftRi (wide : Bool) (kind : ShiftKind) (r : Reg) (count : BitVec 32)
      (within : ((0#32).sle count && count.slt (sizeWord wide)) = true)
  | shiftCl (wide : Bool) (kind : ShiftKind) (r : Reg)
  | imulRr (wide : Bool) (dst src : Reg)
  | divR (wide : Bool) (src : Reg)
  | idivR (wide : Bool) (src : Reg)
  | cdq
  | cqo
  | setcc (cc : BitVec 4) (dst : Reg)
  | xadd (locked wide : Bool) (m : Place) (src : Reg)
  | xchg (locked wide : Bool) (m : Place) (src : Reg)
  | cmpxchg (locked wide : Bool) (m : Place) (src : Reg)
  | callR (r : Reg)

/-- An atomic form, behind `lock` or not. -/
def lockedRun {σ : Type} (A : Allocator σ) (fuel : Nat) (locked : Bool) (f : Content σ → Outcome (Content σ))
    (c : Content σ) : Outcome (Content σ) := do
  let c ← (if locked = true then lock A fuel c else pure c)
  f c

def Call.run {σ : Type} (A : Allocator σ) (fuel : Nat) (c : Content σ) : Call → Outcome (Content σ)
  | .movRr wide dst src => X64Code.movRr A fuel c (sizeWord wide) (word dst) (word src)
  | .movRi32 dst imm => X64Code.movRi32 A fuel c (word dst) imm
  | .movRi64 dst imm => X64Code.movRi64 A fuel c (word dst) imm
  | .load wide dst m => X64Code.load A fuel c (sizeWord wide) (word dst) m.record
  | .store wide m src => X64Code.store A fuel c (sizeWord wide) m.record (word src)
  | .store8 m src => X64Code.store8 A fuel c m.record (word src)
  | .load8u dst m => X64Code.load8u A fuel c (word dst) m.record
  | .movzx8 dst src => X64Code.movzx8 A fuel c (word dst) (word src)
  | .bsr wide dst src => X64Code.bsr A fuel c (sizeWord wide) (word dst) (word src)
  | .bsf wide dst src => X64Code.bsf A fuel c (sizeWord wide) (word dst) (word src)
  | .popcnt wide dst src => X64Code.popcnt A fuel c (sizeWord wide) (word dst) (word src)
  | .cmov wide cc dst src => X64Code.cmov A fuel c (sizeWord wide) (word cc) (word dst) (word src)
  | .movsxd dst src => X64Code.movsxd A fuel c (word dst) (word src)
  | .lea wide dst m => X64Code.lea A fuel c (sizeWord wide) (word dst) m.record
  | .push r => X64Code.push A fuel c (word r)
  | .pop r => X64Code.pop A fuel c (word r)
  | .aluRr wide op dst src => X64Code.aluRr A fuel c (sizeWord wide) op.word (word dst) (word src)
  | .aluRi wide op dst imm => X64Code.aluRi A fuel c (sizeWord wide) op.word (word dst) imm
  | .testRr wide a b => X64Code.testRr A fuel c (sizeWord wide) (word a) (word b)
  | .testRi wide r imm => X64Code.testRi A fuel c (sizeWord wide) (word r) imm
  | .shiftRi wide kind r count _ => X64Code.shiftRi A fuel c (sizeWord wide) kind.word (word r) count
  | .shiftCl wide kind r => X64Code.shiftCl A fuel c (sizeWord wide) kind.word (word r)
  | .imulRr wide dst src => X64Code.imulRr A fuel c (sizeWord wide) (word dst) (word src)
  | .divR wide src => X64Code.divR A fuel c (sizeWord wide) (word src)
  | .idivR wide src => X64Code.idivR A fuel c (sizeWord wide) (word src)
  | .cdq => X64Code.cdq A fuel c
  | .cqo => X64Code.cqo A fuel c
  | .setcc cc dst => X64Code.setcc A fuel c (word cc) (word dst)
  | .xadd locked wide m src => lockedRun A fuel locked (X64Code.xadd A fuel · (sizeWord wide) m.record (word src)) c
  | .xchg locked wide m src => lockedRun A fuel locked (X64Code.xchg A fuel · (sizeWord wide) m.record (word src)) c
  | .cmpxchg locked wide m src =>
    lockedRun A fuel locked (X64Code.cmpxchg A fuel · (sizeWord wide) m.record (word src)) c
  | .callR r => X64Code.callR A fuel c (word r)

/-! ### What the forms mean -/

/-- The instruction of a call. -/
def Call.instr : Call → Instr
  | .movRr wide dst src => .mov wide (.reg dst) src
  | .movRi32 dst imm => .movImm false (.reg dst) (imm.setWidth 64)
  | .movRi64 dst imm => .movImm true (.reg dst) imm
  | .load wide dst m => .load wide dst (.mem m.addr)
  | .store wide m src => .mov wide (.mem m.addr) src
  | .store8 m src => .mov8 (.mem m.addr) (.low src)
  | .load8u dst m => .movzx8 false dst (.mem m.addr)
  | .movzx8 dst src => .movzx8 false dst (.reg (.low src))
  | .bsr wide dst src => .bsr wide dst (.reg src)
  | .bsf wide dst src => .bsf wide dst (.reg src)
  | .popcnt wide dst src => .popcnt wide dst (.reg src)
  | .cmov wide cc dst src => .cmov wide cc dst (.reg src)
  | .movsxd dst src => .movsxd true dst (.reg src)
  | .lea wide dst m => .lea wide dst m.addr
  | .push r => .push r
  | .pop r => .pop r
  | .aluRr wide op dst src => .alu wide op.digit (.reg dst) src
  | .aluRi wide op dst imm => .aluImm wide op.digit (.reg dst) imm
  | .testRr wide a b => .test wide (.reg a) b
  | .testRi wide r imm => .testImm wide (.reg r) imm
  | .shiftRi wide kind r count _ => .shiftImm wide kind.digit (.reg r) (count.setWidth 8)
  | .shiftCl wide kind r => .shiftCl wide kind.digit (.reg r)
  | .imulRr wide dst src => .imul wide dst (.reg src)
  | .divR wide src => .div wide (.reg src)
  | .idivR wide src => .idiv wide (.reg src)
  | .cdq => .signs false
  | .cqo => .signs true
  | .setcc cc dst => .setcc cc (.reg (.low dst))
  | .xadd _ wide m src => .xadd wide (.mem m.addr) src
  | .xchg _ wide m src => .xchg wide (.mem m.addr) src
  | .cmpxchg _ wide m src => .cmpxchg wide (.mem m.addr) src
  | .callR r => .call (.reg r)

def Call.locked : Call → Bool
  | .xadd locked _ _ _ => locked
  | .xchg locked _ _ _ => locked
  | .cmpxchg locked _ _ _ => locked
  | _ => false

/-! ### The bytes of the forms -/

/-- A prefix for the atomics. -/
def lockBytes (locked : Bool) : List Byte := if locked = true then [240] else []

/-- A register in an opcode. -/
def fieldBytes (wide : Bool) (op : BitVec 5) (r : Reg) : List Byte := rexBytes wide false false r.msb false ++ [op ++ low r]

def Call.bytes : Call → List Byte
  | .movRr wide dst src => regBytes wide [137] src dst false
  | .movRi32 dst imm => fieldBytes false 23 dst ++ bytes32 imm
  | .movRi64 dst imm =>
    if ((-2147483648#64).sle imm && imm.sle 2147483647) = true then
      regBytes true [199] 0 dst false ++ bytes32 (imm.setWidth 32)
    else fieldBytes true 23 dst ++ bytes64 imm
  | .load wide dst m => memBytes wide [139] dst m false
  | .store wide m src => memBytes wide [137] src m false
  | .store8 m src => memBytes false [136] src m (mid src)
  | .load8u dst m => memBytes false [15, 182] dst m false
  | .movzx8 dst src => regBytes false [15, 182] dst src (mid dst || mid src)
  | .bsr wide dst src => regBytes wide [15, 189] dst src false
  | .bsf wide dst src => regBytes wide [15, 188] dst src false
  | .popcnt wide dst src => 243 :: regBytes wide [15, 184] dst src false
  | .cmov wide cc dst src => regBytes wide [15, 4#4 ++ cc] dst src false
  | .movsxd dst src => regBytes true [99] dst src false
  | .lea wide dst m => memBytes wide [141] dst m false
  | .push r => fieldBytes false 10 r
  | .pop r => fieldBytes false 11 r
  | .aluRr wide op dst src => regBytes wide [0#2 ++ op.digit ++ 1#3] src dst false
  | .aluRi wide op dst imm =>
    if fits8 imm = true then regBytes wide [131] (op.digit.setWidth 4) dst false ++ [imm.setWidth 8]
    else if dst = 0 then rexBytes wide false false false false ++ (0#2 ++ op.digit ++ 5#3) :: bytes32 imm
    else regBytes wide [129] (op.digit.setWidth 4) dst false ++ bytes32 imm
  | .testRr wide a b => regBytes wide [133] b a false
  | .testRi wide r imm =>
    (if r = 0 then rexBytes wide false false false false ++ [169] else regBytes wide [247] 0 r false) ++ bytes32 imm
  | .shiftRi wide kind r count _ =>
    if count = 1 then regBytes wide [209] (kind.digit.setWidth 4) r false
    else regBytes wide [193] (kind.digit.setWidth 4) r false ++ [count.setWidth 8]
  | .shiftCl wide kind r => regBytes wide [211] (kind.digit.setWidth 4) r false
  | .imulRr wide dst src => regBytes wide [15, 175] dst src false
  | .divR wide src => regBytes wide [247] 6 src false
  | .idivR wide src => regBytes wide [247] 7 src false
  | .cdq => [153]
  | .cqo => [72, 153]
  | .setcc cc dst => regBytes false [15, 9#4 ++ cc] 0 dst (mid dst)
  | .xadd locked wide m src => lockBytes locked ++ memBytes wide [15, 193] src m false
  | .xchg locked wide m src => lockBytes locked ++ memBytes wide [135] src m false
  | .cmpxchg locked wide m src => lockBytes locked ++ memBytes wide [15, 177] src m false
  | .callR r => regBytes false [255] 2 r false

section Run

variable {σ : Type} {A : Allocator σ} {fuel : Nat}

theorem sizeOk_sizeWord (wide : Bool) : sizeOk (sizeWord wide) = true := by cases wide <;> rfl

@[simp] theorem sizeWord_wide (wide : Bool) : (sizeWord wide == 64#32) = wide := by cases wide <;> rfl

theorem aluOk_word (op : AluOp) : aluOk op.word = true := by cases op <;> rfl

theorem kindOk_word (kind : ShiftKind) : kindOk kind.word = true := by cases kind <;> rfl

theorem ccOk_word (cc : BitVec 4) : ccOk (word cc) = true := regOk_word cc

/-- The digits of the operations, as registers. -/
theorem AluOp.word_eq (op : AluOp) : op.word = X64Code.word (op.digit.setWidth 4) := by cases op <;> rfl

theorem ShiftKind.word_eq (kind : ShiftKind) : kind.word = X64Code.word (kind.digit.setWidth 4) := by cases kind <;> rfl

theorem writes_require {b : Bool} {f : Content σ → Outcome (Content σ)} {l : List Byte} (hb : b = true)
    (hf : Writes A fuel f l) : Writes A fuel (fun c => require b >>= fun _ => f c) l := by
  intro c
  subst hb
  exact hf c

theorem writes_regForm {op : BitVec 32} {l : List Byte} (hop : opBytes op = l) (wide : Bool) (reg r : Reg) :
    Writes A fuel (regForm A fuel op · (sizeWord wide) (word reg) (word r)) (regBytes wide l reg r false) := by
  subst hop
  refine writes_require (by rw [sizeOk_sizeWord, regOk_word, regOk_word]; rfl) ?_
  simpa using writes_rr (sizeWord wide) op reg r false

theorem writes_memForm {op : BitVec 32} {l : List Byte} (hop : opBytes op = l) (wide : Bool) (reg : Reg) (m : Place) :
    Writes A fuel (memForm A fuel op · (sizeWord wide) (word reg) m.record) (memBytes wide l reg m false) := by
  subst hop
  refine writes_require (by rw [sizeOk_sizeWord, regOk_word]; rfl) ?_
  simpa using writes_rm (sizeWord wide) op reg m false

/-- A register with a digit. -/
theorem writes_digit {op digit : BitVec 32} {d : Reg} {l : List Byte} (hop : opBytes op = l) (hd : digit = word d)
    (wide : Bool) (r : Reg) :
    Writes A fuel (rr A fuel · (sizeWord wide) op digit (word r) false) (regBytes wide l d r false) := by
  subst hop hd
  simpa using writes_rr (sizeWord wide) op d r false

theorem writes_groupForm (d : Reg) (wide : Bool) (r : Reg) :
    Writes A fuel (groupForm A fuel (word d) · (sizeWord wide) (word r)) (regBytes wide [247] d r false) :=
  writes_require (by rw [sizeOk_sizeWord, regOk_word]; rfl) (writes_digit rfl rfl wide r)

/-- An opcode that holds a register. -/
theorem writes_field {k : BitVec 32} {op : BitVec 5} (hk : ∀ r : Reg, (k + (word r &&& 7#32)).setWidth 8 = op ++ low r)
    (wide : Bool) (r : Reg) {f : Content σ → Outcome (Content σ)} {l : List Byte} (hf : Writes A fuel f l) :
    Writes A fuel (fun c => rex A fuel c wide 0 0 (word r) false >>= fun c =>
      byte A fuel c (k + (word r &&& 7#32)) >>= fun c => f c) (fieldBytes wide op r ++ l) := by
  refine ((writes_rex wide 0 0 r false).bind ((writes_byte_of (hk r)).bind hf)).congr ?_
  simp [fieldBytes]

theorem field_mov : ∀ r : Reg, (184#32 + (word r &&& 7#32)).setWidth 8 = 23#5 ++ low r := by decide

theorem field_push : ∀ r : Reg, (80#32 + (word r &&& 7#32)).setWidth 8 = 10#5 ++ low r := by decide

theorem field_pop : ∀ r : Reg, (88#32 + (word r &&& 7#32)).setWidth 8 = 11#5 ++ low r := by decide

theorem if_word_zero {α : Type} (r : Reg) (x y : α) : (if word r = 0 then x else y) = if r = 0 then x else y := by
  have h : ∀ r : Reg, word r = 0 ↔ r = 0 := by decide
  simp only [h r]

theorem writes_locked {locked : Bool} {f : Content σ → Outcome (Content σ)} {l : List Byte} (hf : Writes A fuel f l) :
    Writes A fuel (lockedRun A fuel locked f) (lockBytes locked ++ l) :=
  (writes_ite (fun _ => writes_byte 240) (fun _ => writes_nil)).bind hf

/-- Opcodes with a condition. -/
theorem opBytes_cmov : ∀ cc : BitVec 4, opBytes (3904#32 + word cc) = [15, 4#4 ++ cc] := by decide

theorem opBytes_setcc : ∀ cc : BitVec 4, opBytes (3984#32 + word cc) = [15, 9#4 ++ cc] := by decide

/-- **The bytes of every form.** -/
theorem Call.run_eq (k : Call) : Writes A fuel (fun c => k.run A fuel c) k.bytes := by
  cases k with
  | movRr wide dst src => exact writes_regForm rfl wide src dst
  | movRi32 dst imm =>
    exact writes_require (regOk_word dst) (writes_field field_mov false dst (writes_u32 imm))
  | movRi64 dst imm =>
    refine writes_require (regOk_word dst) (writes_ite (fun _ => ?_) (fun _ => ?_))
    · exact (writes_digit (d := 0) rfl rfl true dst).bind (writes_u32 (imm.setWidth 32))
    · exact writes_field field_mov true dst (writes_u64 imm)
  | load wide dst m => exact writes_memForm rfl wide dst m
  | store wide m src => exact writes_memForm rfl wide src m
  | store8 m src => exact writes_require (regOk_word src) (writes_rm 32 136 src m true)
  | load8u dst m => exact writes_require (regOk_word dst) (writes_rm 32 4022 dst m false)
  | movzx8 dst src =>
    exact writes_require (by rw [regOk_word, regOk_word]; rfl) (writes_rr 32 4022 dst src true)
  | bsr wide dst src => exact writes_regForm rfl wide dst src
  | bsf wide dst src => exact writes_regForm rfl wide dst src
  | popcnt wide dst src =>
    exact writes_require (by rw [sizeOk_sizeWord, regOk_word, regOk_word]; rfl)
      ((writes_byte 243).bind (writes_digit rfl rfl wide src))
  | cmov wide cc dst src =>
    exact writes_require (by rw [sizeOk_sizeWord, ccOk_word, regOk_word, regOk_word]; rfl)
      (writes_digit (opBytes_cmov cc) rfl wide src)
  | movsxd dst src =>
    exact writes_require (by rw [regOk_word, regOk_word]; rfl) (writes_digit rfl rfl true src)
  | lea wide dst m => exact writes_memForm rfl wide dst m
  | push r => exact writes_require (regOk_word r) ((writes_rex false 0 0 r false).bind (writes_byte_of (field_push r)))
  | pop r => exact writes_require (regOk_word r) ((writes_rex false 0 0 r false).bind (writes_byte_of (field_pop r)))
  | aluRr wide op dst src =>
    exact writes_require (by rw [sizeOk_sizeWord, aluOk_word, regOk_word, regOk_word]; rfl)
      (writes_digit (by cases op <;> rfl) rfl wide dst)
  | aluRi wide op dst imm =>
    refine writes_require (by rw [sizeOk_sizeWord, aluOk_word, regOk_word]; rfl)
      (writes_ite (fun _ => ?_) fun _ => (writes_ite (fun hdst => ?_) fun _ => ?_).congr (if_word_zero dst _ _))
    · exact (writes_digit rfl op.word_eq wide dst).bind (writes_byte imm)
    · have hop : (op.word * 8#32 + 5#32).setWidth 8 = 0#2 ++ op.digit ++ 5#3 := by cases op <;> rfl
      refine ((writes_rex (sizeWord wide == 64#32) 0 0 0 false).bind ((writes_byte_of hop).bind (writes_u32 imm))).congr ?_
      rw [sizeWord_wide]
      rfl
    · exact (writes_digit rfl op.word_eq wide dst).bind (writes_u32 imm)
  | testRr wide a b => exact writes_regForm rfl wide b a
  | testRi wide r imm =>
    refine writes_require (by rw [sizeOk_sizeWord, regOk_word]; rfl) ?_
    refine ((writes_ite (fun _ => ?_) fun _ => writes_digit (d := 0) rfl rfl wide r).congr
      (if_word_zero r _ _)).bind (writes_u32 imm)
    refine ((writes_rex (sizeWord wide == 64#32) 0 0 0 false).bind (writes_byte 169)).congr ?_
    rw [sizeWord_wide]
    rfl
  | shiftRi wide kind r count within =>
    refine writes_require (by rw [sizeOk_sizeWord, regOk_word]; rfl) (writes_require (kindOk_word kind)
      (writes_require within (writes_ite (fun _ => ?_) fun _ => ?_)))
    · exact writes_digit rfl kind.word_eq wide r
    · exact (writes_digit rfl kind.word_eq wide r).bind (writes_byte count)
  | shiftCl wide kind r =>
    exact writes_require (by rw [sizeOk_sizeWord, regOk_word]; rfl)
      (writes_require (kindOk_word kind) (writes_digit rfl kind.word_eq wide r))
  | imulRr wide dst src => exact writes_regForm rfl wide dst src
  | divR wide src => exact writes_groupForm 6 wide src
  | idivR wide src => exact writes_groupForm 7 wide src
  | cdq => exact writes_byte_of (x := 153) (by decide)
  | cqo => exact (writes_byte_of (x := 72) (by decide)).bind (writes_byte_of (x := 153) (by decide))
  | setcc cc dst =>
    refine writes_require (by rw [ccOk_word, regOk_word]; rfl) ((writes_rr 32 (3984#32 + word cc) 0 dst true).congr ?_)
    rw [opBytes_setcc]
    rfl
  | xadd locked wide m src => exact writes_locked (writes_memForm rfl wide src m)
  | xchg locked wide m src => exact writes_locked (writes_memForm rfl wide src m)
  | cmpxchg locked wide m src => exact writes_locked (writes_memForm rfl wide src m)
  | callR r => exact writes_require (regOk_word r) (writes_digit (d := 2) rfl rfl false r)

end Run

/-! ### The bytes are read back -/

section Decode

variable {wide f : Bool} {reg r : Reg} {m : Place} {o : Byte} {l l' : List Byte} {i : Instr}

theorem decode_reg {k : One} (ho : Opening o) (h0 : o ≠ 0x0f#8) (hk : one o = some k)
    (hread : k.read (rexOf wide reg.msb false r.msb f) (modrm 3 (low reg) (low r) :: l) = some (i, l')) :
    decode (regBytes wide [o] reg r f ++ l) = some (false, i, l') := by
  simpa [regBytes] using decode_one ho h0 hk hread

theorem decode_mem {k : One} (ho : Opening o) (h0 : o ≠ 0x0f#8) (hk : one o = some k)
    (hread : k.read (rexOf wide reg.msb (indexBit m.index) m.base.msb f)
      (addrBytes (low reg) m.base m.index m.disp ++ l) = some (i, l')) :
    decode (memBytes wide [o] reg m f ++ l) = some (false, i, l') := by
  simpa [memBytes] using decode_one ho h0 hk hread

theorem decode_reg2 {k : Two} (hk : two false o = some k)
    (hread : k.read (rexOf wide reg.msb false r.msb f) (modrm 3 (low reg) (low r) :: l) = some (i, l')) :
    decode (regBytes wide [15, o] reg r f ++ l) = some (false, i, l') := by
  simpa [regBytes] using decode_two hk hread

theorem decode_mem2 {k : Two} (hk : two false o = some k)
    (hread : k.read (rexOf wide reg.msb (indexBit m.index) m.base.msb f)
      (addrBytes (low reg) m.base m.index m.disp ++ l) = some (i, l')) :
    decode (memBytes wide [15, o] reg m f ++ l) = some (false, i, l') := by
  simpa [memBytes] using decode_two hk hread

theorem decode_field {k : BitVec 3 → One} {op : BitVec 5} (ho : ∀ x : BitVec 3, Opening (op ++ x))
    (h0 : ∀ x : BitVec 3, op ++ x ≠ 0x0f#8) (hk : ∀ x : BitVec 3, one (op ++ x) = some (k x)) (hread : (k (low r)).read (rexOf wide false false r.msb false) l = some (i, l')) :
    decode (fieldBytes wide op r ++ l) = some (false, i, l') := by
  simpa [fieldBytes] using decode_one (ho (low r)) (h0 (low r)) (hk (low r)) hread

@[simp] theorem takeRm_place (w a : Bool) (d : BitVec 3) (m : Place) (l : List Byte) :
    takeRm ⟨w, a, indexBit m.index, m.base.msb⟩ (addrBytes d m.base m.index m.disp ++ l) = some (d, .mem m.addr, l) :=
  takeRm_based w a d m.base m.disp l m.index_ne

/-- A memory operation, behind `lock` or not. -/
theorem decode_locked {locked : Bool} {op : List Byte} (ho : Opening o) (hi : i.lockable = true)
    (h : decode (memBytes wide (o :: op) reg m f ++ l) = some (false, i, l')) :
    decode (lockBytes locked ++ (memBytes wide (o :: op) reg m f ++ l)) = some (locked, i, l') := by
  cases locked with
  | false => exact h
  | true =>
    refine decode_lock ?_ h hi
    simp [memBytes, takePrefixes_rexBytes ho]

/-- Immediates that are written in 32 bits. -/
theorem signExtend_word {imm : BitVec 64} (h : ((-2147483648#64).sle imm && imm.sle 2147483647) = true) :
    (imm.setWidth 32).signExtend 64 = imm := by
  rw [Bool.and_eq_true, BitVec.sle_iff_toInt_le, BitVec.sle_iff_toInt_le] at h
  have hlo : (-2147483648#64).toInt = -2147483648 := by decide
  have hhi : (2147483647 : BitVec 64).toInt = 2147483647 := by decide
  exact signExtend_setWidth (by decide) (by decide) ⟨by omega, by omega⟩

theorem low_digit : ∀ d : BitVec 3, low (d.setWidth 4) = d := by decide

/-- Byte registers have a prefix where one is needed. -/
theorem byteReg_low {w a x b force : Bool} {r : Reg} (h : mid r = true → force = true) :
    byteReg (rexOf w a x b force) r = .low r := by
  rw [byteReg, if_neg]
  rintro ⟨hnone, hmid⟩
  have hforce : force = true := h (by rw [mid, hmid]; rfl)
  simp [rexOf, hforce] at hnone

/-- **Every form decodes to itself**, and to its own bytes. -/
theorem Call.decode_bytes (k : Call) (rest : List Byte) : decode (k.bytes ++ rest) = some (k.locked, k.instr, rest) := by
  cases k with
  | movRr wide dst src =>
    exact decode_reg (k := .mov) (by decide) (by decide) (by decide) (by simp [One.read, Call.instr])
  | movRi32 dst imm =>
    rw [Call.bytes, List.append_assoc]
    exact decode_field (k := .movReg) (by decide) (by decide) (by decide) (by simp [One.read, Call.instr])
  | movRi64 dst imm =>
    rw [Call.bytes]
    split
    · next hfits =>
      rw [List.append_assoc]
      refine decode_reg (k := .movImm) (by decide) (by decide) (by decide) ?_
      simp [One.read, Call.instr, signExtend_word hfits, (by decide : low 0#4 = 0#3)]
    · rw [List.append_assoc]
      exact decode_field (k := .movReg) (by decide) (by decide) (by decide) (by simp [One.read, Call.instr])
  | load wide dst m =>
    exact decode_mem (k := .load) (by decide) (by decide) (by decide) (by simp [One.read, Call.instr])
  | store wide m src =>
    exact decode_mem (k := .mov) (by decide) (by decide) (by decide) (by simp [One.read, Call.instr])
  | store8 m src =>
    refine decode_mem (k := .mov8) (by decide) (by decide) (by decide) ?_
    simp [One.read, Operand.map, byteReg_low, Call.instr]
  | load8u dst m => exact decode_mem2 (k := .movzx8) (by decide) (by simp [Two.read, Operand.map, Call.instr])
  | movzx8 dst src =>
    refine decode_reg2 (k := .movzx8) (by decide) ?_
    simp +contextual [Two.read, Operand.map, byteReg_low, Call.instr]
  | bsr wide dst src => exact decode_reg2 (k := .bsr) (by decide) (by simp [Two.read, Call.instr])
  | bsf wide dst src => exact decode_reg2 (k := .bsf) (by decide) (by simp [Two.read, Call.instr])
  | popcnt wide dst src =>
    show decode (0xf3#8 :: (regBytes wide [15, 184] dst src false ++ rest)) = _
    have hread : Two.read (rexOf wide dst.msb false src.msb false) (modrm 3 (low dst) (low src) :: rest) .popcnt =
        some (.popcnt wide dst (.reg src), rest) := by simp [Two.read]
    simpa [regBytes, Call.instr, Call.locked] using decode_rep (o := 184) (by decide) hread
  | cmov wide cc dst src =>
    have hcc : ∀ cc : BitVec 4, two false (4#4 ++ cc) = some (.cmov cc) := by decide
    exact decode_reg2 (hcc cc) (by simp [Two.read, Call.instr])
  | movsxd dst src =>
    exact decode_reg (k := .movsxd) (by decide) (by decide) (by decide) (by simp [One.read, Call.instr])
  | lea wide dst m => exact decode_mem (k := .lea) (by decide) (by decide) (by decide) (by simp [One.read, Call.instr])
  | push r => exact decode_field (k := .push) (by decide) (by decide) (by decide) (by simp [One.read, Call.instr])
  | pop r => exact decode_field (k := .pop) (by decide) (by decide) (by decide) (by simp [One.read, Call.instr])
  | aluRr wide op dst src =>
    have ho : ∀ d : BitVec 3, Opening (0#2 ++ d ++ 1#3) ∧ 0#2 ++ d ++ 1#3 ≠ 0x0f#8 ∧ one (0#2 ++ d ++ 1#3) = some (.alu d) := by
      decide
    obtain ⟨hopen, h0, hone⟩ := ho op.digit
    exact decode_reg hopen h0 hone (by simp [One.read, Call.instr])
  | aluRi wide op dst imm =>
    rw [Call.bytes]
    split
    · next hfits =>
      rw [List.append_assoc]
      refine decode_reg (k := .aluImm8) (by decide) (by decide) (by decide) ?_
      simp [One.read, Call.instr, takeDisp, low_digit, signExtend_low (d := imm) hfits]
    · split
      · next hdst =>
        have ho : ∀ d : BitVec 3, Opening (0#2 ++ d ++ 5#3) ∧ 0#2 ++ d ++ 5#3 ≠ 0x0f#8 ∧
            one (0#2 ++ d ++ 5#3) = some (.aluEax d) := by decide
        obtain ⟨hopen, h0, hone⟩ := ho op.digit
        rw [List.append_assoc]
        exact decode_one hopen h0 hone (by simp [One.read, Call.instr, hdst])
      · rw [List.append_assoc]
        refine decode_reg (k := .aluImm32) (by decide) (by decide) (by decide) ?_
        simp [One.read, Call.instr, low_digit]
  | testRr wide a b =>
    exact decode_reg (k := .test) (by decide) (by decide) (by decide) (by simp [One.read, Call.instr])
  | testRi wide r imm =>
    rw [Call.bytes, List.append_assoc]
    split
    · next hr =>
      rw [List.append_assoc]
      refine decode_one (k := .testEax) (by decide) (by decide) (by decide) ?_
      simp [One.read, Call.instr, hr]
    · refine decode_reg (k := .group3) (by decide) (by decide) (by decide) ?_
      simp [One.read, Call.instr, (by decide : low 0#4 = 0#3)]
  | shiftRi wide kind r count within =>
    rw [Call.bytes]
    split
    · next hone =>
      refine decode_reg (k := .shiftOne) (by decide) (by decide) (by decide) ?_
      simp [One.read, Call.instr, low_digit, hone]
    · rw [List.append_assoc]
      refine decode_reg (k := .shiftImm) (by decide) (by decide) (by decide) ?_
      simp [One.read, Call.instr, low_digit]
  | shiftCl wide kind r =>
    refine decode_reg (k := .shiftCl) (by decide) (by decide) (by decide) ?_
    simp [One.read, Call.instr, low_digit]
  | imulRr wide dst src => exact decode_reg2 (k := .imul) (by decide) (by simp [Two.read, Call.instr])
  | divR wide src =>
    refine decode_reg (k := .group3) (by decide) (by decide) (by decide) ?_
    simp [One.read, Call.instr, (by decide : low 6#4 = 6#3)]
  | idivR wide src =>
    refine decode_reg (k := .group3) (by decide) (by decide) (by decide) ?_
    simp [One.read, Call.instr, (by decide : low 7#4 = 7#3)]
  | cdq =>
    show decode (rexBytes false false false false false ++ 153 :: rest) = _
    exact decode_one (k := .signs) (by decide) (by decide) (by decide) (by simp [One.read, Call.instr])
  | cqo =>
    show decode (rexBytes true false false false false ++ 153 :: rest) = _
    exact decode_one (k := .signs) (by decide) (by decide) (by decide) (by simp [One.read, Call.instr])
  | setcc cc dst =>
    have hcc : ∀ cc : BitVec 4, two false (9#4 ++ cc) = some (.setcc cc) := by decide
    refine decode_reg2 (hcc cc) ?_
    simp [Two.read, Operand.map, byteReg_low, Call.instr]
  | xadd locked wide m src =>
    rw [Call.bytes, List.append_assoc]
    exact decode_locked (by decide) rfl (decode_mem2 (k := .xadd) (by decide) (by simp [Two.read]; rfl))
  | xchg locked wide m src =>
    rw [Call.bytes, List.append_assoc]
    exact decode_locked (by decide) rfl (decode_mem (k := .xchg) (by decide) (by decide) (by decide) (by simp [One.read]; rfl))
  | cmpxchg locked wide m src =>
    rw [Call.bytes, List.append_assoc]
    exact decode_locked (by decide) rfl (decode_mem2 (k := .cmpxchg) (by decide) (by simp [Two.read]; rfl))
  | callR r =>
    refine decode_reg (k := .group5) (by decide) (by decide) (by decide) ?_
    simp [One.read, Call.instr, (by decide : low 2#4 = 2#3)]

end Decode

/-! ### Different calls have different bytes -/

@[simp] theorem AluOp.digit_inj {a b : AluOp} : a.digit = b.digit ↔ a = b := by
  constructor
  · cases a <;> cases b <;> first | exact fun _ => rfl | exact fun h => absurd h (by decide)
  · exact congrArg AluOp.digit

@[simp] theorem ShiftKind.digit_inj {a b : ShiftKind} : a.digit = b.digit ↔ a = b := by
  constructor
  · cases a <;> cases b <;> first | exact fun _ => rfl | exact fun h => absurd h (by decide)
  · exact congrArg ShiftKind.digit

@[simp] theorem Place.addr_inj {p q : Place} : p.addr = q.addr ↔ p = q := by
  constructor
  · intro h
    cases p
    cases q
    cases h
    rfl
  · exact congrArg Place.addr

theorem count_lt {wide : Bool} {a : BitVec 32} (ha : ((0#32).sle a && a.slt (sizeWord wide)) = true) : a.toNat < 64 := by
  rw [Bool.and_eq_true, BitVec.sle_iff_toInt_le, BitVec.slt_iff_toInt_lt] at ha
  have hsize : (sizeWord wide).toInt ≤ 64 := by cases wide <;> decide
  have hlt := a.isLt
  rw [BitVec.toInt_zero, BitVec.toInt_eq_toNat_cond] at ha
  split at ha <;> omega

theorem setWidth_inj_of_lt {a b : BitVec 32} (ha : a.toNat < 64) (hb : b.toNat < 64)
    (h : a.setWidth 8 = b.setWidth 8) : a = b := by
  have h := congrArg BitVec.toNat h
  rw [BitVec.toNat_setWidth, BitVec.toNat_setWidth, Nat.mod_eq_of_lt (by omega), Nat.mod_eq_of_lt (by omega)] at h
  exact BitVec.eq_of_toNat_eq h

@[simp] theorem setWidth_64_inj {a b : BitVec 32} : a.setWidth 64 = b.setWidth 64 ↔ a = b :=
  ⟨fun h => by simpa using congrArg (BitVec.setWidth 32) h, congrArg (BitVec.setWidth 64)⟩

/-- **A call is what it decodes to.** -/
theorem Call.eq_of_instr {k k' : Call} (hl : k.locked = k'.locked) (h : k.instr = k'.instr) : k = k' := by
  cases k <;> cases k' <;> try (cases h; done)
  case shiftRi.shiftRi wide kind r count hcount wide' kind' r' count' hcount' =>
    simp only [Call.instr, Instr.shiftImm.injEq, ShiftKind.digit_inj, Operand.reg.injEq] at h
    obtain ⟨rfl, rfl, rfl, h⟩ := h
    cases setWidth_inj_of_lt (count_lt hcount) (count_lt hcount') h
    rfl
  all_goals simp_all [Call.instr, Call.locked]

theorem Call.bytes_inj {k k' : Call} {rest rest' : List Byte} (h : k.bytes ++ rest = k'.bytes ++ rest') :
    k = k' ∧ rest = rest' := by
  have hread := k.decode_bytes rest
  rw [h, k'.decode_bytes rest'] at hread
  simp only [Option.some.injEq, Prod.mk.injEq] at hread
  exact ⟨Call.eq_of_instr hread.1.symm hread.2.1.symm, hread.2.2.symm⟩

/-! ### What the forms accept -/

theorem sizeOk_iff (sz : BitVec 32) : sizeOk sz = true ↔ ∃ wide, sizeWord wide = sz := by
  constructor
  · intro h
    rw [sizeOk, Bool.or_eq_true, beq_iff_eq, beq_iff_eq] at h
    rcases h with rfl | rfl
    · exact ⟨false, rfl⟩
    · exact ⟨true, rfl⟩
  · rintro ⟨wide, rfl⟩
    exact sizeOk_sizeWord wide

theorem kindOk_iff (v : BitVec 32) : kindOk v = true ↔ ∃ kind : ShiftKind, kind.word = v := by
  constructor
  · intro h
    simp only [kindOk, Bool.or_eq_true, beq_iff_eq] at h
    rcases h with rfl | rfl | rfl | rfl | rfl
    · exact ⟨.rol, rfl⟩
    · exact ⟨.ror, rfl⟩
    · exact ⟨.shl, rfl⟩
    · exact ⟨.shr, rfl⟩
    · exact ⟨.sar, rfl⟩
  · rintro ⟨kind, rfl⟩
    exact kindOk_word kind

/-- **x86-64 operands decode to themselves.**  Memory operands, registers, conditions, sizes and kinds of shift that the
encoder takes are those of the calls.  A call appends its bytes and nothing else; read by the rules of the manual, with
anything behind them, they are its instruction with its operands and end where it does; and no other call has them. -/
theorem operands_decode {σ : Type} (A : Allocator σ) (fuel : Nat) :
    (∀ m, Made m ↔ ∃ p : Place, p.record = m) ∧
    (∀ v, regOk v = true ↔ ∃ r, word r = v) ∧
    (∀ v, ccOk v = true ↔ ∃ cc, word cc = v) ∧
    (∀ v, sizeOk v = true ↔ ∃ wide, sizeWord wide = v) ∧
    (∀ v, kindOk v = true ↔ ∃ kind : ShiftKind, kind.word = v) ∧
    (∀ (k : Call) (c : Content σ), k.run A fuel c = pushAll A fuel c k.bytes) ∧
    (∀ (k : Call) rest, decode (k.bytes ++ rest) = some (k.locked, k.instr, rest)) ∧
    ∀ (k k' : Call) rest rest', k.bytes ++ rest = k'.bytes ++ rest' → k = k' ∧ rest = rest' :=
  ⟨made_iff, regOk_iff, regOk_iff, sizeOk_iff, kindOk_iff, fun k c => k.run_eq c, Call.decode_bytes,
    fun _ _ _ _ => Call.bytes_inj⟩

example : (Call.load true 12 ⟨13, some ⟨12, 3⟩, 0, by decide⟩).bytes = [0x4f, 0x8b, 0x64, 0xe5, 0x00] := by decide

end Aipl.X64Code
