import Aipl.Lib.Wasm.Ints
import Aipl.Native.Lower.Operands

/-! # Division

The code for wasm's divisions of i32s and i64s: with the checks that keep a machine division from a fault, without
them by a constant, and by shifts and masks by a power of two.

* `i32Op`, `i64Op` — the source's, for the division opcodes.
* `signed_run`, `unsigned_run` — the machine's divisions, where they do not fault.
* `powerCode_run` — the powers of two.
* `division_exact` — wasm's result, or wasm's trap.
-/

namespace Aipl.Native.Lower

open Aipl.Lib Aipl.Lib.X64 Aipl.Lib.Wasm

/-- What the trap routine is told. -/
inductive Reason where
  | divZero
  | overflow
deriving DecidableEq

variable (F : Frame) (sz : Size)

/-- `emit_trap_if`: a jump over the trap on the opposite condition. -/
def trapIf (cc : Nat) (r : Reason) : List (Item Reason) := [.jcc (cc ^^^ 1) 1, .trap r]

def pushReg (V : List Op) (reg : Nat) : List Op := V ++ [⟨.reg, BitVec.ofNat 64 reg⟩]

def topIsConst (V : List Op) : Bool :=
  match V.getLast? with
  | none => false
  | some o => o.kind = .const32 || o.kind = .const64

/-- The top value, a constant, as a number of the size. -/
def topConst (V : List Op) : BitVec 64 :=
  let v := (V.getLast?.getD default).val
  match sz with
  | .b32 => (v.setWidth 32).signExtend 64
  | .b64 => v

/-- Whether the top value is a constant other than 0 and -1. -/
def safeDivisor (V : List Op) : Bool := topIsConst V && topConst sz V != 0#64 && topConst sz V != -1#64

/-- `k` if `v` is `2 ^ k`, else -1. -/
def log2Exact (v : BitVec 64) : Int :=
  let x := match sz with
    | .b32 => (v.setWidth 32).setWidth 64
    | .b64 => v
  (List.range' 1 (sz.bits - 1)).foldl (fun (k : Int) (i : Nat) => if x = 1#64 <<< i then (i : Int) else k) (-1)

/-- A mask as an immediate, or by way of a register. -/
def andMask (k dst via : Nat) (imm : BitVec 32) (mask : BitVec 64) : List Instr :=
  if k < 31 then [.aluRI sz .and dst imm]
  else [.movRI64 via mask, .aluRR sz .and dst via]

def powerCode (signed rem : Bool) (k dst : Nat) : List Instr :=
  if !signed && !rem then [.shiftRI sz .shr dst k]
  else if !signed then andMask sz k dst 11 ((1#32 <<< k) - 1#32) ((1#64 <<< k) - 1#64)
  else
    -- r11 is the bias: 2^k - 1 for a negative number
    [.movRR .b64 11 dst, .shiftRI sz .sar 11 (sz.bits - 1), .shiftRI sz .shr 11 (sz.bits - k)] ++
      if !rem then [.aluRR sz .add dst 11, .shiftRI sz .sar dst k]
      else .aluRR sz .add 11 dst :: (andMask sz k 11 10 (0#32 - (1#32 <<< k)) (0#64 - (1#64 <<< k)) ++ [.aluRR sz .sub dst 11])

def divideByPower (signed rem : Bool) (k : Nat) (V : List Op) : Option (List Op × List (Item Reason)) := do
  let (b, V) := vpop V
  let (a, V) := vpop V
  let (dst, _, V, code) ← operands F sz true a b V
  some (pushReg V dst, items Reason (code ++ powerCode sz signed rem k dst))

/-- `keep_top` and `pop_operands`. -/
def fixedOperands (V : List Op) : List Op × List Instr :=
  let (V, spilled) := keepTop F 2 V
  let (V, code) := popOperands F V
  (V, spilled ++ code)

def divideByConst (signed rem : Bool) (V : List Op) : Option (List Op × List (Item Reason)) :=
  let v := topConst sz V
  let k := log2Exact sz v
  if 1 ≤ k ∧ (signed = false ∨ 0 < v.toInt) then divideByPower F sz signed rem k.toNat V
  else
    let (V, code) := fixedOperands F V
    some (pushReg V (if rem then 2 else 0), items Reason (code ++
      if signed then [.signRdx sz, .idivR sz 1] else [.aluRR .b32 .xor 2 2, .divR sz 1]))

/-- The check for the least number, before a division by -1. -/
def minCheck : Size → List (Item Reason)
  | .b32 => .instr (.aluRI .b32 .cmp 0 (-2147483648#32)) :: trapIf 4 .overflow
  | .b64 => .instr (.movRI64 11 (-9223372036854775808#64)) :: .instr (.aluRR .b64 .cmp 0 11) :: trapIf 4 .overflow

def divS (V : List Op) : Option (List Op × List (Item Reason)) :=
  let (V, code) := fixedOperands F V
  some (pushReg V 0, items Reason code ++ (.instr (.testRR sz 1 1) :: (trapIf 4 .divZero ++
    (.instr (.aluRI sz .cmp 1 (-1#32)) :: .jcc 5 (minCheck sz).length :: (minCheck sz ++ items Reason [.signRdx sz, .idivR sz 1])))))

/-- A division by -1 is jumped over, with rdx 0. -/
def remS (V : List Op) : Option (List Op × List (Item Reason)) :=
  let (V, code) := fixedOperands F V
  some (pushReg V 2, items Reason code ++ (.instr (.testRR sz 1 1) :: (trapIf 4 .divZero ++
    (.instr (.aluRR .b32 .xor 2 2) :: .instr (.aluRI sz .cmp 1 (-1#32)) :: .jcc 4 2 :: items Reason [.signRdx sz, .idivR sz 1]))))

def divRemU (rem : Bool) (V : List Op) : Option (List Op × List (Item Reason)) :=
  let (V, code) := fixedOperands F V
  some (pushReg V (if rem then 2 else 0), items Reason code ++ (.instr (.testRR sz 1 1) :: (trapIf 4 .divZero ++
    items Reason [.aluRR .b32 .xor 2 2, .divR sz 1])))

/-- The divisions among the i64 instructions. -/
def i64Op (op : Nat) (V : List Op) : Option (List Op × List (Item Reason)) :=
  if 127 ≤ op ∧ op ≤ 130 ∧ safeDivisor .b64 V = true then
    divideByConst F .b64 (op = 127 || op = 129) (op = 129 || op = 130) V
  else if op = 127 then divS F .b64 V
  else if op = 129 then remS F .b64 V
  else if op = 128 ∨ op = 130 then divRemU F .b64 (op != 128) V
  else none

/-- The divisions among the i32 instructions. -/
def i32Op (op : Nat) (V : List Op) : Option (List Op × List (Item Reason)) :=
  if 109 ≤ op ∧ op ≤ 112 ∧ safeDivisor .b32 V = true then
    divideByConst F .b32 (op = 109 || op = 111) (op = 111 || op = 112) V
  else if op = 109 then divS F .b32 V
  else if op = 111 then remS F .b32 V
  else if op = 110 ∨ op = 112 then divRemU F .b32 (op != 110) V
  else none

def intOp : Size → Nat → List Op → Option (List Op × List (Item Reason))
  | .b32 => i32Op F
  | .b64 => i64Op F

/-! ### What is asked -/

/-- Wasm's operators. -/
def wasmDivision {w : Nat} (signed rem : Bool) (x y : BitVec w) : Option (BitVec w) :=
  match signed, rem with
  | true, false => idivS x y
  | true, true => iremS x y
  | false, false => idivU x y
  | false, true => iremU x y

/-- div_s, div_u, rem_s, rem_u. -/
def opcode (signed rem : Bool) : Nat :=
  (match sz with
    | .b32 => 109
    | .b64 => 127) + (if signed then 0 else 1) + (if rem then 2 else 0)

/-- The code leaves the result above what stood below the operands, or traps. -/
def Computes (m : Machine) (below : List (BitVec 64)) (y : BitVec sz.bits) (result : Option (BitVec sz.bits))
    (r : Option (List Op × List (Item Reason))) : Prop :=
  ∃ V code, r = some (V, code) ∧
    match result with
    | none => exec 0 code m = .trap (if y = BitVec.ofNat sz.bits 0 then .divZero else .overflow)
    | some v => ∃ m' z, exec 0 code m = .done m' ∧ F.stackValues V m' = below ++ [z] ∧ z.setWidth sz.bits = v ∧ Values V ∧
        ∀ i, F.localValue m' i = F.localValue m i

/-! ### Registers of a size -/

variable {F sz} {V : List Op} {m m' : Machine} {below : List (BitVec 64)} {x y : BitVec 64} {signed rem : Bool} {k dst : Nat}

theorem bits_le : sz.bits ≤ 64 := by cases sz <;> decide

theorem bits_pos : 1 < sz.bits := by cases sz <;> decide

theorem setWidth_widened (v : BitVec sz.bits) : (v.setWidth 64).setWidth sz.bits = v := by
  rw [BitVec.setWidth_setWidth_of_le _ bits_le, BitVec.setWidth_eq]

theorem read_write (m : Machine) (r : Nat) (v : BitVec sz.bits) : (m.write sz r v).read sz r = v := by
  rw [Machine.write, Machine.read, set_regs_self, setWidth_widened]

theorem read_other (m : Machine) {r s : Nat} (h : s ≠ r) {sz' : Size} (v : BitVec sz'.bits) : (m.write sz' r v).read sz s = m.read sz s := by
  rw [Machine.write, Machine.read, Machine.read, (keeps_set m r _).regs s h]

/-! ### Checks -/

theorem exec_trapIf {cc : Nat} (hcc : cc < 16) (reason : Reason) (rest : List (Item Reason)) (f : Flags) (hf : m.flags = some f) :
    exec 0 (trapIf cc reason ++ rest) m = if f.holds cc then .trap reason else exec 0 rest m := by
  rw [trapIf, List.cons_append, List.cons_append, List.nil_append, X64.exec, hf]
  dsimp only
  rw [holds_xor_one f cc hcc]
  cases f.holds cc with
  | false => exact exec_skip [.trap reason] rest m
  | true => rfl

theorem test_holds {w : Nat} (b : BitVec w) : (AluOp.and.flags b b).holds 4 = decide (b = 0#w) := by
  show decide (b &&& b = 0#w) = _
  rw [BitVec.and_self]

theorem cmp_holds {w : Nat} (a b : BitVec w) : (AluOp.cmp.flags a b).holds 4 = decide (a = b) := by
  show decide (a - b = 0#w) = _
  exact decide_eq_decide.mpr sub_eq_zero

/-- **The check for zero.** -/
theorem exec_zeroCheck (rest : List (Item Reason)) (m : Machine) : exec 0 (.instr (.testRR sz 1 1) :: (trapIf 4 .divZero ++ rest)) m =
    if m.read sz 1 = BitVec.ofNat sz.bits 0 then .trap .divZero
    else exec 0 rest { m with flags := some (AluOp.and.flags (m.read sz 1) (m.read sz 1)) } := by
  rw [exec_instr rfl, exec_trapIf (by decide) _ _ _ rfl, test_holds]
  exact if_congr decide_eq_true_iff rfl rfl

variable (sz) in
/-- **The check for the least number.** -/
theorem exec_minCheck (rest : List (Item Reason)) (m : Machine) : ∃ m', m'.stack = m.stack ∧ Keeps (· = 11) m m' ∧
    exec 0 (minCheck sz ++ rest) m = if m.read sz 0 = BitVec.intMin sz.bits then .trap .overflow else exec 0 rest m' := by
  cases sz with
  | b32 =>
    refine ⟨alu m .b32 .cmp 0 ((-2147483648#32).signExtend Size.b32.bits), rfl, ⟨fun _ _ => rfl, rfl, rfl⟩, ?_⟩
    rw [minCheck, List.cons_append, exec_instr rfl, exec_trapIf (by decide) _ _ _ rfl, cmp_holds]
    exact if_congr decide_eq_true_iff rfl rfl
  | b64 =>
    have hkeeps := keeps_set m 11 (-9223372036854775808#64)
    refine ⟨alu (m.set 11 (-9223372036854775808#64)) .b64 .cmp 0 ((m.set 11 (-9223372036854775808#64)).read .b64 11), rfl, ⟨hkeeps.regs, rfl, rfl⟩, ?_⟩
    rw [minCheck, List.cons_append, exec_instr rfl, List.cons_append, exec_instr rfl, exec_trapIf (by decide) _ _ _ rfl, cmp_holds]
    refine if_congr (decide_eq_true_iff.trans ?_) rfl rfl
    rw [Machine.read, Machine.read, hkeeps.regs 0 (by decide), set_regs_self]
    rfl

/-! ### The machine's divisions -/

theorem divided_some (m : Machine) (q r : BitVec sz.bits) : ∃ m', divided m sz (some (q, r)) = some m' ∧ m'.read sz 0 = q ∧ m'.read sz 2 = r ∧
    m'.stack = m.stack ∧ Keeps IsPool m m' := by
  have hfirst : Keeps IsPool m (m.write sz 0 q) := (keeps_set m 0 _).mono fun r hr => .inl (by omega)
  have hsecond : Keeps IsPool (m.write sz 0 q) ((m.write sz 0 q).write sz 2 r) := (keeps_set _ 2 _).mono fun r hr => .inl (by omega)
  have hkeeps := hfirst.trans hsecond
  refine ⟨_, rfl, ?_, ?_, rfl, hkeeps.regs, hkeeps.xmm, hkeeps.slots⟩
  · exact (read_other (m.write sz 0 q) (show (0 : Nat) ≠ 2 by decide) r).trans (read_write m 0 q)
  · exact read_write (m.write sz 0 q) 2 r

variable (sz) in
/-- `xor edx, edx`. -/
theorem clearRdx_step (m : Machine) : ∃ m', Instr.step m (.aluRR .b32 .xor 2 2) = some m' ∧ m'.read sz 2 = BitVec.ofNat sz.bits 0 ∧
    (∀ r ≠ 2, m'.read sz r = m.read sz r) ∧ m'.stack = m.stack ∧ Keeps IsPool m m' := by
  have hxor : AluOp.xor.result (m.read .b32 2) (m.read .b32 2) = 0#32 := BitVec.xor_self
  refine ⟨_, rfl, ?_, fun r hr => ?_, rfl, ⟨fun r hr => (keeps_set m 2 _).regs r fun h => hr (.inl (by omega)), rfl, rfl⟩⟩
  · have hreg : (m.write .b32 2 (AluOp.xor.result (m.read .b32 2) (m.read .b32 2))).regs 2 = 0#64 := by
      rw [Machine.write, set_regs_self, hxor]
      rfl
    exact (congrArg (BitVec.setWidth sz.bits) hreg).trans (BitVec.setWidth_zero sz.bits 64)
  · exact read_other m hr _

/-- **`div`** by what is not zero. -/
theorem unsigned_run (hne : m.read sz 1 ≠ BitVec.ofNat sz.bits 0) : ∃ m', run [.aluRR .b32 .xor 2 2, .divR sz 1] m = some m' ∧
    m'.read sz 0 = m.read sz 0 / m.read sz 1 ∧ m'.read sz 2 = m.read sz 0 % m.read sz 1 ∧ m'.stack = m.stack ∧ Keeps IsPool m m' := by
  obtain ⟨m₁, hstep, hzero, hread, hstack₁, hkeeps₁⟩ := clearRdx_step sz m
  obtain ⟨m', hrun, hq, hr, hstack, hkeeps⟩ := divided_some m₁ (m.read sz 0 / m.read sz 1) (m.read sz 0 % m.read sz 1)
  refine ⟨m', ?_, hq, hr, hstack.trans hstack₁, hkeeps₁.trans hkeeps⟩
  rw [X64.run, hstep]
  show (divided m₁ sz _ >>= X64.run []) = _
  rw [hzero, hread 0 (by decide), hread 1 (by decide), divide_zero hne, hrun]
  rfl

/-- **`idiv`** where the quotient exists and fits. -/
theorem signed_run (hne : m.read sz 1 ≠ BitVec.ofNat sz.bits 0) (hfits : ¬ (m.read sz 0 = BitVec.intMin sz.bits ∧ m.read sz 1 = -BitVec.ofNat sz.bits 1)) :
    ∃ m', run [.signRdx sz, .idivR sz 1] m = some m' ∧ m'.read sz 0 = (m.read sz 0).sdiv (m.read sz 1) ∧
      m'.read sz 2 = (m.read sz 0).srem (m.read sz 1) ∧ m'.stack = m.stack ∧ Keeps IsPool m m' := by
  obtain ⟨m₁, hm₁⟩ : ∃ m₁, m₁ = m.write sz 2 (if (m.read sz 0).msb then BitVec.allOnes sz.bits else BitVec.ofNat sz.bits 0) := ⟨_, rfl⟩
  have hkeeps₁ : Keeps IsPool m m₁ := by
    rw [hm₁]
    exact (keeps_set m 2 _).mono fun r hr => .inl (by omega)
  have hsign : m₁.read sz 2 = if (m.read sz 0).msb then BitVec.allOnes sz.bits else BitVec.ofNat sz.bits 0 := by
    rw [hm₁]
    exact read_write m 2 _
  have h0 : m₁.read sz 0 = m.read sz 0 := by rw [hm₁]; exact read_other m (by decide) _
  have h1 : m₁.read sz 1 = m.read sz 1 := by rw [hm₁]; exact read_other m (by decide) _
  obtain ⟨m', hrun, hq, hr, hstack, hkeeps⟩ := divided_some m₁ ((m.read sz 0).sdiv (m.read sz 1)) ((m.read sz 0).srem (m.read sz 1))
  refine ⟨m', ?_, hq, hr, hstack.trans (by rw [hm₁]; rfl), hkeeps₁.trans hkeeps⟩
  show (divided (m.write sz 2 _) sz _ >>= run []) = _
  rw [← hm₁, hsign, h0, h1, idivide_sign hne hfits, hrun]
  rfl

/-! ### Powers of two -/

/-- Only `r` is written. -/
structure Writes (r : Nat) (m m' : Machine) : Prop where
  stack : m'.stack = m.stack
  keeps : Keeps (· = r) m m'

theorem Writes.read {r s : Nat} (hw : Writes r m m') (hs : s ≠ r) : m'.read sz s = m.read sz s :=
  congrArg (BitVec.setWidth sz.bits) (hw.keeps.regs s hs)

variable (sz) in
theorem aluRR_step (m : Machine) {op : AluOp} (hop : op ≠ .cmp) (dst src : Nat) : ∃ m', Instr.step m (.aluRR sz op dst src) = some m' ∧
    m'.read sz dst = op.result (m.read sz dst) (m.read sz src) ∧ Writes dst m m' := by
  refine ⟨_, rfl, ?_, ?_⟩ <;> rw [alu, if_neg hop]
  · exact read_write m dst _
  · exact ⟨rfl, (keeps_set m dst _).regs, rfl, rfl⟩

variable (sz) in
theorem aluRI_step (m : Machine) {op : AluOp} (hop : op ≠ .cmp) (dst : Nat) (imm : BitVec 32) : ∃ m', Instr.step m (.aluRI sz op dst imm) = some m' ∧
    m'.read sz dst = op.result (m.read sz dst) (imm.signExtend sz.bits) ∧ Writes dst m m' := by
  refine ⟨_, rfl, ?_, ?_⟩ <;> rw [alu, if_neg hop]
  · exact read_write m dst _
  · exact ⟨rfl, (keeps_set m dst _).regs, rfl, rfl⟩

variable (sz) in
theorem shiftRI_step (m : Machine) (kind : ShiftKind) (dst count : Nat) : ∃ m', Instr.step m (.shiftRI sz kind dst count) = some m' ∧
    m'.read sz dst = kind.result (m.read sz dst) count ∧ Writes dst m m' :=
  ⟨_, rfl, read_write m dst _, rfl, (keeps_set m dst _).regs, rfl, rfl⟩

/-- The mask, in either form. -/
theorem andMask_run (m : Machine) {via : Nat} (hvia : via ≠ dst) {imm : BitVec 32} {mask : BitVec 64} {v : BitVec sz.bits}
    (himm : k < 31 → imm.signExtend sz.bits = v) (hmask : mask.setWidth sz.bits = v) :
    ∃ m', run (andMask sz k dst via imm mask) m = some m' ∧ m'.read sz dst = m.read sz dst &&& v ∧ m'.stack = m.stack ∧
      Keeps (fun r => r = dst ∨ r = via) m m' := by
  rw [andMask]
  by_cases hk : k < 31
  · obtain ⟨m', hstep, hread, hwrites⟩ := aluRI_step sz m (show AluOp.and ≠ .cmp by decide) dst imm
    rw [if_pos hk]
    exact ⟨m', run_cons_of hstep [], hread.trans (by rw [himm hk]; rfl), hwrites.stack, hwrites.keeps.mono fun r hr => .inl hr⟩
  · obtain ⟨m', hstep, hread, hwrites⟩ := aluRR_step sz (m.set via mask) (show AluOp.and ≠ .cmp by decide) dst via
    have hkeeps := keeps_set m via mask
    have hdst : (m.set via mask).read sz dst = m.read sz dst := congrArg (BitVec.setWidth sz.bits) (hkeeps.regs dst hvia.symm)
    have hmask' : (m.set via mask).read sz via = v := (congrArg (BitVec.setWidth sz.bits) (set_regs_self m via mask)).trans hmask
    rw [hdst, hmask'] at hread
    rw [if_neg hk]
    exact ⟨m', run_cons_of hstep [], hread, hwrites.stack, (hkeeps.mono fun r hr => .inr hr).trans (hwrites.keeps.mono fun r hr => .inl hr)⟩

theorem setWidth_twoPow (hk : k < sz.bits) : (1#64 <<< k).setWidth sz.bits = BitVec.twoPow sz.bits k := by
  have hlt : 2 ^ k < 2 ^ sz.bits := Nat.pow_lt_pow_right (by decide) hk
  have hle : 2 ^ sz.bits ≤ 2 ^ 64 := Nat.pow_le_pow_right (by decide) bits_le
  refine BitVec.eq_of_toNat_eq ?_
  rw [← BitVec.twoPow_eq, BitVec.toNat_setWidth, BitVec.toNat_twoPow, BitVec.toNat_twoPow_of_lt hk, Nat.mod_eq_of_lt (hlt.trans_le hle), Nat.mod_eq_of_lt hlt]

theorem ofInt_two_pow (w k : Nat) : BitVec.ofInt w (2 ^ k) = BitVec.twoPow w k := by
  have hcast : (2 : Int) ^ k = ((2 ^ k : Nat) : Int) := by norm_cast
  refine BitVec.eq_of_toNat_eq ?_
  rw [hcast, BitVec.ofInt_natCast, BitVec.toNat_ofNat, BitVec.toNat_twoPow]

theorem signExtend_ofInt {n : Int} (hn : InRange 32 n) (w : Nat) : (BitVec.ofInt 32 n).signExtend w = BitVec.ofInt w n := by
  rw [BitVec.signExtend, toInt_ofInt_of_inRange (by decide) hn]

theorem two_pow_lt (hk : k < 31) : (2 : Int) ^ k < 2 ^ 31 ∧ (1 : Int) ≤ 2 ^ k := by
  constructor
  · exact_mod_cast Nat.pow_lt_pow_right (show 1 < 2 by decide) hk
  · exact_mod_cast Nat.one_le_two_pow

/-- The low bits, as an immediate and as a word. -/
theorem lowBits_imm (hk : k < 31) (w : Nat) : ((1#32 <<< k) - 1#32).signExtend w = BitVec.twoPow w k - 1#w := by
  obtain ⟨hlt, hle⟩ := two_pow_lt hk
  have hneg : ∀ w, BitVec.ofInt w (2 ^ k + -1) = BitVec.twoPow w k - 1#w := fun w => by
    rw [BitVec.ofInt_add, BitVec.ofInt_neg, ofInt_two_pow, BitVec.sub_eq_add_neg]
    rfl
  rw [← BitVec.twoPow_eq, ← hneg, signExtend_ofInt ⟨by omega, by omega⟩, hneg]

theorem lowBits_mask (hk : k < sz.bits) : ((1#64 <<< k) - 1#64).setWidth sz.bits = BitVec.twoPow sz.bits k - BitVec.ofNat sz.bits 1 := by
  have hone : (1#64).setWidth sz.bits = BitVec.ofNat sz.bits 1 := by cases sz <;> rfl
  rw [BitVec.sub_eq_add_neg, BitVec.setWidth_add _ _ bits_le, BitVec.setWidth_neg_of_le bits_le, setWidth_twoPow hk, hone, BitVec.sub_eq_add_neg]

/-- The other bits. -/
theorem highBits_imm (hk : k < 31) (w : Nat) : (0#32 - (1#32 <<< k)).signExtend w = -BitVec.twoPow w k := by
  obtain ⟨hlt, hle⟩ := two_pow_lt hk
  have hneg : ∀ w, BitVec.ofInt w (-2 ^ k) = -BitVec.twoPow w k := fun w => by rw [BitVec.ofInt_neg, ofInt_two_pow]
  rw [BitVec.zero_sub, ← BitVec.twoPow_eq, ← hneg, signExtend_ofInt ⟨by omega, by omega⟩, hneg]

theorem highBits_mask (hk : k < sz.bits) : (0#64 - (1#64 <<< k)).setWidth sz.bits = -BitVec.twoPow sz.bits k := by
  rw [BitVec.zero_sub, BitVec.setWidth_neg_of_le bits_le, setWidth_twoPow hk]

theorem twoPow_ne_zero {w : Nat} (hk : k < w) : BitVec.twoPow w k ≠ 0#w := fun hzero => by
  have hval := congrArg BitVec.toNat hzero
  rw [BitVec.toNat_twoPow_of_lt hk, BitVec.toNat_zero] at hval
  exact absurd hval (Nat.two_pow_pos k).ne'

variable (sz) in
/-- The bias, in `r11`. -/
theorem bias_run (m : Machine) (hdst : dst ≠ 11) (hk : 1 ≤ k) : ∃ m', run [.movRR .b64 11 dst, .shiftRI sz .sar 11 (sz.bits - 1),
      .shiftRI sz .shr 11 (sz.bits - k)] m = some m' ∧
    m'.read sz 11 = ((m.read sz dst).sshiftRight (sz.bits - 1)) >>> (sz.bits - k) ∧ m'.read sz dst = m.read sz dst ∧ Writes 11 m m' := by
  have hbits : 1 < sz.bits := bits_pos
  obtain ⟨m₁, hm₁⟩ : ∃ m₁, m₁ = m.set 11 (m.regs dst) := ⟨_, rfl⟩
  have hwrites₁ : Writes 11 m m₁ := by
    rw [hm₁]
    exact ⟨rfl, keeps_set m 11 _⟩
  have hread₁ : m₁.read sz 11 = m.read sz dst := by
    rw [hm₁]
    exact congrArg (BitVec.setWidth sz.bits) (set_regs_self m 11 _)
  obtain ⟨m₂, hstep₂, hread₂, hwrites₂⟩ := shiftRI_step sz m₁ .sar 11 (sz.bits - 1)
  obtain ⟨m₃, hstep₃, hread₃, hwrites₃⟩ := shiftRI_step sz m₂ .shr 11 (sz.bits - k)
  refine ⟨m₃, ?_, ?_, ?_, hwrites₃.stack.trans (hwrites₂.stack.trans hwrites₁.stack), hwrites₁.keeps.trans (hwrites₂.keeps.trans hwrites₃.keeps)⟩
  · have hstep₁ : Instr.step m (.movRR .b64 11 dst) = some m₁ := by
      rw [hm₁]
      exact congrArg some (write_b64 m 11 dst)
    rw [run_cons_of hstep₁, run_cons_of hstep₂, run_cons_of hstep₃]
    rfl
  · rw [hread₃, hread₂, hread₁, ShiftKind.result, ShiftKind.result, Nat.mod_eq_of_lt (by omega), Nat.mod_eq_of_lt (by omega)]
  · rw [hwrites₃.read hdst, hwrites₂.read hdst, hwrites₁.read hdst]

variable (sz signed rem) in
/-- **The code for a power of two** leaves wasm's result. -/
theorem powerCode_run (m : Machine) (hpool : IsPool dst) (hk : 1 ≤ k) (hlt : k < sz.bits) (hsigned : signed = true → k < sz.bits - 1) :
    ∃ m', run (powerCode sz signed rem k dst) m = some m' ∧
      wasmDivision signed rem (m.read sz dst) (BitVec.twoPow sz.bits k) = some (m'.read sz dst) ∧ m'.stack = m.stack ∧
      Keeps (fun r => r = dst ∨ r = 10 ∨ r = 11) m m' := by
  have hdst : dst ≠ 11 := by rcases hpool with h | h | h <;> omega
  have hne := twoPow_ne_zero hlt
  rw [powerCode]
  cases signed with
  | false =>
    cases rem with
    | false =>
      obtain ⟨m', hstep, hread, hwrites⟩ := shiftRI_step sz m .shr dst k
      refine ⟨m', ?_, ?_, hwrites.stack, hwrites.keeps.mono fun r hr => .inl hr⟩
      · exact run_cons_of hstep []
      · rw [wasmDivision, idivU_eq hne, BitVec.udiv_twoPow_eq_of_lt hlt, hread, ShiftKind.result, Nat.mod_eq_of_lt hlt]
    | true =>
      obtain ⟨m', hrun, hread, hstack, hkeeps⟩ := andMask_run (k := k) m hdst.symm (fun hk => lowBits_imm hk sz.bits) (lowBits_mask hlt)
      refine ⟨m', hrun, ?_, hstack, hkeeps.mono fun r hr => hr.imp_right .inr⟩
      rw [wasmDivision, iremU_eq hne, hread, umod_twoPow hlt]
  | true =>
    have hfits : ¬ (m.read sz dst = BitVec.intMin sz.bits ∧ BitVec.twoPow sz.bits k = -BitVec.ofNat sz.bits 1) := fun h => twoPow_ne (hsigned rfl) h.2
    obtain ⟨m₁, hrun₁, hbias, hsame, hwrites₁⟩ := bias_run sz m hdst hk
    have hkeeps₁ : Keeps (fun r => r = dst ∨ r = 10 ∨ r = 11) m m₁ := hwrites₁.keeps.mono fun r hr => .inr (.inr hr)
    cases rem with
    | false =>
      obtain ⟨m₂, hstep₂, hread₂, hwrites₂⟩ := aluRR_step sz m₁ (show AluOp.add ≠ .cmp by decide) dst 11
      obtain ⟨m₃, hstep₃, hread₃, hwrites₃⟩ := shiftRI_step sz m₂ .sar dst k
      refine ⟨m₃, ?_, ?_, hwrites₃.stack.trans (hwrites₂.stack.trans hwrites₁.stack),
        hkeeps₁.trans ((hwrites₂.keeps.trans hwrites₃.keeps).mono fun r hr => .inl hr)⟩
      · exact (run_append_of hrun₁ _).trans ((run_cons_of hstep₂ _).trans (run_cons_of hstep₃ []))
      · rw [wasmDivision, idivS_eq bits_pos hne, if_neg hfits, hread₃, hread₂, hsame, hbias, ShiftKind.result, AluOp.result, Nat.mod_eq_of_lt hlt,
          sdiv_twoPow (hsigned rfl)]
    | true =>
      obtain ⟨m₂, hstep₂, hread₂, hwrites₂⟩ := aluRR_step sz m₁ (show AluOp.add ≠ .cmp by decide) 11 dst
      obtain ⟨m₃, hrun₃, hread₃, hstack₃, hkeeps₃⟩ := andMask_run (k := k) m₂ (show (10 : Nat) ≠ 11 by decide) (fun hk => highBits_imm hk sz.bits)
        (highBits_mask hlt)
      obtain ⟨m₄, hstep₄, hread₄, hwrites₄⟩ := aluRR_step sz m₃ (show AluOp.sub ≠ .cmp by decide) dst 11
      refine ⟨m₄, ?_, ?_, hwrites₄.stack.trans (hstack₃.trans (hwrites₂.stack.trans hwrites₁.stack)), ?_⟩
      · exact (run_append_of hrun₁ _).trans ((run_cons_of hstep₂ _).trans ((run_append_of hrun₃ _).trans (run_cons_of hstep₄ [])))
      · have hdst₃ : m₃.read sz dst = m.read sz dst := by
          have hten : dst ≠ 10 := by rcases hpool with h | h | h <;> omega
          have hkept : m₃.read sz dst = m₂.read sz dst := congrArg (BitVec.setWidth sz.bits) (hkeeps₃.regs dst (by omega))
          rw [hkept, hwrites₂.read hdst, hsame]
        rw [wasmDivision, iremS_eq hne, hread₄, hread₃, hread₂, hdst₃, hsame, hbias, ← srem_twoPow (hsigned rfl)]
        rfl
      · refine hkeeps₁.trans ((hwrites₂.keeps.mono fun r hr => .inr (.inr hr)).trans ((hkeeps₃.mono fun r hr => ?_).trans (hwrites₄.keeps.mono fun r hr => .inl hr)))
        omega

/-! ### Constants -/

theorem foldl_last (P : Nat → Prop) [DecidablePred P] : ∀ (l : List Nat) (k : Int), l.foldl (fun (k : Int) (i : Nat) => if P i then (i : Int) else k) k = k ∨
    ∃ i ∈ l, P i ∧ l.foldl (fun (k : Int) (i : Nat) => if P i then (i : Int) else k) k = i
  | [], _ => .inl rfl
  | i :: l, k => by
      rw [List.foldl_cons]
      rcases foldl_last P l (if P i then (i : Int) else k) with heq | ⟨j, hj, hp, heq⟩
      · by_cases hp : P i
        · rw [if_pos hp] at heq ⊢
          exact .inr ⟨i, List.mem_cons_self, hp, heq⟩
        · rw [if_neg hp] at heq ⊢
          exact .inl heq
      · exact .inr ⟨j, List.mem_cons_of_mem i hj, hp, heq⟩

theorem narrow_signExtend (c : BitVec sz.bits) : (c.signExtend 64).setWidth sz.bits = c := by
  rw [← BitVec.signExtend_eq_setWidth_of_le _ bits_le, BitVec.signExtend, BitVec.toInt_signExtend_of_le bits_le, BitVec.ofInt_toInt]

theorem log2Exact_eq (c : BitVec sz.bits) : log2Exact sz (c.signExtend 64) =
    (List.range' 1 (sz.bits - 1)).foldl (fun (k : Int) (i : Nat) => if c.setWidth 64 = 1#64 <<< i then (i : Int) else k) (-1) := by
  have hnarrow := narrow_signExtend c
  cases sz with
  | b32 =>
    show (List.range' 1 (Size.b32.bits - 1)).foldl (fun (k : Int) (i : Nat) =>
      if ((c.signExtend 64).setWidth Size.b32.bits).setWidth 64 = 1#64 <<< i then (i : Int) else k) (-1) = _
    rw [hnarrow]
  | b64 =>
    have hsame : c.signExtend 64 = c.setWidth 64 := (BitVec.setWidth_eq _).symm.trans (hnarrow.trans (BitVec.setWidth_eq c).symm)
    rw [log2Exact, hsame]

/-- What `log2_exact` finds. -/
theorem log2Exact_spec (c : BitVec sz.bits) (hpos : 1 ≤ log2Exact sz (c.signExtend 64)) : ∃ k : Nat, log2Exact sz (c.signExtend 64) = k ∧ 1 ≤ k ∧
    k < sz.bits ∧ c = BitVec.twoPow sz.bits k := by
  rw [log2Exact_eq] at hpos ⊢
  rcases foldl_last (fun i => c.setWidth 64 = 1#64 <<< i) (List.range' 1 (sz.bits - 1)) (-1) with heq | ⟨k, hk, hp, heq⟩
  · rw [heq] at hpos
    omega
  · rw [List.mem_range'_1] at hk
    refine ⟨k, heq, hk.1, by omega, ?_⟩
    rw [← setWidth_twoPow (by omega), ← hp, setWidth_widened]

/-- A constant on top is a number of the size. -/
theorem topConst_eq {b : Op} (hb : b.kind = .const32 ∨ b.kind = .const64) (hty : sz = .b64 → b.kind ≠ .const32) :
    topConst sz (V ++ [b]) = ((F.value m b).setWidth sz.bits).signExtend 64 := by
  cases sz with
  | b32 =>
    rw [topConst, List.getLast?_concat, Option.getD_some, Frame.value]
    rcases hb with hb | hb
    · rw [hb]
      have hwiden : ((b.val.setWidth Size.b32.bits).setWidth 64).setWidth Size.b32.bits = b.val.setWidth Size.b32.bits := setWidth_widened _
      exact (congrArg (BitVec.signExtend 64) hwiden).symm
    · rw [hb]
      rfl
  | b64 =>
    rw [topConst, List.getLast?_concat, Option.getD_some, Frame.value, hb.resolve_left (hty rfl)]
    exact ((BitVec.signExtend_eq _).trans (BitVec.setWidth_eq _)).symm

theorem vpop_free (hV : Values V) (hk : (vpop V).1.kind = .reg) : Free (vpop V).2 (vpop V).1.reg := by
  rcases List.eq_nil_or_concat' V with rfl | ⟨V', o, rfl⟩
  · exact fun o ho => absurd ho List.not_mem_nil
  · rw [vpop_concat] at hk ⊢
    intro o' ho' hk'
    exact (List.pairwise_append.mp hV.distinct).2.2 o' ho' o (List.mem_singleton_self o) hk' hk

/-! ### The checked divisions -/

theorem opReg_pushed (hpool : IsPool dst) : (⟨.reg, BitVec.ofNat 64 dst⟩ : Op).reg = dst := by
  have hlt : dst < 2 ^ 32 := by rcases hpool with h | h | h <;> omega
  show ((BitVec.ofNat 64 dst).setWidth 32).toNat = dst
  rw [BitVec.toNat_setWidth, BitVec.toNat_ofNat, Nat.mod_eq_of_lt (show dst < 2 ^ 64 by omega), Nat.mod_eq_of_lt hlt]

theorem values_pushReg (hV : Values V) (hpool : IsPool dst) (hfree : Free V dst) : Values (pushReg V dst) := by
  have hreg := opReg_pushed hpool
  constructor
  · intro o ho
    rcases List.mem_append.mp ho with ho | ho
    · exact hV.placed o ho
    · rw [List.mem_singleton.mp ho, Op.Placed]
      exact hreg.symm ▸ hpool
  · refine List.pairwise_append.mpr ⟨hV.distinct, List.pairwise_singleton _ _, fun o ho o' ho' hk _ => ?_⟩
    rw [List.mem_singleton.mp ho', hreg]
    exact hfree o ho hk

theorem stackValues_pushReg (hpool : IsPool dst) : F.stackValues (pushReg V dst) m = F.stackValues V m ++ [m.regs dst] := by
  rw [pushReg, stackValues_concat]
  exact congrArg (fun r => F.stackValues V m ++ [m.regs r]) (opReg_pushed hpool)

theorem noLocal_work : NoLocal fun r => IsPool r ∨ r = 10 ∨ r = 11 := by
  intro r hr h
  simp only [List.mem_cons, List.not_mem_nil, or_false] at hr
  rcases h with (h | h | h) | h | h <;> omega

/-- A result in a register. -/
theorem computes_of_done (hF : F.Ok) {code : List (Item Reason)} {b v : BitVec sz.bits} (hV : Values V) (hpool : IsPool dst) (hfree : Free V dst)
    (hexec : exec 0 code m = .done m') (hbelow : F.stackValues V m' = below) (hkeeps : Keeps (fun r => IsPool r ∨ r = 10 ∨ r = 11) m m')
    (hresult : m'.read sz dst = v) : Computes F sz m below b (some v) (some (pushReg V dst, code)) :=
  ⟨_, _, rfl, m', m'.regs dst, hexec, by rw [stackValues_pushReg hpool, hbelow], hresult, values_pushReg hV hpool hfree,
    fun i => hkeeps.localValue hF noLocal_work i⟩

variable (sz) in
/-- The operands are in rax and rcx. -/
theorem fixedOperands_run (hF : F.Ok) (hV : Values V) (h : F.stackValues V m = below ++ [x, y]) :
    ∃ code m', fixedOperands F V = ([], code) ∧ run code m = some m' ∧ m'.read sz 0 = x.setWidth sz.bits ∧ m'.read sz 1 = y.setWidth sz.bits ∧
      m'.stack = below.reverse ∧ Keeps (fun r => IsPool r ∨ r = 10 ∨ r = 11) m m' := by
  obtain ⟨m', hrun, hnil, hx, hy, hstack, hkeeps⟩ := popOperands_run hF hV h
  exact ⟨_, m', Prod.ext hnil rfl, hrun, congrArg (BitVec.setWidth sz.bits) hx, congrArg (BitVec.setWidth sz.bits) hy, hstack,
    hkeeps.mono fun r hr => hr.imp_right .inr⟩

theorem computes_fixed (hF : F.Ok) {code : List (Item Reason)} {b v : BitVec sz.bits} (hdst : dst ≤ 2) (hexec : exec 0 code m = .done m')
    (hstack : m'.stack = below.reverse) (hkeeps : Keeps (fun r => IsPool r ∨ r = 10 ∨ r = 11) m m')
    (hresult : m'.read sz dst = v) : Computes F sz m below b (some v) (some (pushReg [] dst, code)) := by
  refine computes_of_done hF ⟨fun o ho => absurd ho List.not_mem_nil, .nil⟩ (.inl hdst) (fun o ho => absurd ho List.not_mem_nil) hexec ?_ hkeeps hresult
  rw [Frame.stackValues, hstack, List.reverse_reverse, List.map_nil, List.append_nil]

theorem exec_run {is : List Instr} (h : run is m = some m') (rest : List (Item Reason)) : exec 0 (items Reason is ++ rest) m = exec 0 rest m' := by
  rw [exec_items, h]

theorem exec_run_end {is : List Instr} (h : run is m = some m') : exec 0 (items Reason is) m = .done m' := by
  have hend := exec_run h []
  rw [List.append_nil] at hend
  exact hend

theorem minusOne : (-1#32).signExtend sz.bits = -BitVec.ofNat sz.bits 1 := by cases sz <;> rfl

theorem keeps_flags (m : Machine) (f : Option Flags) {R : Nat → Prop} : Keeps R m { m with flags := f } := ⟨fun _ _ => rfl, rfl, rfl⟩

variable (sz) in
/-- The test for -1, and a jump over `n` items where it holds, or where it does not. -/
theorem exec_minusOne (n : Nat) (rest : List (Item Reason)) (m : Machine) : ∃ m', m'.stack = m.stack ∧ m'.regs = m.regs ∧ Keeps (fun _ => False) m m' ∧
    exec 0 (.instr (.aluRI sz .cmp 1 (-1#32)) :: .jcc 4 n :: rest) m = exec (if m.read sz 1 = -BitVec.ofNat sz.bits 1 then n else 0) rest m' ∧
    exec 0 (.instr (.aluRI sz .cmp 1 (-1#32)) :: .jcc 5 n :: rest) m = exec (if m.read sz 1 = -BitVec.ofNat sz.bits 1 then 0 else n) rest m' := by
  have hholds := cmp_holds (m.read sz 1) (-BitVec.ofNat sz.bits 1)
  refine ⟨{ m with flags := some (AluOp.cmp.flags (m.read sz 1) (-BitVec.ofNat sz.bits 1)) }, rfl, rfl, ⟨fun _ _ => rfl, rfl, rfl⟩, ?_, ?_⟩
  · rw [exec_instr rfl]
    show exec (if (AluOp.cmp.flags (m.read sz 1) ((-1#32).signExtend sz.bits)).holds 4 then n else 0) rest
      { m with flags := some (AluOp.cmp.flags (m.read sz 1) ((-1#32).signExtend sz.bits)) } = _
    rw [minusOne, hholds]
    simp only [decide_eq_true_eq]
  · rw [exec_instr rfl]
    show exec (if !(AluOp.cmp.flags (m.read sz 1) ((-1#32).signExtend sz.bits)).holds 4 then n else 0) rest
      { m with flags := some (AluOp.cmp.flags (m.read sz 1) ((-1#32).signExtend sz.bits)) } = _
    rw [minusOne, hholds]
    by_cases heq : m.read sz 1 = -BitVec.ofNat sz.bits 1
    · rw [if_pos heq, decide_eq_true heq]
      rfl
    · rw [if_neg heq, decide_eq_false heq]
      rfl

/-- What was computed with the operands at hand, when the divisor is not zero. -/
theorem computes_checked (hF : F.Ok) (hV : Values V) (h : F.stackValues V m = below ++ [x, y]) {rest : List (Item Reason)}
    {result : Option (BitVec sz.bits)} (hdst : dst ≤ 2) (hzero : y.setWidth sz.bits = BitVec.ofNat sz.bits 0 → result = none)
    (hrest : ∀ m₁, m₁.read sz 0 = x.setWidth sz.bits → m₁.read sz 1 = y.setWidth sz.bits → y.setWidth sz.bits ≠ BitVec.ofNat sz.bits 0 →
      match result with
      | none => exec 0 rest m₁ = .trap .overflow
      | some v => ∃ m', exec 0 rest m₁ = .done m' ∧ m'.read sz dst = v ∧ m'.stack = m₁.stack ∧ Keeps (fun r => IsPool r ∨ r = 10 ∨ r = 11) m₁ m') :
    Computes F sz m below (y.setWidth sz.bits) result (some (pushReg (fixedOperands F V).1 dst,
      items Reason (fixedOperands F V).2 ++ (.instr (.testRR sz 1 1) :: (trapIf 4 .divZero ++ rest)))) := by
  obtain ⟨code, m₁, hcode, hrun, hx, hy, hstack, hkeeps⟩ := fixedOperands_run sz hF hV h
  rw [hcode]
  by_cases hb : y.setWidth sz.bits = BitVec.ofNat sz.bits 0
  · rw [hzero hb]
    refine ⟨_, _, rfl, ?_⟩
    dsimp only
    rw [exec_run hrun, exec_zeroCheck, hy, if_pos hb, if_pos hb]
  · have hchecked : exec 0 (items Reason code ++ (.instr (.testRR sz 1 1) :: (trapIf 4 .divZero ++ rest))) m =
        exec 0 rest { m₁ with flags := some (AluOp.and.flags (m₁.read sz 1) (m₁.read sz 1)) } := by
      rw [exec_run hrun, exec_zeroCheck, hy, if_neg hb]
    have hrest := hrest { m₁ with flags := some (AluOp.and.flags (m₁.read sz 1) (m₁.read sz 1)) } hx hy hb
    cases result with
    | none =>
      refine ⟨_, _, rfl, ?_⟩
      dsimp only
      rw [hchecked, if_neg hb]
      exact hrest
    | some v =>
      obtain ⟨m', hexec, hv, hstack', hkeeps'⟩ := hrest
      exact computes_fixed hF hdst (hchecked.trans hexec) (hstack'.trans hstack) ((hkeeps.trans (keeps_flags m₁ _)).trans hkeeps') hv

variable (hF : F.Ok) (hV : Values V) (h : F.stackValues V m = below ++ [x, y])

include hF hV h

/-- **div_s**: the least number over -1 traps. -/
theorem divS_computes : Computes F sz m below (y.setWidth sz.bits) (idivS (x.setWidth sz.bits) (y.setWidth sz.bits)) (divS F sz V) := by
  refine computes_checked hF hV h (by decide) (fun hb => by rw [idivS, hb]; rfl) fun m₁ hx hy hb => ?_
  obtain ⟨m₂, hstack₂, hregs₂, hkeeps₂, -, hexec₂⟩ := exec_minusOne sz (minCheck sz).length (minCheck sz ++ items Reason [.signRdx sz, .idivR sz 1]) m₁
  have hread₂ : ∀ r, m₂.read sz r = m₁.read sz r := fun r => congrArg (fun regs : Nat → BitVec 64 => (regs r).setWidth sz.bits) hregs₂
  rw [idivS_eq bits_pos hb, hexec₂, hy]
  have hdivide : ∀ m₃, m₃.stack = m₂.stack → Keeps (· = 11) m₂ m₃ → ¬ (x.setWidth sz.bits = BitVec.intMin sz.bits ∧ y.setWidth sz.bits = -BitVec.ofNat sz.bits 1) →
      ∃ m', exec 0 (items Reason [.signRdx sz, .idivR sz 1]) m₃ = .done m' ∧ m'.read sz 0 = (x.setWidth sz.bits).sdiv (y.setWidth sz.bits) ∧
        m'.stack = m₁.stack ∧ Keeps (fun r => IsPool r ∨ r = 10 ∨ r = 11) m₁ m' := by
    intro m₃ hstack₃ hkeeps₃ hfits
    have hread₃ : ∀ r, r ≠ 11 → m₃.read sz r = m₁.read sz r := fun r hr =>
      (congrArg (BitVec.setWidth sz.bits) (hkeeps₃.regs r hr)).trans (hread₂ r)
    have h0 := hread₃ 0 (by decide)
    have h1 := hread₃ 1 (by decide)
    rw [hx] at h0
    rw [hy] at h1
    obtain ⟨m', hrun, hq, -, hstack', hkeeps'⟩ := signed_run (by rw [h1]; exact hb) (by rw [h0, h1]; exact hfits)
    rw [h0, h1] at hq
    refine ⟨m', exec_run_end hrun, hq, hstack'.trans (hstack₃.trans hstack₂), ?_⟩
    exact ((hkeeps₂.mono fun r hr => hr.elim).trans (hkeeps₃.mono fun r hr => .inr (.inr hr))).trans (hkeeps'.mono fun r hr => .inl hr)
  by_cases hminus : y.setWidth sz.bits = -BitVec.ofNat sz.bits 1
  · rw [if_pos hminus]
    obtain ⟨m₃, hstack₃, hkeeps₃, hexec₃⟩ := exec_minCheck sz (items Reason [.signRdx sz, .idivR sz 1]) m₂
    rw [hread₂, hx] at hexec₃
    by_cases hmin : x.setWidth sz.bits = BitVec.intMin sz.bits
    · rw [if_pos ⟨hmin, hminus⟩]
      dsimp only
      rw [hexec₃, if_pos hmin]
    · rw [if_neg fun hboth => hmin hboth.1]
      dsimp only
      rw [hexec₃, if_neg hmin]
      exact hdivide m₃ hstack₃ hkeeps₃ fun hboth => hmin hboth.1
  · rw [if_neg hminus, if_neg fun hboth => hminus hboth.2]
    dsimp only
    rw [exec_skip]
    exact hdivide m₂ rfl (.refl m₂) fun hboth => hminus hboth.2

/-- **rem_s**: by -1 it is 0, without a division. -/
theorem remS_computes : Computes F sz m below (y.setWidth sz.bits) (iremS (x.setWidth sz.bits) (y.setWidth sz.bits)) (remS F sz V) := by
  refine computes_checked hF hV h (by decide) (fun hb => by rw [iremS, hb]; rfl) fun m₁ hx hy hb => ?_
  obtain ⟨m₂, hstep, hzero, hread₂, hstack₂, hkeeps₂⟩ := clearRdx_step sz m₁
  obtain ⟨m₃, hstack₃, hregs₃, hkeeps₃, hexec₃, -⟩ := exec_minusOne sz 2 (items Reason [.signRdx sz, .idivR sz 1]) m₂
  have hread₃ : ∀ r, m₃.read sz r = m₂.read sz r := fun r => congrArg (fun regs : Nat → BitVec 64 => (regs r).setWidth sz.bits) hregs₃
  have h0 : m₃.read sz 0 = x.setWidth sz.bits := by rw [hread₃, hread₂ 0 (by decide), hx]
  have h1 : m₃.read sz 1 = y.setWidth sz.bits := by rw [hread₃, hread₂ 1 (by decide), hy]
  have hkeeps : Keeps IsPool m₁ m₃ := hkeeps₂.trans (hkeeps₃.mono fun r hr => hr.elim)
  rw [iremS_eq hb, exec_instr hstep, hexec₃, ← hread₃, h1]
  by_cases hminus : y.setWidth sz.bits = -BitVec.ofNat sz.bits 1
  · rw [if_pos hminus]
    refine ⟨m₃, rfl, ?_, hstack₃.trans hstack₂, hkeeps.mono fun r hr => .inl hr⟩
    rw [hread₃, hzero, hminus]
    refine (BitVec.eq_of_toInt_eq ?_).symm
    have hneg : (-BitVec.ofNat sz.bits 1).toInt = -1 := by
      rw [BitVec.neg_one_eq_allOnes, BitVec.toInt_allOnes, if_pos (Nat.zero_lt_of_lt bits_pos)]
    rw [BitVec.toInt_srem, hneg, Int.tmod_neg, Int.tmod_one, BitVec.toInt_zero]
  · rw [if_neg hminus]
    obtain ⟨m', hrun, -, hr, hstack', hkeeps'⟩ := signed_run (by rw [h1]; exact hb) (by rw [h0, h1]; exact fun hboth => hminus hboth.2)
    rw [h0, h1] at hr
    exact ⟨m', exec_run_end hrun, hr, hstack'.trans (hstack₃.trans hstack₂), (hkeeps.trans hkeeps').mono fun r hr => .inl hr⟩

/-- **div_u, rem_u.** -/
theorem divRemU_computes : Computes F sz m below (y.setWidth sz.bits) (wasmDivision false rem (x.setWidth sz.bits) (y.setWidth sz.bits)) (divRemU F sz rem V) := by
  refine computes_checked hF hV h (by split <;> decide) (fun hb => by cases rem <;> rw [wasmDivision, hb] <;> rfl) fun m₁ hx hy hb => ?_
  obtain ⟨m', hrun, hq, hr, hstack, hkeeps⟩ := unsigned_run (show m₁.read sz 1 ≠ BitVec.ofNat sz.bits 0 by rw [hy]; exact hb)
  rw [hx, hy] at hq hr
  cases rem with
  | false =>
    rw [wasmDivision, idivU_eq hb]
    exact ⟨m', exec_run_end hrun, hq, hstack, hkeeps.mono fun r hr => .inl hr⟩
  | true =>
    rw [wasmDivision, iremU_eq hb]
    exact ⟨m', exec_run_end hrun, hr, hstack, hkeeps.mono fun r hr => .inl hr⟩

/-- **By a power of two.** -/
theorem divideByPower_computes {b : Op} (hb : b.kind = .const32 ∨ b.kind = .const64) (hlast : V.getLast? = some b) (hk : 1 ≤ k) (hlt : k < sz.bits)
    (hsigned : signed = true → k < sz.bits - 1) (hy : y.setWidth sz.bits = BitVec.twoPow sz.bits k) :
    Computes F sz m below (y.setWidth sz.bits) (wasmDivision signed rem (x.setWidth sz.bits) (y.setWidth sz.bits)) (divideByPower F sz signed rem k V) := by
  obtain ⟨W, rfl⟩ := List.getLast?_eq_some_iff.mp hlast
  have hW := hV.sublist (List.sublist_append_left W [b])
  have hvalues : F.stackValues W m = below ++ [x] := by
    rw [stackValues_concat] at h
    have hsplit : below ++ [x, y] = below ++ [x] ++ [y] := by rw [List.append_assoc, List.singleton_append]
    exact (List.append_inj' (h.trans hsplit) rfl).1
  obtain ⟨dst, b', V', code, m₁, hoperands, hpool, hfree, hV', hrun₁, hx, hbelow, hkeeps₁⟩ :=
    operands_run sz hF (values_vpop hW) hb (vpop_taken hW hvalues) (vpop_free hW)
  obtain ⟨m₂, hrun₂, hresult, hstack₂, hkeeps₂⟩ := powerCode_run sz signed rem m₁ hpool hk hlt hsigned
  have hread : m₁.read sz dst = x.setWidth sz.bits := congrArg (BitVec.setWidth sz.bits) hx
  rw [hread, ← hy] at hresult
  have hbelow₂ : F.stackValues V' m₂ = below := by
    rw [hkeeps₂.stackValues hstack₂ hF (fun r hr hor => noLocal_work r hr (hor.imp_left fun heq : r = dst => heq ▸ hpool)) fun o ho hk hor => ?_, hbelow]
    have hplaced := hV'.placed o ho
    rw [Op.Placed, hk] at hplaced
    have hdst := hfree o ho hk
    rcases hplaced with h | h | h <;> omega
  rw [hresult, divideByPower, vpop_concat]
  dsimp only
  rw [hoperands]
  refine computes_of_done hF hV' hpool hfree (exec_run_end ((run_append_of hrun₁ _).trans hrun₂)) hbelow₂ ?_ rfl
  exact (hkeeps₁.mono fun r hr => hr.imp_right .inr).trans (hkeeps₂.mono fun r hr => hr.imp_left fun heq : r = dst => heq ▸ hpool)

/-- **By a constant** other than 0 and -1. -/
theorem divideByConst_computes {b : Op} (hb : b.kind = .const32 ∨ b.kind = .const64) (hlast : V.getLast? = some b) (hty : sz = .b64 → b.kind ≠ .const32)
    (hsafe : safeDivisor sz V = true) :
    Computes F sz m below (y.setWidth sz.bits) (wasmDivision signed rem (x.setWidth sz.bits) (y.setWidth sz.bits)) (divideByConst F sz signed rem V) := by
  obtain ⟨W, hWb⟩ := List.getLast?_eq_some_iff.mp hlast
  have htop : topConst sz V = (y.setWidth sz.bits).signExtend 64 := by
    have hvalue : F.value m b = y := by
      rw [hWb, stackValues_concat] at h
      have hsplit : below ++ [x, y] = below ++ [x] ++ [y] := by rw [List.append_assoc, List.singleton_append]
      exact List.head_eq_of_cons_eq (List.append_inj' (h.trans hsplit) rfl).2
    rw [hWb, topConst_eq (m := m) (F := F) hb hty, hvalue]
  obtain ⟨hzero, hminus⟩ : y.setWidth sz.bits ≠ BitVec.ofNat sz.bits 0 ∧ y.setWidth sz.bits ≠ -BitVec.ofNat sz.bits 1 := by
    rw [safeDivisor, htop] at hsafe
    simp only [Bool.and_eq_true, bne_iff_ne] at hsafe
    refine ⟨fun heq => hsafe.1.2 ?_, fun heq => hsafe.2 ?_⟩ <;> rw [heq] <;> cases sz <;> rfl
  rw [divideByConst, htop]
  dsimp only
  by_cases hpower : 1 ≤ log2Exact sz ((y.setWidth sz.bits).signExtend 64) ∧ (signed = false ∨ 0 < ((y.setWidth sz.bits).signExtend 64).toInt)
  · obtain ⟨k, hlog, hk, hlt, hc⟩ := log2Exact_spec (y.setWidth sz.bits) hpower.1
    rw [if_pos hpower, hlog, Int.toNat_natCast]
    refine divideByPower_computes hF hV h hb hlast hk hlt (fun hsigned => ?_) hc
    have hpos := hpower.2.resolve_left (by rw [hsigned]; decide)
    by_contra hlast
    rw [BitVec.toInt_signExtend_of_le bits_le, hc, BitVec.toInt_twoPow, if_neg (by omega), if_pos (by omega)] at hpos
    have hnonneg : (0 : Int) ≤ ((2 ^ k : Nat) : Int) := Int.natCast_nonneg _
    push_cast at hpos hnonneg
    omega
  · obtain ⟨code, m₁, hcode, hrun₁, hx, hy, hstack₁, hkeeps₁⟩ := fixedOperands_run sz hF hV h
    have hne : m₁.read sz 1 ≠ BitVec.ofNat sz.bits 0 := by rwa [hy]
    have hfits : ¬ (m₁.read sz 0 = BitVec.intMin sz.bits ∧ m₁.read sz 1 = -BitVec.ofNat sz.bits 1) := fun hboth => hminus (hy ▸ hboth.2)
    rw [if_neg hpower, hcode]
    dsimp only
    have hdone : ∀ {is : List Instr} {m₂ : Machine} {v : BitVec sz.bits} {dst : Nat}, run is m₁ = some m₂ → dst ≤ 2 → m₂.read sz dst = v →
        m₂.stack = m₁.stack → Keeps IsPool m₁ m₂ → Computes F sz m below (y.setWidth sz.bits) (some v) (some (pushReg [] dst, items Reason (code ++ is))) :=
      fun hrun₂ hdst hread hstack₂ hkeeps₂ => computes_fixed hF hdst (exec_run_end ((run_append_of hrun₁ _).trans hrun₂)) (hstack₂.trans hstack₁)
        (hkeeps₁.trans (hkeeps₂.mono fun r hr => .inl hr)) hread
    cases signed with
    | false =>
      obtain ⟨m₂, hrun₂, hq, hr, hstack₂, hkeeps₂⟩ := unsigned_run hne
      rw [hx, hy] at hq hr
      cases rem with
      | false =>
        rw [wasmDivision, idivU_eq hzero]
        exact hdone hrun₂ (by decide) hq hstack₂ hkeeps₂
      | true =>
        rw [wasmDivision, iremU_eq hzero]
        exact hdone hrun₂ (by decide) hr hstack₂ hkeeps₂
    | true =>
      obtain ⟨m₂, hrun₂, hq, hr, hstack₂, hkeeps₂⟩ := signed_run hne hfits
      rw [hx, hy] at hq hr
      cases rem with
      | false =>
        rw [wasmDivision, idivS_eq bits_pos hzero, if_neg fun hboth => hminus hboth.2]
        exact hdone hrun₂ (by decide) hq hstack₂ hkeeps₂
      | true =>
        rw [wasmDivision, iremS_eq hzero]
        exact hdone hrun₂ (by decide) hr hstack₂ hkeeps₂

omit hF hV h in
/-- What each opcode does. -/
theorem intOp_opcode (sz : Size) (signed rem : Bool) : intOp F sz (opcode sz signed rem) V =
    if safeDivisor sz V then divideByConst F sz signed rem V
    else if signed then (if rem then remS F sz V else divS F sz V)
    else divRemU F sz rem V := by
  cases sz <;> cases signed <;> cases rem <;> simp [intOp, i32Op, i64Op, opcode]

/-- **Division is wasm's**: for i32s and i64s, whatever the operands are and wherever they are, the code leaves wasm's
result, or traps where wasm does; it has no fault. -/
theorem division_exact (hty : sz = .b64 → ∀ o, V.getLast? = some o → o.kind ≠ .const32) :
    Computes F sz m below (y.setWidth sz.bits) (wasmDivision signed rem (x.setWidth sz.bits) (y.setWidth sz.bits))
      (intOp F sz (opcode sz signed rem) V) := by
  have hconst : safeDivisor sz V = true → Computes F sz m below (y.setWidth sz.bits)
      (wasmDivision signed rem (x.setWidth sz.bits) (y.setWidth sz.bits)) (divideByConst F sz signed rem V) := fun hsafe => by
    cases hlast : V.getLast? with
    | none =>
      rw [safeDivisor, topIsConst, hlast] at hsafe
      exact absurd hsafe Bool.false_ne_true
    | some b =>
      have hkind : b.kind = .const32 ∨ b.kind = .const64 := by
        rw [safeDivisor, topIsConst, hlast] at hsafe
        simp only [Bool.and_eq_true, Bool.or_eq_true, decide_eq_true_eq] at hsafe
        exact hsafe.1.1
      exact divideByConst_computes hF hV h hkind hlast (fun hsz => hty hsz b hlast) hsafe
  rw [intOp_opcode]
  by_cases hsafe : safeDivisor sz V = true
  · rw [if_pos hsafe]
    exact hconst hsafe
  · rw [if_neg hsafe]
    cases signed with
    | false => exact divRemU_computes hF hV h
    | true =>
      cases rem with
      | false => exact divS_computes hF hV h
      | true => exact remS_computes hF hV h

omit hF hV h in
/-- The least i64 over -1, with the divisor in a register, traps. -/
theorem min_over_minusOne : Computes ⟨0, true, fun _ => -1, fun _ => -1⟩ .b64 ⟨fun _ => -1#64, fun _ => 0#64, none, [], fun _ => 0#64⟩ [] (-1#64) none
    (intOp ⟨0, true, fun _ => -1, fun _ => -1⟩ .b64 (opcode .b64 true false) [⟨.const64, 0x8000000000000000#64⟩, ⟨.reg, 6⟩]) := by
  have hV : Values [⟨.const64, 0x8000000000000000#64⟩, ⟨.reg, 6⟩] := by
    refine ⟨fun o ho => ?_, by decide⟩
    simp only [List.mem_cons, List.not_mem_nil, or_false] at ho
    rcases ho with rfl | rfl
    · trivial
    · exact .inr (.inl rfl)
  have hexact : Computes ⟨0, true, fun _ => -1, fun _ => -1⟩ .b64 ⟨fun _ => -1#64, fun _ => 0#64, none, [], fun _ => 0#64⟩ []
      ((-1#64).setWidth Size.b64.bits) (wasmDivision true false ((0x8000000000000000#64).setWidth Size.b64.bits) ((-1#64).setWidth Size.b64.bits))
      (intOp ⟨0, true, fun _ => -1, fun _ => -1⟩ .b64 (opcode .b64 true false) [⟨.const64, 0x8000000000000000#64⟩, ⟨.reg, 6⟩]) :=
    division_exact ⟨fun i => .inl (show (-1 : Int) < 0 by decide)⟩ hV rfl fun _ o ho => by
      obtain rfl := Option.some.inj ho
      decide
  have htraps : wasmDivision true false ((0x8000000000000000#64).setWidth Size.b64.bits) ((-1#64).setWidth Size.b64.bits) = none := by decide
  rw [htraps] at hexact
  exact hexact

end Aipl.Native.Lower
