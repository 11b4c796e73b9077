import Mathlib.Data.BitVec
import Mathlib.Logic.Function.Basic

/-! # Library — x86-64, a subset

Straight-line integer instructions, and jumps forward over some of them.  A machine has its registers by number,
the flags, what has been pushed, and the slots of the frame by their displacement.  Flags that an instruction
leaves undefined are absent, and reading them is a fault, as a division's is.

* `Instr.step`, `run` — instructions; `exec` — programs, which may trap.
* `run_append`, `exec_items` — programs one after another.
* `divide_zero`, `idivide_sign` — the divisions that do not fault.
-/

namespace Aipl.Lib.X64

inductive Size where
  | b32
  | b64
deriving DecidableEq

def Size.bits : Size → Nat
  | .b32 => 32
  | .b64 => 64

structure Flags where
  of : Bool
  cf : Bool
  zf : Bool
  sf : Bool
  pf : Bool

/-- The conditions, by their codes; an odd one is the opposite of the one below it. -/
def Flags.holds (f : Flags) (cc : Nat) : Bool :=
  let c := match cc / 2 % 8 with
    | 0 => f.of
    | 1 => f.cf
    | 2 => f.zf
    | 3 => f.cf || f.zf
    | 4 => f.sf
    | 5 => f.pf
    | 6 => f.sf != f.of
    | _ => f.zf || f.sf != f.of
  if cc % 2 = 1 then !c else c

inductive AluOp where
  | add
  | or
  | and
  | sub
  | xor
  | cmp
deriving DecidableEq

inductive ShiftKind where
  | shl
  | shr
  | sar
deriving DecidableEq

structure Machine where
  regs : Nat → BitVec 64
  xmm : Nat → BitVec 64
  flags : Option Flags
  stack : List (BitVec 64)
  slots : Int → BitVec 64

/-- The displacement of `load` is from the frame's base. -/
inductive Instr where
  | push (r : Nat)
  | pop (r : Nat)
  | movRR (sz : Size) (dst src : Nat)
  | movRI32 (dst : Nat) (imm : BitVec 32)
  | movRI64 (dst : Nat) (imm : BitVec 64)
  | movqRX (dst xmm : Nat)
  | load (dst : Nat) (disp : Int)
  | setcc (cc dst : Nat)
  | movzx8 (dst src : Nat)
  | aluRR (sz : Size) (op : AluOp) (dst src : Nat)
  | aluRI (sz : Size) (op : AluOp) (dst : Nat) (imm : BitVec 32)
  | testRR (sz : Size) (a b : Nat)
  | shiftRI (sz : Size) (kind : ShiftKind) (dst count : Nat)
  /-- `cdq` and `cqo`. -/
  | signRdx (sz : Size)
  | divR (sz : Size) (src : Nat)
  | idivR (sz : Size) (src : Nat)

namespace Machine

variable (m : Machine)

def read (sz : Size) (r : Nat) : BitVec sz.bits := (m.regs r).setWidth sz.bits

def set (r : Nat) (v : BitVec 64) : Machine := { m with regs := Function.update m.regs r v }

/-- A write of 32 bits clears the upper half. -/
def write (sz : Size) (r : Nat) (v : BitVec sz.bits) : Machine := m.set r (v.setWidth 64)

end Machine

section Alu

variable {w : Nat} (x y : BitVec w)

/-- The flags of a result. -/
def resultFlags (r : BitVec w) (of cf : Bool) : Flags where
  of := of
  cf := cf
  zf := decide (r = 0#w)
  sf := r.msb
  pf := decide ((List.range 8).countP (fun i => r.getLsbD i) % 2 = 0)

def AluOp.result : AluOp → BitVec w
  | .add => x + y
  | .or => x ||| y
  | .and => x &&& y
  | .sub => x - y
  | .xor => x ^^^ y
  | .cmp => x - y

def AluOp.flags (op : AluOp) : Flags :=
  match op with
  | .add => resultFlags (x + y) (x.saddOverflow y) (x.uaddOverflow y)
  | .sub | .cmp => resultFlags (x - y) (x.ssubOverflow y) (x.usubOverflow y)
  | .or => resultFlags (x ||| y) false false
  | .and => resultFlags (x &&& y) false false
  | .xor => resultFlags (x ^^^ y) false false

def ShiftKind.result (kind : ShiftKind) (count : Nat) : BitVec w :=
  match kind with
  | .shl => x <<< (count % w)
  | .shr => x >>> (count % w)
  | .sar => x.sshiftRight (count % w)

/-- `div` of `hi:lo`: the quotient and the remainder, when the quotient fits. -/
def divide (hi lo d : BitVec w) : Option (BitVec w × BitVec w) :=
  let n := hi.toNat * 2 ^ w + lo.toNat
  if d.toNat = 0 ∨ 2 ^ w ≤ n / d.toNat then none
  else some (BitVec.ofNat w (n / d.toNat), BitVec.ofNat w (n % d.toNat))

/-- `idiv`, which rounds toward zero. -/
def idivide (hi lo d : BitVec w) : Option (BitVec w × BitVec w) :=
  let n := hi.toInt * 2 ^ w + lo.toNat
  let q := n.tdiv d.toInt
  if d.toInt = 0 ∨ q < -2 ^ (w - 1) ∨ 2 ^ (w - 1) ≤ q then none
  else some (BitVec.ofInt w q, BitVec.ofInt w (n.tmod d.toInt))

end Alu

/-- An ALU instruction's result and flags; `cmp` writes none. -/
def alu (m : Machine) (sz : Size) (op : AluOp) (dst : Nat) (y : BitVec sz.bits) : Machine :=
  let x := m.read sz dst
  let m := if op = .cmp then m else m.write sz dst (op.result x y)
  { m with flags := some (op.flags x y) }

/-- A division's results go to `rax` (0) and `rdx` (2). -/
def divided (m : Machine) (sz : Size) : Option (BitVec sz.bits × BitVec sz.bits) → Option Machine
  | none => none
  | some (q, r) => some { (m.write sz 0 q).write sz 2 r with flags := none }

/-- A step; `none` is a fault. -/
def Instr.step (m : Machine) : Instr → Option Machine
  | push r => some { m with stack := m.regs r :: m.stack }
  | pop r => match m.stack with
    | [] => none
    | v :: stack => some { m.set r v with stack := stack }
  | movRR sz dst src => some (m.write sz dst (m.read sz src))
  | movRI32 dst imm => some (m.set dst (imm.setWidth 64))
  | movRI64 dst imm => some (m.set dst imm)
  | movqRX dst x => some (m.set dst (m.xmm x))
  | load dst disp => some (m.set dst (m.slots disp))
  | setcc cc dst => m.flags.map fun f =>
      m.set dst ((m.regs dst &&& ~~~0xff#64) ||| (if f.holds cc then 1#64 else 0#64))
  | movzx8 dst src => some (m.set dst (m.regs src &&& 0xff#64))
  | aluRR sz op dst src => some (alu m sz op dst (m.read sz src))
  | aluRI sz op dst imm => some (alu m sz op dst (imm.signExtend sz.bits))
  | testRR sz a b => some { m with flags := some (AluOp.and.flags (m.read sz a) (m.read sz b)) }
  | shiftRI sz kind dst count => some { m.write sz dst (kind.result (m.read sz dst) count) with flags := none }
  | signRdx sz => some (m.write sz 2 (if (m.read sz 0).msb then BitVec.allOnes sz.bits else BitVec.ofNat sz.bits 0))
  | divR sz src => divided m sz (divide (m.read sz 2) (m.read sz 0) (m.read sz src))
  | idivR sz src => divided m sz (idivide (m.read sz 2) (m.read sz 0) (m.read sz src))

def run : List Instr → Machine → Option Machine
  | [], m => some m
  | i :: is, m => i.step m >>= run is

theorem run_append (is js : List Instr) (m : Machine) : run (is ++ js) m = run is m >>= run js := by
  induction is generalizing m with
  | nil => rfl
  | cons i is ih =>
    rw [List.cons_append, run, run]
    cases i.step m with
    | none => rfl
    | some m' => exact ih m'

theorem run_cons_of {i : Instr} {m m' : Machine} (h : i.step m = some m') (is : List Instr) : run (i :: is) m = run is m' := by
  rw [run, h]
  rfl

theorem run_append_of {is : List Instr} {m m' : Machine} (h : run is m = some m') (js : List Instr) : run (is ++ js) m = run js m' := by
  rw [run_append, h]
  rfl

/-! ### Programs -/

/-- An instruction, a jump over the next `n`, or a trap. -/
inductive Item (R : Type) where
  | instr (i : Instr)
  | jcc (cc n : Nat)
  | trap (reason : R)

inductive Exit (R : Type) where
  | done (m : Machine)
  | trap (reason : R)
  | fault

/-- `skip` items are jumped over first. -/
def exec {R : Type} : Nat → List (Item R) → Machine → Exit R
  | _, [], m => .done m
  | skip + 1, _ :: is, m => exec skip is m
  | 0, .instr i :: is, m => match i.step m with
    | none => .fault
    | some m => exec 0 is m
  | 0, .jcc cc n :: is, m => match m.flags with
    | none => .fault
    | some f => exec (if f.holds cc then n else 0) is m
  | 0, .trap reason :: _, _ => .trap reason

/-- Instructions, as a program. -/
def items (R : Type) (is : List Instr) : List (Item R) := is.map .instr

theorem exec_items {R : Type} (is : List Instr) (rest : List (Item R)) (m : Machine) : exec 0 (items R is ++ rest) m =
    match run is m with
    | none => .fault
    | some m => exec 0 rest m := by
  induction is generalizing m with
  | nil => rfl
  | cons i is ih =>
    rw [items, List.map_cons, List.cons_append, exec, run]
    cases i.step m with
    | none => rfl
    | some m' => exact ih m'

theorem exec_skip {R : Type} (is rest : List (Item R)) (m : Machine) : exec is.length (is ++ rest) m = exec 0 rest m := by
  induction is with
  | nil => rfl
  | cons i is ih =>
    rw [List.length_cons, List.cons_append, exec]
    exact ih

theorem exec_instr {R : Type} {i : Instr} {m m' : Machine} (h : i.step m = some m') (rest : List (Item R)) :
    exec 0 (.instr i :: rest) m = exec 0 rest m' := by
  rw [exec, h]

/-- The code of the opposite condition. -/
theorem holds_xor_one (f : Flags) : ∀ cc < 16, f.holds (cc ^^^ 1) = !f.holds cc := by
  obtain ⟨of, cf, zf, sf, pf⟩ := f
  revert of cf zf sf pf
  decide

/-! ### Division -/

section Division

variable {w : Nat} {lo d : BitVec w}

/-- `div` with nothing in the upper half. -/
theorem divide_zero (hd : d ≠ 0#w) : divide 0#w lo d = some (lo / d, lo % d) := by
  have hne : d.toNat ≠ 0 := fun h => hd (BitVec.eq_of_toNat_eq h)
  have hfits : lo.toNat / d.toNat < 2 ^ w := (Nat.div_le_self _ _).trans_lt lo.isLt
  rw [divide, BitVec.toNat_zero, Nat.zero_mul, Nat.zero_add]
  rw [if_neg (not_or.mpr ⟨hne, Nat.not_le.mpr hfits⟩), ← BitVec.toNat_udiv, ← BitVec.toNat_umod, BitVec.ofNat_toNat, BitVec.ofNat_toNat,
    BitVec.setWidth_eq, BitVec.setWidth_eq]

theorem toInt_sign (lo : BitVec w) : (if lo.msb then BitVec.allOnes w else 0#w).toInt * 2 ^ w + lo.toNat = lo.toInt := by
  rw [BitVec.toInt_eq_msb_cond (x := lo)]
  cases hmsb : lo.msb with
  | false => simp
  | true =>
    have hw : 0 < w := by
      rcases Nat.eq_zero_or_pos w with rfl | hw
      · rw [BitVec.of_length_zero (x := lo)] at hmsb
        exact absurd hmsb (by decide)
      · exact hw
    rw [if_pos rfl, if_pos rfl, BitVec.toInt_allOnes, if_pos hw]
    push_cast
    omega

/-- `idiv` of a number whose sign fills the upper half: a fault where the quotient does not exist or fit. -/
theorem idivide_sign (hd : d ≠ 0#w) (hfits : ¬ (lo = BitVec.intMin w ∧ d = -1#w)) :
    idivide (if lo.msb then BitVec.allOnes w else 0#w) lo d = some (lo.sdiv d, lo.srem d) := by
  have hne : d.toInt ≠ 0 := fun h => hd (BitVec.eq_of_toInt_eq (h.trans BitVec.toInt_zero.symm))
  have hquot : lo.toInt.tdiv d.toInt = (lo.sdiv d).toInt := (BitVec.toInt_sdiv_of_ne_or_ne lo d (by tauto)).symm
  have hlo := BitVec.le_toInt (lo.sdiv d)
  have hhi := BitVec.toInt_lt (x := lo.sdiv d)
  rw [idivide, toInt_sign, hquot, ← BitVec.toInt_srem, BitVec.ofInt_toInt, BitVec.ofInt_toInt, if_neg]
  rintro (h | h | h)
  · exact hne h
  · omega
  · omega

end Division

end Aipl.Lib.X64
