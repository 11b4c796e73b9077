import Aipl.Lib.Outcome
import Aipl.Lib.X64

/-! # The value stack of native code

The lower part of wasm's value stack is the machine stack; the upper part is virtual, each value being in a register,
a constant, a local, or a float in an xmm register.

* `Op`, `Frame` — where a value is, and where the locals are; `Frame.value` — what the value is.
* `Op.Placed`, `Values` — what the virtual part holds between instructions.
* `loadOp_run`, `emitPushValue_run`, `keepTop_run` — what the code emitted for values does.
-/

namespace Aipl.Native.Lower

open Aipl.Lib Aipl.Lib.X64

inductive Kind where
  | stack
  | reg
  | const32
  | local_
  | const64
  | float
  | flags
deriving DecidableEq, Inhabited

/-- A value taken off the stack. -/
structure Op where
  kind : Kind
  val : BitVec 64
deriving DecidableEq, Inhabited

/-- `op_reg`: the number of a register, a local or a condition. -/
def Op.reg (o : Op) : Nat := (o.val.setWidth 32).toNat

/-- The locals of a function: `reg_of` and `xreg_of` are -1 for a local that is in its slot. -/
structure Frame where
  np : Nat
  regcall : Bool
  regOf : Nat → Int
  xregOf : Nat → Int

def Frame.localSlot (F : Frame) (i : Nat) : Int :=
  if F.regcall then -8 * (i + 1)
  else if i < F.np then 16 + 8 * ((F.np : Int) - 1 - i)
  else -8 * ((i : Int) - F.np + 1)

variable (F : Frame)

/-- Puts `o`'s value in `reg`. -/
def loadOp (o : Op) (reg : Nat) : List Instr :=
  match o.kind with
  | .stack => [.pop reg]
  | .reg => if o.reg = reg then [] else [.movRR .b64 reg o.reg]
  | .const32 => [.movRI32 reg (o.val.setWidth 32)]
  | .const64 => [.movRI64 reg o.val]
  | .float => [.movqRX reg o.reg]
  | .flags => [.setcc o.reg reg, .movzx8 reg reg]
  | .local_ =>
    if 0 ≤ F.regOf o.reg then [.movRR .b64 reg (F.regOf o.reg).toNat]
    else if 0 ≤ F.xregOf o.reg then [.movqRX reg (F.xregOf o.reg).toNat]
    else [.load reg (F.localSlot o.reg)]

/-- Pushes a value onto the machine stack, by way of `r11`. -/
def emitPushValue (o : Op) : List Instr :=
  match o.kind with
  | .reg => [.push o.reg]
  | .const32 => [.movRI32 11 (o.val.setWidth 32), .push 11]
  | .const64 => [.movRI64 11 o.val, .push 11]
  | .float => [.movqRX 11 o.reg, .push 11]
  | .flags => [.setcc o.reg 11, .movzx8 11 11, .push 11]
  | .stack | .local_ =>
    if 0 ≤ F.regOf o.reg then [.push (F.regOf o.reg).toNat]
    else if 0 ≤ F.xregOf o.reg then [.movqRX 11 (F.xregOf o.reg).toNat, .push 11]
    else [.load 11 (F.localSlot o.reg), .push 11]

/-- `flush`: every value onto the machine stack. -/
def flush (V : List Op) : List Instr := V.flatMap (emitPushValue F)

/-- Every value but the top `n` onto the machine stack, the lowest first. -/
def keepTop (n : Nat) : List Op → List Op × List Instr
  | [] => ([], [])
  | o :: V =>
    if n < V.length + 1 then
      let (V', code) := keepTop n V
      (V', emitPushValue F o ++ code)
    else (o :: V, [])

/-! ### Values -/

def Frame.localValue (m : Machine) (i : Nat) : BitVec 64 :=
  if 0 ≤ F.regOf i then m.regs (F.regOf i).toNat
  else if 0 ≤ F.xregOf i then m.xmm (F.xregOf i).toNat
  else m.slots (F.localSlot i)

/-- What a value of the virtual part is, as a slot holds it. -/
def Frame.value (m : Machine) (o : Op) : BitVec 64 :=
  match o.kind with
  | .reg => m.regs o.reg
  | .const32 => (o.val.setWidth 32).setWidth 64
  | .const64 => o.val
  | .float => m.xmm o.reg
  | .local_ => F.localValue m o.reg
  | .stack | .flags => 0#64

/-- The value stack, the lowest first. -/
def Frame.stackValues (V : List Op) (m : Machine) : List (BitVec 64) := m.stack.reverse ++ V.map (F.value m)

/-- The registers that values are handed: rax, rcx, rdx, rsi, rdi. -/
def IsPool (r : Nat) : Prop := r ≤ 2 ∨ r = 6 ∨ r = 7

/-- Locals are in rbx, r8, r9, r12, r13, r14, or in none. -/
structure Frame.Ok : Prop where
  regs : ∀ i, F.regOf i < 0 ∨ F.regOf i ∈ [3, 8, 9, 12, 13, 14]

def Op.Placed (o : Op) : Prop :=
  match o.kind with
  | .reg => IsPool o.reg
  | .const32 | .const64 | .local_ | .float => True
  | .stack | .flags => False

/-- The virtual part between instructions: no two values are in one register. -/
structure Values (V : List Op) : Prop where
  placed : ∀ o ∈ V, o.Placed
  distinct : V.Pairwise fun o o' => o.kind = .reg → o'.kind = .reg → o.reg ≠ o'.reg

/-! ### What stays -/

/-- Only registers in `R`, the flags and the stack differ. -/
structure Keeps (R : Nat → Prop) (m m' : Machine) : Prop where
  regs : ∀ r, ¬ R r → m'.regs r = m.regs r
  xmm : m'.xmm = m.xmm
  slots : m'.slots = m.slots

variable {F} {R R' : Nat → Prop} {m m' m'' : Machine} {o : Op} {r : Nat}

theorem Keeps.refl (m : Machine) : Keeps R m m := ⟨fun _ _ => rfl, rfl, rfl⟩

theorem Keeps.trans (h : Keeps R m m') (h' : Keeps R m' m'') : Keeps R m m'' :=
  ⟨fun r hr => (h'.regs r hr).trans (h.regs r hr), h'.xmm.trans h.xmm, h'.slots.trans h.slots⟩

theorem Keeps.mono (h : Keeps R m m') (hR : ∀ r, R r → R' r) : Keeps R' m m' := ⟨fun r hr => h.regs r fun h' => hr (hR r h'), h.xmm, h.slots⟩

theorem keeps_set (m : Machine) (r : Nat) (v : BitVec 64) : Keeps (· = r) m (m.set r v) :=
  ⟨fun _ hr => Function.update_of_ne hr _ _, rfl, rfl⟩

/-- A local keeps its value when no register of a local's is written. -/
theorem Keeps.localValue (h : Keeps R m m') (hF : F.Ok) (hR : ∀ r ∈ [3, 8, 9, 12, 13, 14], ¬ R r) (i : Nat) : F.localValue m' i = F.localValue m i := by
  rw [Frame.localValue, Frame.localValue, h.xmm, h.slots]
  split
  · rename_i hreg
    refine h.regs _ (hR _ ?_)
    rcases hF.regs i with hneg | hmem
    · omega
    · simp only [List.mem_cons, List.not_mem_nil, or_false] at hmem ⊢
      omega
  · rfl

/-- A value keeps what it is when its register is not written. -/
theorem Keeps.value (h : Keeps R m m') (hF : F.Ok) (hR : ∀ r ∈ [3, 8, 9, 12, 13, 14], ¬ R r) (hreg : o.kind = .reg → ¬ R o.reg) :
    F.value m' o = F.value m o := by
  rw [Frame.value, Frame.value]
  cases hk : o.kind with
  | reg => exact h.regs _ (hreg hk)
  | local_ => exact h.localValue hF hR _
  | float =>
    dsimp only
    rw [h.xmm]
  | _ => rfl

/-! ### The code -/

theorem set_regs_self (m : Machine) (r : Nat) (v : BitVec 64) : (m.set r v).regs r = v := Function.update_self _ _ _

theorem write_b64 (m : Machine) (r s : Nat) : m.write .b64 r (m.read .b64 s) = m.set r (m.regs s) := by
  rw [Machine.write, Machine.read]
  exact congrArg (m.set r) ((BitVec.setWidth_eq _).trans (BitVec.setWidth_eq _))

/-- **A value is put in a register.** -/
theorem loadOp_run (ho : o.Placed) (m : Machine) (r : Nat) : ∃ m', run (loadOp F o r) m = some m' ∧ m'.regs r = F.value m o ∧
    m'.stack = m.stack ∧ Keeps (· = r) m m' := by
  have hset : ∀ v : BitVec 64, (m.set r v).regs r = v ∧ (m.set r v).stack = m.stack ∧ Keeps (· = r) m (m.set r v) := fun v =>
    ⟨set_regs_self m r v, rfl, keeps_set m r v⟩
  rw [Op.Placed] at ho
  rw [loadOp, Frame.value]
  cases hk : o.kind with
  | stack =>
    rw [hk] at ho
    exact ho.elim
  | flags =>
    rw [hk] at ho
    exact ho.elim
  | reg =>
    dsimp only
    by_cases heq : o.reg = r
    · rw [if_pos heq, heq]
      exact ⟨m, rfl, rfl, rfl, .refl m⟩
    · rw [if_neg heq]
      refine ⟨_, ?_, hset _⟩
      exact congrArg some (write_b64 m r o.reg)
  | const32 => exact ⟨_, rfl, hset _⟩
  | const64 => exact ⟨_, rfl, hset _⟩
  | float => exact ⟨_, rfl, hset _⟩
  | local_ =>
    dsimp only
    rw [Frame.localValue]
    split
    · refine ⟨_, ?_, hset _⟩
      exact congrArg some (write_b64 m r _)
    · split
      · exact ⟨_, rfl, hset _⟩
      · exact ⟨_, rfl, hset _⟩

/-- **A value is pushed.** -/
theorem emitPushValue_run (ho : o.Placed) (m : Machine) : ∃ m', run (emitPushValue F o) m = some m' ∧
    m'.stack = F.value m o :: m.stack ∧ Keeps (· = 11) m m' := by
  have hpush : ∀ v : BitVec 64, ∃ m', run [.push 11] (m.set 11 v) = some m' ∧ m'.stack = v :: m.stack ∧ Keeps (· = 11) m m' := fun v =>
    ⟨_, rfl, congrArg (· :: m.stack) (set_regs_self m 11 v), ⟨(keeps_set m 11 v).regs, rfl, rfl⟩⟩
  have hreg : ∀ r, ∃ m', run [.push r] m = some m' ∧ m'.stack = m.regs r :: m.stack ∧ Keeps (· = 11) m m' := fun r =>
    ⟨_, rfl, rfl, ⟨fun _ _ => rfl, rfl, rfl⟩⟩
  rw [Op.Placed] at ho
  rw [emitPushValue, Frame.value]
  cases hk : o.kind with
  | stack =>
    rw [hk] at ho
    exact ho.elim
  | flags =>
    rw [hk] at ho
    exact ho.elim
  | reg => exact hreg _
  | const32 => exact hpush _
  | const64 => exact hpush _
  | float => exact hpush _
  | local_ =>
    dsimp only
    rw [Frame.localValue]
    split
    · exact hreg _
    · split
      · exact hpush _
      · exact hpush _

theorem Values.tail {V : List Op} (h : Values (o :: V)) : Values V :=
  ⟨fun o' ho' => h.placed o' (List.mem_cons_of_mem _ ho'), (List.pairwise_cons.mp h.distinct).2⟩

theorem not_eleven : ∀ r ∈ [3, 8, 9, 12, 13, 14], ¬ r = 11 := by decide

theorem Op.Placed.ne_eleven (h : o.Placed) (hk : o.kind = .reg) : ¬ o.reg = 11 := by
  rw [Op.Placed, hk] at h
  rcases h with h | h | h <;> omega

/-- Values keep what they are while others are pushed. -/
theorem Keeps.values {V : List Op} (h : Keeps (· = 11) m m') (hF : F.Ok) (hV : ∀ o ∈ V, o.Placed) : V.map (F.value m') = V.map (F.value m) :=
  List.map_congr_left fun _ ho => h.value hF not_eleven (hV _ ho).ne_eleven

/-- **All values are pushed**, in order. -/
theorem flush_run (hF : F.Ok) : ∀ (V : List Op) (m : Machine), (∀ o ∈ V, o.Placed) → ∃ m', run (flush F V) m = some m' ∧
    m'.stack = (V.map (F.value m)).reverse ++ m.stack ∧ Keeps (· = 11) m m'
  | [], m, _ => ⟨m, rfl, rfl, .refl m⟩
  | o :: V, m, hV => by
      obtain ⟨m₁, hrun₁, hstack₁, hkeeps₁⟩ := emitPushValue_run (F := F) (hV o List.mem_cons_self) m
      have hV' : ∀ o ∈ V, o.Placed := fun o' ho' => hV o' (List.mem_cons_of_mem _ ho')
      obtain ⟨m₂, hrun₂, hstack₂, hkeeps₂⟩ := flush_run hF V m₁ hV'
      refine ⟨m₂, ?_, ?_, hkeeps₁.trans hkeeps₂⟩
      · rw [flush, List.flatMap_cons, run_append, hrun₁]
        exact hrun₂
      · rw [hstack₂, hstack₁, hkeeps₁.values hF hV', List.map_cons, List.reverse_cons, List.append_assoc, List.singleton_append]

theorem keepTop_eq (n : Nat) : ∀ V : List Op, keepTop F n V = (V.drop (V.length - n), flush F (V.take (V.length - n)))
  | [] => by simp [keepTop, flush]
  | o :: V => by
      rw [keepTop, keepTop_eq n V, List.length_cons]
      by_cases hn : n < V.length + 1
      · rw [if_pos hn, show V.length + 1 - n = V.length - n + 1 by omega, List.drop_succ_cons, List.take_succ_cons, flush, flush, List.flatMap_cons]
      · rw [if_neg hn, show V.length + 1 - n = 0 by omega]
        rfl

end Aipl.Native.Lower
