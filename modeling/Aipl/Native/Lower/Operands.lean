import Aipl.Native.Lower.Values

/-! # Operands in registers

How an instruction gets its operands: off the value stack into registers of its own choice, or into fixed ones.

* `vpop`, `scratch`, `operands`, `popOperands` — the source's.
* `Taken` — where a value is that has been taken off; `loadOp_taken` puts it in a register.
* `scratch_run`, `operands_run`, `popOperands_run` — the values below stay as they are.
-/

namespace Aipl.Native.Lower

open Aipl.Lib Aipl.Lib.X64

variable (F : Frame)

/-- The top value, or one that is on the machine stack. -/
def vpop (V : List Op) : Op × List Op :=
  match V.getLast? with
  | none => (⟨.stack, 0#64⟩, [])
  | some o => (o, V.dropLast)

/-- `op_bit`: the register of a value, if it is in one. -/
def opBit (o : Op) : List Nat := if o.kind = .reg then [o.reg] else []

def usedRegs (V : List Op) : List Nat := V.flatMap opBit

/-- The value registers, in the order they are handed out: rsi, rdi, rdx, rcx, rax. -/
def poolReg : Nat → Nat
  | 0 => 6
  | 1 => 7
  | 2 => 2
  | 3 => 1
  | _ => 0

/-- A value register that is free; the lowest values are pushed until one is.  `none` where the source fails. -/
def scratch (busy : List Nat) : List Op → Option (Nat × List Op × List Instr)
  | [] => (((List.range 5).map poolReg).find? fun r => decide (r ∉ busy)).map fun r => (r, [], [])
  | o :: V =>
    match ((List.range 5).map poolReg).find? fun r => decide (r ∉ busy ++ usedRegs (o :: V)) with
    | some r => some (r, o :: V, [])
    | none => (scratch busy V).map fun (r, V', code) => (r, V', emitPushValue F o ++ code)

/-- A register with `o`'s value: its own, its local's, or `into`. -/
def readReg (o : Op) (into : Nat) : Nat × List Instr :=
  if o.kind = .reg then (o.reg, [])
  else if o.kind = .local_ ∧ 0 ≤ F.regOf o.reg then ((F.regOf o.reg).toNat, [])
  else (into, loadOp F o into)

/-- Whether constant `o` can be an immediate. -/
def immediateOk (o : Op) (sz : Size) : Bool :=
  match o.kind with
  | .const32 => true
  | .const64 => sz = .b32 || (-2147483648 ≤ o.val.toInt && o.val.toInt ≤ 2147483647)
  | _ => false

def inSlot (o : Op) : Bool := o.kind = .local_ && F.regOf o.reg < 0 && F.xregOf o.reg < 0

/-- `operands`, of `a` and `b` that have been taken off: the register that has `a`, and where `b` is. -/
def operands (sz : Size) (aWritable : Bool) (a b : Op) (V : List Op) : Option (Nat × Op × List Op × List Instr) :=
  let taken := opBit b ++ opBit a
  if b.kind = .stack then do
    let (d0, V, code) ← scratch F taken V
    some (d0, ⟨.reg, 11#64⟩, V, .pop 11 :: (code ++ [.pop d0]))
  else do
    let (dst, V, code) ←
      (if a.kind = .reg then some (a.reg, V, [])
      else if !aWritable ∧ a.kind = .local_ ∧ 0 ≤ F.regOf a.reg then some ((F.regOf a.reg).toNat, V, [])
      else (scratch F (opBit b ++ taken) V).map fun (dst, V, code) => (dst, V, code ++ loadOp F a dst) :
        Option (Nat × List Op × List Instr))
    if !(immediateOk b sz || inSlot F b) then
      let (s, load) := readReg F b 11
      some (dst, ⟨.reg, BitVec.ofNat 64 s⟩, V, code ++ load)
    else some (dst, b, V, code)

/-- `pop_to`. -/
def popTo (V : List Op) (reg : Nat) : List Op × List Instr :=
  let (o, V) := vpop V
  (V, loadOp F o reg)

/-- `b` into rcx, `a` into rax, by way of `r11`. -/
def popOperands (V : List Op) : List Op × List Instr :=
  let (V, b) := popTo F V 11
  let (V, a) := popTo F V 0
  (V, b ++ a ++ [.movRR .b64 1 11])

/-! ### Values that are taken off -/

variable {F} {V : List Op} {m m' : Machine} {o : Op} {below : List (BitVec 64)} {x y : BitVec 64} {r : Nat} {R : Nat → Prop}

/-- No value is in register `r`. -/
def Free (V : List Op) (r : Nat) : Prop := ∀ o ∈ V, o.kind = .reg → o.reg ≠ r

/-- No local is in register `r`. -/
def NoLocal (R : Nat → Prop) : Prop := ∀ r ∈ [3, 8, 9, 12, 13, 14], ¬ R r

/-- `o` is what stood above `below`: on the machine stack, or in a place of its own. -/
inductive Taken (F : Frame) (m : Machine) (below : List (BitVec 64)) (x : BitVec 64) : Op → List Op → Prop
  | onStack {v : BitVec 64} : m.stack = x :: below.reverse → Taken F m below x ⟨.stack, v⟩ []
  | virtual {o : Op} {V : List Op} : o.Placed → F.value m o = x → F.stackValues V m = below → Taken F m below x o V

theorem stackValues_concat : F.stackValues (V ++ [o]) m = F.stackValues V m ++ [F.value m o] := by
  rw [Frame.stackValues, Frame.stackValues, List.map_append, List.append_assoc, List.map_singleton]

theorem vpop_concat : vpop (V ++ [o]) = (o, V) := by
  rw [vpop, List.getLast?_concat, List.dropLast_concat]

theorem vpop_taken (hV : Values V) (h : F.stackValues V m = below ++ [x]) : Taken F m below x (vpop V).1 (vpop V).2 := by
  rcases List.eq_nil_or_concat' V with rfl | ⟨V', o, rfl⟩
  · refine .onStack ?_
    rw [Frame.stackValues, List.map_nil, List.append_nil] at h
    rw [← List.reverse_reverse m.stack, h, List.reverse_append]
    rfl
  · rw [stackValues_concat] at h
    obtain ⟨hbelow, hx⟩ := List.append_inj' h rfl
    rw [vpop_concat]
    exact .virtual (hV.placed o List.mem_concat_self) (List.head_eq_of_cons_eq hx) hbelow

theorem Values.sublist {V' : List Op} (hV : Values V) (h : V'.Sublist V) : Values V' :=
  ⟨fun o ho => hV.placed o (h.subset ho), hV.distinct.sublist h⟩

theorem values_vpop (hV : Values V) : Values (vpop V).2 := by
  rcases List.eq_nil_or_concat' V with rfl | ⟨V', o, rfl⟩
  · exact hV
  · rw [vpop_concat]
    exact hV.sublist (List.sublist_append_left V' [o])

/-- The values keep what they are when no register of theirs is written. -/
theorem Keeps.stackValues (h : Keeps R m m') (hstack : m'.stack = m.stack) (hF : F.Ok) (hR : NoLocal R) (hV : ∀ o ∈ V, o.kind = .reg → ¬ R o.reg) :
    F.stackValues V m' = F.stackValues V m := by
  rw [Frame.stackValues, Frame.stackValues, hstack]
  exact congrArg _ (List.map_congr_left fun o ho => h.value hF hR (hV o ho))

/-- **What has been taken off** is put in a register. -/
theorem loadOp_taken (hF : F.Ok) (h : Taken F m below x o V) (hfree : Free V r) (hlocal : NoLocal (· = r)) :
    ∃ m', run (loadOp F o r) m = some m' ∧ m'.regs r = x ∧ F.stackValues V m' = below ∧ Keeps (· = r) m m' := by
  cases h with
  | onStack hstack =>
    refine ⟨{ m.set r x with stack := below.reverse }, ?_, set_regs_self m r x, ?_, ⟨(keeps_set m r x).regs, rfl, rfl⟩⟩
    · rw [loadOp, run, Instr.step, hstack]
      rfl
    · rw [Frame.stackValues, List.reverse_reverse, List.map_nil, List.append_nil]
  | virtual hplaced hx hbelow =>
    obtain ⟨m', hrun, hreg, hstack, hkeeps⟩ := loadOp_run (F := F) hplaced m r
    exact ⟨m', hrun, hreg.trans hx, (hkeeps.stackValues hstack hF hlocal hfree).trans hbelow, hkeeps⟩

/-! ### A free register -/

theorem isPool_of_mem (h : r ∈ (List.range 5).map poolReg) : IsPool r := by
  have hall : ∀ r ∈ (List.range 5).map poolReg, r ≤ 2 ∨ r = 6 ∨ r = 7 := by decide
  exact hall r h

theorem free_of_not_mem (h : r ∉ usedRegs V) : Free V r := fun o ho hk heq =>
  h (List.mem_flatMap.mpr ⟨o, ho, by rw [opBit, if_pos hk, heq]; exact List.mem_singleton_self r⟩)

theorem noLocal_pool (h : IsPool r) : NoLocal (· = r) := by
  rintro s hs rfl
  simp only [List.mem_cons, List.not_mem_nil, or_false] at hs
  rcases h with h | h | h <;> omega

/-- **A register is found**: it holds no value, and the values are as they were. -/
theorem scratch_run (hF : F.Ok) (busy : List Nat) (hbusy : ∃ r ∈ (List.range 5).map poolReg, r ∉ busy) : ∀ (V : List Op) (m : Machine), Values V →
    ∃ r V' code m', scratch F busy V = some (r, V', code) ∧ IsPool r ∧ Free V' r ∧ Values V' ∧ (V = [] → V' = [] ∧ code = []) ∧
      run code m = some m' ∧ F.stackValues V' m' = F.stackValues V m ∧ Keeps (· = 11) m m'
  | [], m, hV => by
      obtain ⟨r, hr, hnot⟩ := hbusy
      cases hfind : ((List.range 5).map poolReg).find? fun r => decide (r ∉ busy) with
      | none => exact absurd (decide_eq_true hnot) (List.find?_eq_none.mp hfind r hr)
      | some r =>
        refine ⟨r, [], [], m, ?_, isPool_of_mem (List.mem_of_find?_eq_some hfind), fun o ho => absurd ho List.not_mem_nil, hV, fun _ => ⟨rfl, rfl⟩,
          rfl, rfl, .refl m⟩
        rw [scratch, hfind, Option.map_some]
  | o :: V, m, hV => by
      rw [scratch]
      cases hfind : ((List.range 5).map poolReg).find? fun r => decide (r ∉ busy ++ usedRegs (o :: V)) with
      | some r =>
        have hfound := List.find?_some hfind
        have hfree := of_decide_eq_true hfound
        rw [List.mem_append, not_or] at hfree
        exact ⟨r, o :: V, [], m, rfl, isPool_of_mem (List.mem_of_find?_eq_some hfind), free_of_not_mem hfree.2, hV, fun h => absurd h (List.cons_ne_nil o V),
          rfl, rfl, .refl m⟩
      | none =>
        obtain ⟨m₁, hrun₁, hstack₁, hkeeps₁⟩ := emitPushValue_run (F := F) (hV.placed o List.mem_cons_self) m
        obtain ⟨r, V', code, m₂, hscratch, hpool, hfree, hV', _, hrun₂, hvalues, hkeeps₂⟩ := scratch_run hF busy hbusy V m₁ hV.tail
        refine ⟨r, V', emitPushValue F o ++ code, m₂, ?_, hpool, hfree, hV', fun h => absurd h (List.cons_ne_nil o V), ?_, ?_, hkeeps₁.trans hkeeps₂⟩
        · rw [hscratch, Option.map_some]
        · rw [run_append, hrun₁]
          exact hrun₂
        · rw [hvalues, Frame.stackValues, hstack₁, List.reverse_cons, hkeeps₁.values hF hV.tail.placed, List.append_assoc, List.singleton_append,
            Frame.stackValues, List.map_cons]

/-! ### Operands -/

theorem noLocal_eleven : NoLocal (· = 11) := not_eleven

/-- Fixed registers: **`a` in rax, `b` in rcx**, all else on the machine stack. -/
theorem popOperands_run (hF : F.Ok) (hV : Values V) (h : F.stackValues V m = below ++ [x, y]) :
    ∃ m', run ((keepTop F 2 V).2 ++ (popOperands F (keepTop F 2 V).1).2) m = some m' ∧ (popOperands F (keepTop F 2 V).1).1 = [] ∧
      m'.regs 0 = x ∧ m'.regs 1 = y ∧ m'.stack = below.reverse ∧ Keeps (fun r => IsPool r ∨ r = 11) m m' := by
  rw [keepTop_eq]
  dsimp only
  have hkept : Values (V.drop (V.length - 2)) := hV.sublist (List.drop_sublist _ V)
  obtain ⟨m₁, hrun₁, hstack₁, hkeeps₁⟩ := flush_run hF (V.take (V.length - 2)) m fun o ho => hV.placed o (List.mem_of_mem_take ho)
  have hvalues₁ : F.stackValues (V.drop (V.length - 2)) m₁ = below ++ [x] ++ [y] := by
    rw [List.append_assoc, List.singleton_append, ← h, Frame.stackValues, hstack₁, hkeeps₁.values hF hkept.placed, List.reverse_append, List.reverse_reverse,
      List.append_assoc, ← List.map_append, List.take_append_drop, Frame.stackValues]
  have hshort : (V.drop (V.length - 2)).length ≤ 2 := by
    rw [List.length_drop]
    omega
  generalize V.drop (V.length - 2) = W at hkept hvalues₁ hshort
  have hempty : (vpop (vpop W).2).2 = [] := by
    match W, hshort with
    | [], _ => rfl
    | [_], _ => rfl
    | [_, _], _ => rfl
  have hvpop := values_vpop hkept
  obtain ⟨m₂, hrun₂, hb, hvalues₂, hkeeps₂⟩ := loadOp_taken hF (vpop_taken hkept hvalues₁) (fun o ho => (hvpop.placed o ho).ne_eleven) noLocal_eleven
  have hnone : Free (vpop (vpop W).2).2 0 := by
    rw [hempty]
    exact fun o ho => absurd ho List.not_mem_nil
  obtain ⟨m₃, hrun₃, ha, hvalues₃, hkeeps₃⟩ := loadOp_taken hF (vpop_taken hvpop hvalues₂) hnone (noLocal_pool (.inl (Nat.zero_le 2)))
  have hstack₃ : m₃.stack = below.reverse := by
    rw [hempty, Frame.stackValues, List.map_nil, List.append_nil] at hvalues₃
    rw [← hvalues₃, List.reverse_reverse]
  have hcode : popOperands F W = ([], loadOp F (vpop W).1 11 ++ loadOp F (vpop (vpop W).2).1 0 ++ [.movRR .b64 1 11]) := by
    rw [← hempty]
    rfl
  have hlast : run [.movRR .b64 1 11] m₃ = some (m₃.set 1 (m₃.regs 11)) := congrArg some (write_b64 m₃ 1 11)
  rw [hcode]
  refine ⟨m₃.set 1 (m₃.regs 11), ?_, rfl, ?_, ?_, hstack₃, ?_⟩
  · rw [run_append, hrun₁, List.append_assoc]
    show run (loadOp F (vpop W).1 11 ++ _) m₁ = _
    rw [run_append, hrun₂]
    show run (loadOp F (vpop (vpop W).2).1 0 ++ _) m₂ = _
    rw [run_append, hrun₃]
    exact hlast
  · exact ((keeps_set m₃ 1 _).regs 0 (show ¬ (0 : Nat) = 1 by decide)).trans ha
  · rw [set_regs_self, hkeeps₃.regs 11 (by decide), hb]
  · refine (hkeeps₁.trans hkeeps₂).mono (fun r hr => .inr hr) |>.trans ?_
    refine (hkeeps₃.mono fun r hr => ?_).trans ((keeps_set m₃ 1 _).mono fun r hr => ?_)
    · exact .inl (.inl (by omega))
    · exact .inl (.inl (by omega))

/-- What `operands` leaves, when `b` is a constant: **`a` in a register of its own**, the values below as they were. -/
theorem operands_run (sz : Size) (hF : F.Ok) {a b : Op} (hV : Values V) (hb : b.kind = .const32 ∨ b.kind = .const64) (ha : Taken F m below x a V)
    (hfree : a.kind = .reg → Free V a.reg) :
    ∃ dst b' V' code m', operands F sz true a b V = some (dst, b', V', code) ∧ IsPool dst ∧ Free V' dst ∧ Values V' ∧ run code m = some m' ∧
      m'.regs dst = x ∧ F.stackValues V' m' = below ∧ Keeps (fun r => IsPool r ∨ r = 11) m m' := by
  have hbreg : opBit b = [] := by
    rw [opBit, if_neg]
    rcases hb with hb | hb <;> rw [hb] <;> decide
  have hfirst : ∃ dst V' code m', (if a.kind = .reg then some (a.reg, V, [])
      else if !true ∧ a.kind = .local_ ∧ 0 ≤ F.regOf a.reg then some ((F.regOf a.reg).toNat, V, [])
      else (scratch F (opBit b ++ (opBit b ++ opBit a)) V).map fun (dst, V, code) => (dst, V, code ++ loadOp F a dst) :
        Option (Nat × List Op × List Instr)) = some (dst, V', code) ∧ IsPool dst ∧ Free V' dst ∧ Values V' ∧ run code m = some m' ∧
      m'.regs dst = x ∧ F.stackValues V' m' = below ∧ Keeps (fun r => IsPool r ∨ r = 11) m m' := by
    by_cases hreg : a.kind = .reg
    · rw [if_pos hreg]
      cases ha with
      | onStack hstack => cases hreg
      | virtual hplaced hx hbelow =>
        rw [Op.Placed, hreg] at hplaced
        rw [Frame.value, hreg] at hx
        exact ⟨_, _, _, m, rfl, hplaced, hfree hreg, hV, rfl, hx, hbelow, .refl m⟩
    · rw [if_neg hreg, if_neg (fun h => Bool.false_ne_true h.1), hbreg, show opBit a = [] from if_neg hreg]
      obtain ⟨r, V', code, m₁, hscratch, hpool, hfree', hV', hnil, hrun₁, hvalues₁, hkeeps₁⟩ :=
        scratch_run hF [] ⟨6, by decide, List.not_mem_nil⟩ V m hV
      have htaken : Taken F m₁ below x a V' := by
        cases ha with
        | onStack hstack =>
          obtain ⟨rfl, rfl⟩ := hnil rfl
          obtain rfl : m = m₁ := Option.some.inj hrun₁
          exact .onStack hstack
        | virtual hplaced hx hbelow =>
          refine .virtual hplaced ?_ (hvalues₁.trans hbelow)
          rw [hkeeps₁.value hF noLocal_eleven fun h => absurd h hreg, hx]
      obtain ⟨m₂, hrun₂, hx, hbelow, hkeeps₂⟩ := loadOp_taken hF htaken hfree' (noLocal_pool hpool)
      refine ⟨r, V', code ++ loadOp F a r, m₂, ?_, hpool, hfree', hV', ?_, hx, hbelow, ?_⟩
      · rw [List.nil_append, List.nil_append, hscratch, Option.map_some]
      · rw [run_append, hrun₁]
        exact hrun₂
      · exact (hkeeps₁.mono fun r hr => .inr hr).trans (hkeeps₂.mono fun s hs => .inl (hs ▸ hpool))
  obtain ⟨dst, V', code, m₁, heq, hpool, hfree', hV', hrun₁, hx, hbelow, hkeeps₁⟩ := hfirst
  have hne : dst ≠ 11 := by rcases hpool with h | h | h <;> omega
  have hstack : ¬ b.kind = .stack := by rcases hb with hb | hb <;> rw [hb] <;> decide
  rw [operands, if_neg hstack]
  dsimp only
  rw [heq, Option.bind_eq_bind, Option.bind_some]
  dsimp only
  by_cases hin : (!(immediateOk b sz || inSlot F b)) = true
  · have hread : readReg F b 11 = (11, loadOp F b 11) := by
      rw [readReg]
      rcases hb with hb | hb <;> rw [hb, if_neg (by decide), if_neg fun h => absurd h.1 (by decide)]
    have hplaced : b.Placed := by rcases hb with hb | hb <;> rw [Op.Placed, hb] <;> trivial
    obtain ⟨m₂, hrun₂, _, hstack₂, hkeeps₂⟩ := loadOp_run (F := F) hplaced m₁ 11
    rw [if_pos hin, hread]
    refine ⟨dst, _, V', _, m₂, rfl, hpool, hfree', hV', ?_, ?_, ?_, hkeeps₁.trans (hkeeps₂.mono fun r hr => .inr hr)⟩
    · rw [run_append, hrun₁]
      exact hrun₂
    · rw [hkeeps₂.regs dst hne, hx]
    · rw [hkeeps₂.stackValues hstack₂ hF noLocal_eleven fun o ho => (hV'.placed o ho).ne_eleven, hbelow]
  · rw [if_neg hin]
    exact ⟨dst, b, V', code, m₁, rfl, hpool, hfree', hV', hrun₁, hx, hbelow, hkeeps₁⟩

end Aipl.Native.Lower
