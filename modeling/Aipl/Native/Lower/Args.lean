import Aipl.Native.Lower.Values

/-! # Arguments in their registers

`load_args`: the top values of the stack go to the registers of a call's arguments, at once as it were; the moves
between registers are put in an order, and a cycle goes through the machine stack.

* `moveOne_inv`, `moves_end` — the moves that are pending, and that they end.
* `popArgs_run`, `loadRest_run` — what was parked, and what is not in a register.
* `loadArgs_places` — each argument in its register, and all else where it was.
-/

namespace Aipl.Native.Lower

open Aipl.Lib Aipl.Lib.Outcome Aipl.Lib.X64

variable (F : Frame) (fuel n : Nat)

/-- `arg_reg`: rdi, rsi, rdx, rcx, r10, r11. -/
def argReg : Nat → Nat
  | 0 => 7
  | 1 => 6
  | 2 => 2
  | 3 => 1
  | 4 => 10
  | _ => 11

/-- The moves: `src` is the register that the argument is to be moved from, or -1. -/
structure Moves where
  src : Nat → Int
  left : Nat
  moved : Bool
  parked : List Nat
  code : List Instr

/-- Whether a pending move other than `i` reads register `r`. -/
def readByOther (src : Nat → Int) (r i : Nat) : Bool := (List.range n).any fun j => decide (j ≠ i) && decide (src j = r)

def moveOne (s : Moves) (i : Nat) : Moves :=
  if 0 ≤ s.src i ∧ readByOther n s.src (argReg i) i = false then
    { s with
      src := Function.update s.src i (-1)
      left := s.left - 1
      moved := true
      code := s.code ++ [.movRR .b64 (argReg i) (s.src i).toNat] }
  else s

/-- The first pending move's register is pushed. -/
def park (s : Moves) : Outcome Moves := do
  let first ← ofOption ((List.range n).find? fun i => decide (0 ≤ s.src i))
  pure { s with
    src := Function.update s.src first (-1)
    left := s.left - 1
    parked := s.parked ++ [first]
    code := s.code ++ [.push (s.src first).toNat] }

def movesRound (s : Moves) : Outcome (Moves ⊕ Moves) :=
  if 0 < s.left then do
    let s := (List.range n).foldl (moveOne n) { s with moved := false }
    let s ← (if s.moved then pure s else park n s : Outcome Moves)
    pure (.inl s)
  else pure (.inr s)

/-- The moves that are needed. -/
def startMoves (arg : Nat → Op) : Moves :=
  (List.range n).foldl (fun s i =>
    if (arg i).kind = .reg ∧ (arg i).reg ≠ argReg i then { s with src := Function.update s.src i (arg i).reg, left := s.left + 1 }
    else { s with src := Function.update s.src i (-1) })
    { src := fun _ => 0, left := 0, moved := false, parked := [], code := [] }

/-- What was parked is popped, the last one first. -/
def popArgs (args : List Nat) : List Instr := args.map fun i => .pop (argReg i)

/-- The arguments that are not in a register. -/
def loadRest (arg : Nat → Op) : List Instr :=
  (List.range n).flatMap fun i => if (arg i).kind ≠ .reg then loadOp F (arg i) (argReg i) else []

/-- The arguments into `argReg`, off the value stack, which is left, and the code. -/
def loadArgs (V : List Op) : Outcome (List Op × List Instr) :=
  if V.length < n then
    pure ([], flush F V ++ popArgs ((List.range n).map fun j => n - (j + 1)))
  else do
    let keep := (V.take (V.length - n)).all fun o => decide (o.kind = .local_ ∨ o.kind = .const32 ∨ o.kind = .const64)
    let (V, spilled) := if !keep then keepTop F n V else (V, [])
    let base := V.length - n
    let arg := fun i => V.getD (base + i) default
    let s ← iterate (movesRound n) fuel (startMoves n arg)
    pure (V.take base, spilled ++ (s.code ++ (popArgs s.parked.reverse ++ loadRest F n arg)))

/-! ### The registers -/

variable {F fuel n} {arg : Nat → Op} {m m' : Machine} {s : Moves} {i j : Nat}

/-- A register of an argument. -/
def IsArg (r : Nat) : Prop := ∃ i < 6, r = argReg i

theorem argReg_inj : ∀ i < 6, ∀ j < 6, argReg i = argReg j → i = j := by decide

theorem argReg_ne (hn : n ≤ 6) (hi : i < n) (hj : j < n) (h : i ≠ j) : argReg i ≠ argReg j := fun heq =>
  h (argReg_inj i (by omega) j (by omega) heq)

theorem isArg_argReg (hn : n ≤ 6) (hi : i < n) : IsArg (argReg i) := ⟨i, by omega, rfl⟩

theorem not_isArg : ∀ r ∈ [3, 8, 9, 12, 13, 14], ¬ IsArg r := by
  intro r hr ⟨i, hi, heq⟩
  have hall : ∀ i < 6, argReg i ∉ [3, 8, 9, 12, 13, 14] := by decide
  exact hall i hi (heq ▸ hr)

/-! ### The moves -/

/-- The moves that are pending. -/
def pending (n : Nat) (src : Nat → Int) : Finset Nat := (Finset.range n).filter fun i => 0 ≤ src i

theorem mem_pending {src : Nat → Int} : i ∈ pending n src ↔ i < n ∧ 0 ≤ src i := by
  rw [pending, Finset.mem_filter, Finset.mem_range]

theorem pending_update {src : Nat → Int} (hi : i ∈ pending n src) :
    (pending n (Function.update src i (-1))).card + 1 = (pending n src).card := by
  have herase : pending n (Function.update src i (-1)) = (pending n src).erase i := by
    ext j
    rw [Finset.mem_erase, mem_pending, mem_pending]
    rcases eq_or_ne j i with rfl | hne
    · rw [Function.update_self]
      simp
    · rw [Function.update_of_ne hne]
      simp [hne]
  rw [herase]
  exact Finset.card_erase_add_one hi

/-- **The invariant**: the code so far has moved or parked what is not pending, and has not written what is. -/
structure MoveInv (n : Nat) (arg : Nat → Op) (m₀ : Machine) (s : Moves) (m : Machine) : Prop where
  runs : run s.code m₀ = some m
  src : ∀ i < n, 0 ≤ s.src i → (arg i).kind = .reg ∧ s.src i = (arg i).reg
  pending : ∀ i < n, 0 ≤ s.src i → m.regs (arg i).reg = m₀.regs (arg i).reg
  done : ∀ i < n, (arg i).kind = .reg → s.src i < 0 → i ∉ s.parked → m.regs (argReg i) = m₀.regs (arg i).reg
  parked : ∀ i ∈ s.parked, i < n ∧ (arg i).kind = .reg ∧ s.src i < 0
  stack : m.stack = (s.parked.reverse.map fun i => m₀.regs (arg i).reg) ++ m₀.stack
  left : s.left = (Lower.pending n s.src).card
  keeps : Keeps IsArg m₀ m

theorem run_snoc {is : List Instr} {i : Instr} {m₀ : Machine} (h : run is m₀ = some m) (hstep : i.step m = some m') : run (is ++ [i]) m₀ = some m' := by
  rw [run_append, h]
  show run [i] m = some m'
  rw [run, hstep]
  rfl

/-- **One move**, if no other reads its target. -/
theorem moveOne_inv {m₀ : Machine} (hn : n ≤ 6) (hi : i < n) (h : MoveInv n arg m₀ s m) : (∃ m', MoveInv n arg m₀ (moveOne n s i) m') ∧
    ((moveOne n s i = s) ∨ (moveOne n s i).moved = true ∧ (moveOne n s i).left < s.left) := by
  rw [moveOne]
  by_cases hmove : 0 ≤ s.src i ∧ readByOther n s.src (argReg i) i = false
  · obtain ⟨hpend, hfree⟩ := hmove
    rw [if_pos ⟨hpend, hfree⟩]
    have hmem : i ∈ pending n s.src := mem_pending.mpr ⟨hi, hpend⟩
    have hcard := pending_update hmem
    have hleft := h.left
    obtain ⟨hkind, hsrc⟩ := h.src i hi hpend
    have hother : ∀ j < n, j ≠ i → s.src j ≠ argReg i := fun j hj hne heq => by
      rw [readByOther, List.any_eq_false] at hfree
      exact hfree j (List.mem_range.mpr hj) (by simp [hne, heq])
    have hvalue : m.regs (s.src i).toNat = m₀.regs (arg i).reg := by
      rw [hsrc, Int.toNat_natCast]
      exact h.pending i hi hpend
    have hset : ∀ r, r ≠ argReg i → (m.set (argReg i) (m.regs (s.src i).toNat)).regs r = m.regs r := fun r hr => Function.update_of_ne hr _ _
    have hupdate : ∀ j, j ≠ i → Function.update s.src i (-1) j = s.src j := fun j hj => Function.update_of_ne hj _ _
    have hself : Function.update s.src i (-1 : Int) i = -1 := Function.update_self _ _ _
    refine ⟨⟨m.set (argReg i) (m.regs (s.src i).toNat), ?_⟩, .inr ⟨rfl, by dsimp only; omega⟩⟩
    constructor
    · exact run_snoc h.runs (congrArg some (write_b64 m _ _))
    · intro j hj hpos
      dsimp only at hpos ⊢
      rcases eq_or_ne j i with rfl | hne
      · rw [hself] at hpos
        omega
      · rw [hupdate j hne] at hpos ⊢
        exact h.src j hj hpos
    · intro j hj hpos
      dsimp only at hpos
      rcases eq_or_ne j i with rfl | hne
      · rw [hself] at hpos
        omega
      · rw [hupdate j hne] at hpos
        have hnot := hother j hj hne
        rw [(h.src j hj hpos).2] at hnot
        rw [hset _ (by omega)]
        exact h.pending j hj hpos
    · intro j hj hk hneg hpark
      dsimp only at hneg hpark
      rcases eq_or_ne j i with rfl | hne
      · rw [set_regs_self, hvalue]
      · rw [hupdate j hne] at hneg
        rw [hset _ (argReg_ne hn hj hi hne)]
        exact h.done j hj hk hneg hpark
    · intro j hj
      obtain ⟨hjn, hk, hneg⟩ := h.parked j hj
      refine ⟨hjn, hk, ?_⟩
      dsimp only
      rcases eq_or_ne j i with rfl | hne
      · omega
      · rw [hupdate j hne]
        exact hneg
    · exact h.stack
    · dsimp only
      omega
    · exact h.keeps.trans ((keeps_set m _ _).mono fun r hr => hr ▸ isArg_argReg hn hi)
  · rw [if_neg hmove]
    exact ⟨⟨m, h⟩, .inl rfl⟩

/-- All moves tried once. -/
theorem movesOnce_inv {m₀ : Machine} (hn : n ≤ 6) : ∀ (is : List Nat) (s : Moves) (m : Machine), (∀ i ∈ is, i < n) → MoveInv n arg m₀ s m →
    (∃ m', MoveInv n arg m₀ (is.foldl (moveOne n) s) m') ∧
      ((is.foldl (moveOne n) s = s) ∨ (is.foldl (moveOne n) s).moved = true ∧ (is.foldl (moveOne n) s).left < s.left)
  | [], s, m, _, h => ⟨⟨m, h⟩, .inl rfl⟩
  | i :: is, s, m, his, h => by
      obtain ⟨⟨m₁, h₁⟩, hone⟩ := moveOne_inv hn (his i List.mem_cons_self) h
      obtain ⟨hrest, hall⟩ := movesOnce_inv hn is (moveOne n s i) m₁ (fun j hj => his j (List.mem_cons_of_mem _ hj)) h₁
      refine ⟨hrest, ?_⟩
      rw [List.foldl_cons]
      rcases hall with heq | ⟨hmoved, hless⟩
      · rw [heq]
        exact hone
      · rcases hone with heq | ⟨_, hless'⟩
        · rw [heq] at hmoved hless ⊢
          exact .inr ⟨hmoved, hless⟩
        · exact .inr ⟨hmoved, hless.trans hless'⟩

/-- **A register parked**: there is one, when there are moves left. -/
theorem park_inv {m₀ : Machine} (h : MoveInv n arg m₀ s m) (hleft : 0 < s.left) :
    Ends (fun s' => s'.left < s.left ∧ ∃ m', MoveInv n arg m₀ s' m') (park n s) := by
  have hcount := h.left
  obtain ⟨k, hk⟩ := Finset.card_pos.mp (show 0 < (pending n s.src).card by omega)
  rw [park]
  cases hfind : (List.range n).find? fun i => decide (0 ≤ s.src i) with
  | none =>
    rw [List.find?_eq_none] at hfind
    obtain ⟨hkn, hpos⟩ := mem_pending.mp hk
    exact absurd (decide_eq_true hpos) (hfind k (List.mem_range.mpr hkn))
  | some i =>
    have hi := List.mem_range.mp (List.mem_of_find?_eq_some hfind)
    have hpend : 0 ≤ s.src i := by
      have hfound := List.find?_some hfind
      exact of_decide_eq_true hfound
    obtain ⟨hkind, hsrc⟩ := h.src i hi hpend
    have hcard := pending_update (mem_pending.mpr ⟨hi, hpend⟩)
    have hupdate : ∀ j, j ≠ i → Function.update s.src i (-1) j = s.src j := fun j hj => Function.update_of_ne hj _ _
    have hself : Function.update s.src i (-1 : Int) i = -1 := Function.update_self _ _ _
    have hvalue : m.regs (s.src i).toNat = m₀.regs (arg i).reg := by
      rw [hsrc, Int.toNat_natCast]
      exact h.pending i hi hpend
    refine ⟨by dsimp only; omega, { m with stack := m.regs (s.src i).toNat :: m.stack }, ?_⟩
    constructor
    · exact run_snoc h.runs rfl
    · intro j hj hpos
      dsimp only at hpos ⊢
      rcases eq_or_ne j i with rfl | hne
      · rw [hself] at hpos
        omega
      · rw [hupdate j hne] at hpos ⊢
        exact h.src j hj hpos
    · intro j hj hpos
      dsimp only at hpos
      rcases eq_or_ne j i with rfl | hne
      · rw [hself] at hpos
        omega
      · rw [hupdate j hne] at hpos
        exact h.pending j hj hpos
    · intro j hj hk hneg hpark
      dsimp only at hneg hpark
      rw [List.mem_append, List.mem_singleton, not_or] at hpark
      rw [hupdate j hpark.2] at hneg
      exact h.done j hj hk hneg hpark.1
    · intro j hj
      dsimp only at hj ⊢
      rcases eq_or_ne j i with rfl | hne
      · exact ⟨hi, hkind, by rw [hself]; omega⟩
      · rw [hupdate j hne]
        rw [List.mem_append, List.mem_singleton] at hj
        exact h.parked j (hj.resolve_right hne)
    · dsimp only
      rw [List.reverse_append, List.reverse_singleton, List.singleton_append, List.map_cons, List.cons_append, h.stack, hvalue]
    · dsimp only
      omega
    · exact h.keeps.trans ⟨fun _ _ => rfl, rfl, rfl⟩

/-- **The moves end.** -/
theorem moves_end {m₀ : Machine} (hn : n ≤ 6) (h : MoveInv n arg m₀ s m) (hfuel : s.left < fuel) :
    Ends (fun s' => s'.left = 0 ∧ ∃ m', MoveInv n arg m₀ s' m') (iterate (movesRound n) fuel s) := by
  refine iterate_ends (fun s => ∃ m, MoveInv n arg m₀ s m) _ (fun s => s.left) (fun s ⟨m, hs⟩ => ?_) fuel s ⟨m, h⟩ hfuel
  rw [movesRound]
  by_cases hleft : 0 < s.left
  · rw [if_pos hleft]
    have hs' : MoveInv n arg m₀ { s with moved := false } m := ⟨hs.runs, hs.src, hs.pending, hs.done, hs.parked, hs.stack, hs.left, hs.keeps⟩
    obtain ⟨hinv, hless⟩ := movesOnce_inv hn (List.range n) _ m (fun i => List.mem_range.mp) hs'
    dsimp only
    generalize (List.range n).foldl (moveOne n) { s with moved := false } = s₁ at hinv hless
    rcases hless with rfl | ⟨hmoved, hless⟩
    · rw [if_neg Bool.false_ne_true]
      exact ends_bind (park_inv hs' hleft) fun s₂ ⟨hless₂, hinv₂⟩ => ⟨hinv₂, hless₂⟩
    · rw [if_pos hmoved]
      exact ⟨hinv, hless⟩
  · rw [if_neg hleft]
    exact ⟨by omega, m, hs⟩

theorem startMoves_inv (arg : Nat → Op) (m₀ : Machine) : MoveInv n arg m₀ (startMoves n arg) m₀ ∧ (startMoves n arg).left ≤ n := by
  -- of the arguments seen so far, those to be moved are pending
  have hfold : ∀ k, ∃ src, (List.range k).foldl (fun s i =>
      if (arg i).kind = .reg ∧ (arg i).reg ≠ argReg i then ({ s with src := Function.update s.src i (arg i).reg, left := s.left + 1 } : Moves)
      else { s with src := Function.update s.src i (-1) })
      { src := fun _ => 0, left := 0, moved := false, parked := [], code := [] } =
        { src := src, left := (pending k src).card, moved := false, parked := [], code := [] } ∧
      ∀ i < k, src i = if (arg i).kind = .reg ∧ (arg i).reg ≠ argReg i then ((arg i).reg : Int) else -1 := fun k => by
    induction k with
    | zero => exact ⟨fun _ => 0, rfl, fun i hi => absurd hi (Nat.not_lt_zero i)⟩
    | succ k ih =>
      obtain ⟨src, heq, hsrc⟩ := ih
      have hbelow : ∀ v, ∀ i < k, Function.update src k v i = src i := fun v i hi => Function.update_of_ne (by omega) _ _
      have hpending : ∀ v : Int, pending (k + 1) (Function.update src k v) = if 0 ≤ v then insert k (pending k src) else pending k src := fun v => by
        ext i
        have hcases : i < k + 1 ↔ i = k ∨ i < k := by omega
        split
        · rw [Finset.mem_insert, mem_pending, mem_pending, hcases]
          rcases eq_or_ne i k with rfl | hne
          · rw [Function.update_self]
            simp [*]
          · rw [Function.update_of_ne hne]
            simp [hne]
        · rw [mem_pending, mem_pending, hcases]
          rcases eq_or_ne i k with rfl | hne
          · rw [Function.update_self]
            simp [*]
          · rw [Function.update_of_ne hne]
            simp [hne]
      rw [List.range_succ, List.foldl_append, heq, List.foldl_cons, List.foldl_nil]
      dsimp only
      split
      · rename_i hmove
        refine ⟨Function.update src k (arg k).reg, ?_, fun i hi => ?_⟩
        · have hnot : k ∉ pending k src := fun hmem => absurd (mem_pending.mp hmem).1 (lt_irrefl k)
          rw [hpending, if_pos (Int.natCast_nonneg _), Finset.card_insert_of_notMem hnot]
        · rcases Nat.lt_succ_iff_lt_or_eq.mp hi with hi | rfl
          · rw [hbelow _ i hi, hsrc i hi]
          · rw [Function.update_self, if_pos hmove]
      · rename_i hmove
        refine ⟨Function.update src k (-1), ?_, fun i hi => ?_⟩
        · rw [hpending, if_neg (by decide)]
        · rcases Nat.lt_succ_iff_lt_or_eq.mp hi with hi | rfl
          · rw [hbelow _ i hi, hsrc i hi]
          · rw [Function.update_self, if_neg hmove]
  obtain ⟨src, heq, hsrc⟩ := hfold n
  rw [startMoves, heq]
  have hle : (pending n src).card ≤ n := (Finset.card_filter_le _ _).trans (Finset.card_range n).le
  refine ⟨⟨rfl, fun i hi hpos => ?_, fun _ _ _ => rfl, fun i hi hk hneg _ => ?_, fun i hi => absurd hi List.not_mem_nil, rfl, rfl, .refl _⟩, hle⟩
  · dsimp only at hpos ⊢
    have hi' := hsrc i hi
    split at hi'
    · rename_i hmove
      exact ⟨hmove.1, hi'⟩
    · omega
  · dsimp only at hneg
    have hi' := hsrc i hi
    split at hi'
    · omega
    · rename_i hmove
      by_cases heq : (arg i).reg = argReg i
      · rw [heq]
      · exact absurd ⟨hk, heq⟩ hmove

/-! ### The rest -/

/-- **What is popped** goes to its register. -/
theorem popArgs_run (w : Nat → BitVec 64) (rest : List (BitVec 64)) : ∀ (args : List Nat) (m : Machine), (∀ i ∈ args, i < 6) →
    m.stack = args.map w ++ rest → ∃ m', run (popArgs args) m = some m' ∧ m'.stack = rest ∧ (∀ i ∈ args, m'.regs (argReg i) = w i) ∧
      (∀ r, (∀ i ∈ args, r ≠ argReg i) → m'.regs r = m.regs r) ∧ Keeps IsArg m m'
  | [], m, _, hstack => ⟨m, rfl, hstack, fun i hi => absurd hi List.not_mem_nil, fun _ _ => rfl, .refl m⟩
  | i :: args, m, hargs, hstack => by
      rw [List.map_cons, List.cons_append] at hstack
      obtain ⟨m', hrun, hrest, hin, hout, hkeeps⟩ := popArgs_run w rest args { m.set (argReg i) (w i) with stack := args.map w ++ rest }
        (fun j hj => hargs j (List.mem_cons_of_mem _ hj)) rfl
      have hi := hargs i List.mem_cons_self
      have hset : ∀ r, r ≠ argReg i → (m.set (argReg i) (w i)).regs r = m.regs r := fun r hr => Function.update_of_ne hr _ _
      refine ⟨m', ?_, hrest, fun j hj => ?_, fun r hr => ?_, ?_⟩
      · rw [popArgs, List.map_cons, run, Instr.step, hstack]
        exact hrun
      · by_cases hmem : j ∈ args
        · exact hin j hmem
        · obtain rfl : j = i := (List.mem_cons.mp hj).resolve_right hmem
          rw [hout _ fun k hk heq => hmem (argReg_inj j hi k (hargs k (List.mem_cons_of_mem _ hk)) heq ▸ hk)]
          exact set_regs_self m _ _
      · rw [hout r fun k hk => hr k (List.mem_cons_of_mem _ hk)]
        exact hset r (hr i List.mem_cons_self)
      · have hfirst : Keeps IsArg m { m.set (argReg i) (w i) with stack := args.map w ++ rest } :=
          ⟨fun r hr => hset r fun heq => hr ⟨i, hi, heq⟩, rfl, rfl⟩
        exact hfirst.trans hkeeps

/-- **Constants, locals and floats** read no argument register. -/
theorem loadRest_run {m₀ : Machine} (hF : F.Ok) (hn : n ≤ 6) (hplaced : ∀ i < n, (arg i).Placed) (hkeeps : Keeps IsArg m₀ m)
    (hregs : ∀ i < n, (arg i).kind = .reg → m.regs (argReg i) = m₀.regs (arg i).reg) :
    ∃ m', run (loadRest F n arg) m = some m' ∧ m'.stack = m.stack ∧ Keeps IsArg m₀ m' ∧ ∀ i < n, m'.regs (argReg i) = F.value m₀ (arg i) := by
  have hfold : ∀ k ≤ n, ∃ m', run ((List.range k).flatMap fun i => if (arg i).kind ≠ .reg then loadOp F (arg i) (argReg i) else []) m = some m' ∧
      m'.stack = m.stack ∧ Keeps IsArg m₀ m' ∧ ∀ i < n, ((arg i).kind = .reg ∨ i < k) → m'.regs (argReg i) = F.value m₀ (arg i) := fun k => by
    induction k with
    | zero =>
      refine fun _ => ⟨m, rfl, rfl, hkeeps, fun i hi hcase => ?_⟩
      have hk := hcase.resolve_right (Nat.not_lt_zero i)
      rw [hregs i hi hk, Frame.value, hk]
    | succ k ih =>
      intro hk
      obtain ⟨m₁, hrun₁, hstack₁, hkeeps₁, hdone₁⟩ := ih (by omega)
      rw [List.range_succ, List.flatMap_append, List.flatMap_singleton, run_append, hrun₁]
      by_cases hkind : (arg k).kind = .reg
      · rw [if_neg (fun h => h hkind)]
        refine ⟨m₁, rfl, hstack₁, hkeeps₁, fun i hi hcase => hdone₁ i hi ?_⟩
        rcases hcase with hr | hlt
        · exact .inl hr
        · rcases Nat.lt_succ_iff_lt_or_eq.mp hlt with hlt | rfl
          · exact .inr hlt
          · exact .inl hkind
      · obtain ⟨m₂, hrun₂, hreg₂, hstack₂, hkeeps₂⟩ := loadOp_run (F := F) (hplaced k (by omega)) m₁ (argReg k)
        rw [if_pos hkind]
        refine ⟨m₂, hrun₂, hstack₂.trans hstack₁, hkeeps₁.trans (hkeeps₂.mono fun r hr => hr ▸ isArg_argReg hn (by omega)), fun i hi hcase => ?_⟩
        rcases eq_or_ne i k with rfl | hne
        · rw [hreg₂]
          exact hkeeps₁.value hF not_isArg fun h => absurd h hkind
        · rw [hkeeps₂.regs _ (argReg_ne hn hi (by omega) hne)]
          exact hdone₁ i hi (hcase.imp_right fun hlt => by omega)
  obtain ⟨m', hrun, hstack, hkeeps', hdone⟩ := hfold n le_rfl
  exact ⟨m', hrun, hstack, hkeeps', fun i hi => hdone i hi (.inr hi)⟩

/-! ### All of it -/

variable {V : List Op}

theorem placed_getD (hV : ∀ o ∈ V, o.Placed) {k : Nat} (hk : k < V.length) : (V.getD k default).Placed := by
  rw [List.getD_eq_getElem?_getD, List.getElem?_eq_getElem hk, Option.getD_some]
  exact hV _ (List.getElem_mem hk)

/-- **The moves, what was parked, and the rest**, of values that are all in the virtual part. -/
theorem placeArgs_run (hF : F.Ok) (hn : n ≤ 6) (hfuel : n < fuel) (hplaced : ∀ i < n, (arg i).Placed) (m : Machine) :
    Ends (fun s => ∃ m', run (s.code ++ (popArgs s.parked.reverse ++ loadRest F n arg)) m = some m' ∧ m'.stack = m.stack ∧
      Keeps IsArg m m' ∧ ∀ i < n, m'.regs (argReg i) = F.value m (arg i)) (iterate (movesRound n) fuel (startMoves n arg)) := by
  obtain ⟨hinv, hleft⟩ := startMoves_inv (n := n) arg m
  refine (moves_end hn hinv (show (startMoves n arg).left < fuel by omega)).mono fun s ⟨hzero, m₁, h⟩ => ?_
  have hnone : ∀ i < n, s.src i < 0 := fun i hi => by
    by_contra hpos
    have hempty := h.left
    rw [hzero, eq_comm, Finset.card_eq_zero] at hempty
    have hmem : i ∈ pending n s.src := mem_pending.mpr ⟨hi, by omega⟩
    rw [hempty] at hmem
    exact absurd hmem (Finset.notMem_empty i)
  have hsmall : ∀ i ∈ s.parked.reverse, i < 6 := fun i hi => by
    have := (h.parked i (List.mem_reverse.mp hi)).1
    omega
  obtain ⟨m₂, hrun₂, hstack₂, hin, hout, hkeeps₂⟩ := popArgs_run _ _ s.parked.reverse m₁ hsmall h.stack
  have hregs : ∀ i < n, (arg i).kind = .reg → m₂.regs (argReg i) = m.regs (arg i).reg := fun i hi hk => by
    by_cases hpark : i ∈ s.parked
    · exact hin i (List.mem_reverse.mpr hpark)
    · rw [hout _ fun j hj heq => hpark ?_]
      · exact h.done i hi hk (hnone i hi) hpark
      · rw [argReg_inj i (by omega) j (hsmall j hj) heq]
        exact List.mem_reverse.mp hj
  obtain ⟨m₃, hrun₃, hstack₃, hkeeps₃, hdone⟩ := loadRest_run hF hn hplaced (h.keeps.trans hkeeps₂) hregs
  refine ⟨m₃, ?_, hstack₃.trans hstack₂, hkeeps₃, hdone⟩
  rw [run_append, h.runs]
  show run (popArgs s.parked.reverse ++ loadRest F n arg) m₁ = some m₃
  rw [run_append, hrun₂]
  exact hrun₃

/-- What `load_args` leaves: the top `n` values in their registers, the values below them, the locals, and the machine
stack with what was spilled onto it, or without the arguments that were on it. -/
structure Loaded (F : Frame) (n : Nat) (V : List Op) (m : Machine) (V' : List Op) (m' : Machine) : Prop where
  args : ∀ i < n, some (m'.regs (argReg i)) = (F.stackValues V m)[(F.stackValues V m).length - n + i]?
  below : F.stackValues V' m' = (F.stackValues V m).take ((F.stackValues V m).length - n)
  locals : ∀ i, F.localValue m' i = F.localValue m i
  spilled : n ≤ V.length → ∃ k, V' = (V.take (V.length - n)).drop k ∧
    m'.stack = ((V.take k).map (F.value m)).reverse ++ m.stack
  taken : V.length < n → V' = [] ∧ m'.stack = m.stack.drop (n - V.length)

/-- **Arguments that are on the machine stack**: all are pushed, and popped. -/
theorem popAll_loaded (hF : F.Ok) (hV : Values V) (hn : n ≤ 6) (m : Machine) (hlen : n ≤ m.stack.length + V.length) (hshort : V.length < n) :
    ∃ m', run (flush F V ++ popArgs ((List.range n).map fun j => n - (j + 1))) m = some m' ∧ Loaded F n V m [] m' := by
  obtain ⟨m₁, hrun₁, hstack₁, hkeeps₁⟩ := flush_run hF V m hV.placed
  have hvalues : F.stackValues V m = m₁.stack.reverse := by
    rw [Frame.stackValues, hstack₁, List.reverse_append, List.reverse_reverse]
  have htotal : m₁.stack.length = V.length + m.stack.length := by
    rw [hstack₁, List.length_append, List.length_reverse, List.length_map]
  obtain ⟨top, rest, hsplit, htop⟩ : ∃ top rest, m₁.stack = top ++ rest ∧ top.length = n :=
    ⟨m₁.stack.take n, m₁.stack.drop n, (List.take_append_drop n _).symm, by rw [List.length_take]; omega⟩
  -- the last argument is on top
  have hargs : top = ((List.range n).map fun j => n - (j + 1)).map fun i => top.getD (n - 1 - i) 0#64 := by
    refine List.ext_getElem (by simp [htop]) fun k hk _ => ?_
    rw [List.getElem_map, List.getElem_map, List.getElem_range, show n - 1 - (n - (k + 1)) = k by omega, List.getD_eq_getElem?_getD,
      List.getElem?_eq_getElem hk, Option.getD_some]
  have hsmall : ∀ i ∈ (List.range n).map fun j => n - (j + 1), i < 6 := fun i hi => by
    obtain ⟨j, hj, rfl⟩ := List.mem_map.mp hi
    rw [List.mem_range] at hj
    omega
  obtain ⟨m₂, hrun₂, hstack₂, hin, _, hkeeps₂⟩ := popArgs_run (fun i => top.getD (n - 1 - i) 0#64) rest _ m₁ hsmall (hargs ▸ hsplit)
  have hlong : (F.stackValues V m).length = n + rest.length := by
    rw [hvalues, List.length_reverse, hsplit, List.length_append, htop]
  have hrev : F.stackValues V m = rest.reverse ++ top.reverse := by rw [hvalues, hsplit, List.reverse_append]
  have hskip : (F.stackValues V m).length - n = rest.reverse.length := by
    rw [List.length_reverse]
    omega
  refine ⟨m₂, ?_, fun i hi => ?_, ?_, fun i => ?_, fun hle => by omega, fun _ => ⟨rfl, ?_⟩⟩
  · rw [run_append, hrun₁]
    exact hrun₂
  · rw [hin i (List.mem_map.mpr ⟨n - (i + 1), List.mem_range.mpr (by omega), by omega⟩), hskip, hrev,
      List.getElem?_append_right (by omega), Nat.add_sub_cancel_left, List.getElem?_reverse (by omega), htop,
      List.getD_eq_getElem?_getD, List.getElem?_eq_getElem (by omega), Option.getD_some]
  · rw [hskip, hrev, List.take_left, Frame.stackValues, hstack₂, List.map_nil, List.append_nil]
  · rw [hkeeps₂.localValue hF not_isArg, hkeeps₁.localValue hF not_eleven]
  · have hdrop : rest = m₁.stack.drop n := by rw [hsplit, ← htop, List.drop_left]
    rw [hstack₂, hdrop, hstack₁, List.drop_append, List.length_reverse, List.length_map, List.drop_eq_nil_of_le, List.nil_append]
    rw [List.length_reverse, List.length_map]
    omega

/-- **Arguments in the virtual part**, when the lowest `k` values are pushed first and no other below the arguments is
in a register. -/
theorem placeArgs_loaded (hF : F.Ok) (hV : Values V) (hn : n ≤ 6) (hfuel : n < fuel) (m : Machine) (hle : n ≤ V.length) {k : Nat} (hk : k ≤ V.length - n)
    (hbelow : ∀ o ∈ (V.take (V.length - n)).drop k, o.kind ≠ .reg) :
    let arg := fun i => (V.drop k).getD ((V.drop k).length - n + i) default
    Ends (fun s => ∃ m', run (flush F (V.take k) ++ (s.code ++ (popArgs s.parked.reverse ++ loadRest F n arg))) m = some m' ∧
      Loaded F n V m ((V.drop k).take ((V.drop k).length - n)) m') (iterate (movesRound n) fuel (startMoves n arg)) := by
  intro arg
  have hplaced := hV.placed
  have hdropped : (V.drop k).length = V.length - k := List.length_drop
  have hrest : (V.drop k).take ((V.drop k).length - n) = (V.take (V.length - n)).drop k := by
    rw [List.drop_take, hdropped]
    congr 1
    omega
  have harg : ∀ i, arg i = V.getD (V.length - n + i) default := fun i => by
    show (V.drop k).getD _ default = _
    rw [List.getD_eq_getElem?_getD, List.getD_eq_getElem?_getD, List.getElem?_drop, hdropped]
    congr 2
    omega
  have hargPlaced : ∀ i < n, (arg i).Placed := fun i hi => by
    rw [harg]
    exact placed_getD hplaced (by omega)
  obtain ⟨m₁, hrun₁, hstack₁, hkeeps₁⟩ := flush_run hF (V.take k) m fun o ho => hplaced o (List.mem_of_mem_take ho)
  refine (placeArgs_run hF hn hfuel hargPlaced m₁).mono fun s ⟨m', hrun, hstack, hkeeps, hargs⟩ => ⟨m', ?_, ?_⟩
  · rw [run_append, hrun₁]
    exact hrun
  have htotal : (F.stackValues V m).length = m.stack.length + V.length := by
    rw [Frame.stackValues, List.length_append, List.length_reverse, List.length_map]
  refine ⟨fun i hi => ?_, ?_, fun i => ?_, fun _ => ⟨k, hrest, ?_⟩, fun hshort => absurd hshort (by omega)⟩
  · have hsame : F.value m₁ (arg i) = F.value m (arg i) := hkeeps₁.value hF not_eleven (hargPlaced i hi).ne_eleven
    rw [hargs i hi, hsame, harg, htotal, Frame.stackValues, List.getElem?_append_right (by rw [List.length_reverse]; omega), List.length_reverse,
      show m.stack.length + V.length - n + i - m.stack.length = V.length - n + i by omega, List.getElem?_map,
      List.getElem?_eq_getElem (by omega), Option.map_some, List.getD_eq_getElem?_getD, List.getElem?_eq_getElem (by omega), Option.getD_some]
  · have hsame : ((V.take (V.length - n)).drop k).map (F.value m') = ((V.take (V.length - n)).drop k).map (F.value m) :=
      List.map_congr_left fun o ho => by
        have hmem : o ∈ V := List.mem_of_mem_take (List.mem_of_mem_drop ho)
        rw [hkeeps.value hF not_isArg fun hkind => absurd hkind (hbelow o ho)]
        exact hkeeps₁.value hF not_eleven (hplaced o hmem).ne_eleven
    have htake : V.take k = (V.take (V.length - n)).take k := by rw [List.take_take, min_eq_left hk]
    have hfirst : (F.stackValues V m).length - n = m.stack.reverse.length + (V.length - n) := by
      rw [htotal, List.length_reverse]
      omega
    rw [hrest, Frame.stackValues, hsame, hstack, hstack₁, List.reverse_append, List.reverse_reverse, List.append_assoc, ← List.map_append, htake,
      List.take_append_drop, hfirst, Frame.stackValues, List.take_length_add_append, List.map_take]
  · rw [hkeeps.localValue hF not_isArg, hkeeps₁.localValue hF not_eleven]
  · rw [hstack, hstack₁]

/-- **The arguments reach their registers**, wherever they are, and `load_args` ends. -/
theorem loadArgs_places (hF : F.Ok) (hV : Values V) (hn : n ≤ 6) (hfuel : n < fuel) (m : Machine) (hlen : n ≤ m.stack.length + V.length) :
    Ends (fun r => ∃ m', run r.2 m = some m' ∧ Loaded F n V m r.1 m') (loadArgs F fuel n V) := by
  rw [loadArgs]
  by_cases hshort : V.length < n
  · rw [if_pos hshort]
    exact popAll_loaded hF hV hn m hlen hshort
  · rw [if_neg hshort]
    have hle : n ≤ V.length := Nat.le_of_not_lt hshort
    cases hkeep : (V.take (V.length - n)).all fun o => decide (o.kind = .local_ ∨ o.kind = .const32 ∨ o.kind = .const64) with
    | true =>
      -- what is below the arguments stays where it is
      have hbelow : ∀ o ∈ V.take (V.length - n), o.kind ≠ .reg := fun o ho hk => by
        have hall := of_decide_eq_true (List.all_eq_true.mp hkeep o ho)
        rw [hk] at hall
        simp at hall
      exact ends_bind (placeArgs_loaded hF hV hn hfuel m hle (Nat.zero_le _) hbelow) fun s h => h
    | false =>
      have hnone : ∀ o ∈ (V.take (V.length - n)).drop (V.length - n), o.kind ≠ .reg := fun o ho => by
        rw [List.drop_eq_nil_of_le (by rw [List.length_take]; omega)] at ho
        exact absurd ho List.not_mem_nil
      simp only [Bool.not_false, if_true, keepTop_eq]
      exact ends_bind (placeArgs_loaded hF hV hn hfuel m hle le_rfl hnone) fun s h => h

/-- Two arguments that are each in the other's register, above a constant. -/
theorem loadArgs_swaps : Ends (fun r => ∃ m', run r.2 ⟨fun r => BitVec.ofNat 64 r, fun _ => 0#64, none, [], fun _ => 0#64⟩ = some m' ∧
      Loaded ⟨0, true, fun _ => -1, fun _ => -1⟩ 2 [⟨.const32, 9⟩, ⟨.reg, 6⟩, ⟨.reg, 7⟩]
        ⟨fun r => BitVec.ofNat 64 r, fun _ => 0#64, none, [], fun _ => 0#64⟩ r.1 m')
    (loadArgs ⟨0, true, fun _ => -1, fun _ => -1⟩ 3 2 [⟨.const32, 9⟩, ⟨.reg, 6⟩, ⟨.reg, 7⟩]) := by
  refine loadArgs_places ⟨fun i => .inl (show (-1 : Int) < 0 by decide)⟩ ⟨fun o ho => ?_, by decide⟩ (by decide) (by decide) _ (by decide)
  simp only [List.mem_cons, List.not_mem_nil, or_false] at ho
  rcases ho with rfl | rfl | rfl
  · trivial
  · exact .inr (.inl rfl)
  · exact .inr (.inr rfl)

end Aipl.Native.Lower
