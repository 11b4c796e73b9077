import Aipl.Compiler.Opt.Node
import Aipl.Lib.Bits
import Aipl.Lib.Parity
import Mathlib.Logic.Relation

/-! # The parity analysis

`is_known_even` accepts expressions whose value is even, among them a product `e * (e + 1)` whose
two `e` are structurally equal.  Two copies of an expression need not have one value: a call may
return another one the second time.

* `isKnownEven_eq` — the analysis, as the source writes it.
* `isEven_of_settled` — what it accepts is even where the products of copies are.
* `parity_exact` — it is right, on the expression and on those its answer rests on, exactly when no
  such product evaluates its copies with parities that make both factors odd.
-/

namespace Aipl.Compiler.Opt

open Aipl.Lib ONode

/-- The literal 1. -/
def isOne (n : ONode) : Bool := isIntNode n && n.ival == 1#32

/-- `is_plus_minus_one`: `b` is `(+ a 1)`, `(+ 1 a)` or `(- a 1)`. -/
def isPlusMinusOne (a b : ONode) : Bool :=
  if a.kind == none || b.kind == none then false
  else if isForm b "+" then
    (isOne (onodeNth b 2) && nodeEq a (onodeNth b 1)) ||
      (isOne (onodeNth b 1) && nodeEq a (onodeNth b 2))
  else if isForm b "-" then isOne (onodeNth b 2) && nodeEq a (onodeNth b 1)
  else false

/-- The cases of `is_known_even` for a form `n` with operands `a` and `b`, which are known to be even
or not. -/
def evenForm (n a b : ONode) (evenA evenB : Bool) : Bool :=
  if isForm n "shl" then isIntNode b && (0#32).slt (b.ival &&& 31#32)
  else if isForm n "*" then evenA || (evenB || (isPlusMinusOne a b || isPlusMinusOne b a))
  else if isForm n "bitand" then evenA || evenB
  else if isForm n "+" || (isForm n "-" || (isForm n "bitor" || isForm n "^")) then evenA && evenB
  else false

def isKnownEven : ONode → Bool
  | null => false
  | node k t i l p f nx =>
    if isIntNode (node k t i l p f nx) then i &&& 1#32 == 0#32
    else if k != .paren then false
    else
      match f with
      | null => evenForm (node k t i l p null nx) null null false false
      | node hk ht hi hl hp hf null =>
        evenForm (node k t i l p (node hk ht hi hl hp hf null) nx) null null false false
      | node hk ht hi hl hp hf (node ak at' ai al ap af b) =>
        let a := node ak at' ai al ap af b
        evenForm (node k t i l p (node hk ht hi hl hp hf a) nx) a b (isKnownEven a) (isKnownEven b)

/-- `is_known_even`, its operands reached by `onode_nth`. -/
theorem isKnownEven_eq (n : ONode) : isKnownEven n =
    if n.kind == none then false
    else if isIntNode n then n.ival &&& 1#32 == 0#32
    else if n.kind != some .paren then false
    else evenForm n (onodeNth n 1) (onodeNth n 2) (isKnownEven (onodeNth n 1))
      (isKnownEven (onodeNth n 2)) := by
  cases n with
  | null => rfl
  | node k t i l p f nx =>
    rw [isKnownEven.eq_def]
    cases f with
    | null => rfl
    | node hk ht hi hl hp hf c =>
      cases c with
      | null => rfl
      | node ak at' ai al ap af b => rfl

variable {n a b : ONode}

theorem kind_of_isForm {kw : String} (h : isForm n kw = true) : n.kind = some .paren := by
  simp only [isForm, Bool.and_eq_true, beq_iff_eq] at h
  exact h.1

/-- On a form, the analysis is its cases. -/
theorem isKnownEven_form {kw : String} (h : isForm n kw = true) : isKnownEven n =
    evenForm n (onodeNth n 1) (onodeNth n 2) (isKnownEven (onodeNth n 1))
      (isKnownEven (onodeNth n 2)) := by
  rw [isKnownEven_eq, not_isInt_of_isForm h, kind_of_isForm h]
  rfl

theorem isForm_eq_false {o : IntOp} (h : isForm n o.name = true) (o' : IntOp) (hne : o ≠ o') :
    isForm n o'.name = false := by
  cases h' : isForm n o'.name with
  | false => rfl
  | true => exact absurd (isForm_unique h h') hne

theorem isKnownEven_mul (h : isForm n IntOp.mul.name = true) : isKnownEven n =
    (isKnownEven (onodeNth n 1) || (isKnownEven (onodeNth n 2) ||
      (isPlusMinusOne (onodeNth n 1) (onodeNth n 2) ||
        isPlusMinusOne (onodeNth n 2) (onodeNth n 1)))) := by
  have hshl : isForm n "shl" = false := isForm_eq_false h .shl (by decide)
  rw [isKnownEven_form h, evenForm, hshl, if_neg Bool.false_ne_true]
  exact if_pos h

/-- The operators that are even when both operands are. -/
def IntOp.bothEven : IntOp → Prop
  | .add | .sub | .bitor | .xor => True
  | _ => False

/-- **What the analysis accepts.** -/
theorem isKnownEven_cases (h : isKnownEven n = true) :
    (isIntNode n = true ∧ IsEven n.ival) ∨
    (isForm n IntOp.shl.name = true ∧ isIntNode (onodeNth n 2) = true ∧
      (0#32).slt ((onodeNth n 2).ival &&& 31#32) = true) ∨
    (isForm n IntOp.mul.name = true ∧ (isKnownEven (onodeNth n 1) = true ∨
      isKnownEven (onodeNth n 2) = true ∨ isPlusMinusOne (onodeNth n 1) (onodeNth n 2) = true ∨
      isPlusMinusOne (onodeNth n 2) (onodeNth n 1) = true)) ∨
    (isForm n IntOp.bitand.name = true ∧
      (isKnownEven (onodeNth n 1) = true ∨ isKnownEven (onodeNth n 2) = true)) ∨
    ∃ o : IntOp, o.bothEven ∧ isForm n o.name = true ∧
      isKnownEven (onodeNth n 1) = true ∧ isKnownEven (onodeNth n 2) = true := by
  rw [isKnownEven_eq] at h
  split at h
  · cases h
  split at h
  · rename_i hint
    exact .inl ⟨hint, and_one_iff.mp h⟩
  split at h
  · cases h
  rw [evenForm] at h
  split at h
  · rename_i hshl
    rw [Bool.and_eq_true] at h
    exact .inr (.inl ⟨hshl, h⟩)
  split at h
  · rename_i hmul
    simp only [Bool.or_eq_true] at h
    exact .inr (.inr (.inl ⟨hmul, h⟩))
  split at h
  · rename_i hand
    rw [Bool.or_eq_true] at h
    exact .inr (.inr (.inr (.inl ⟨hand, h⟩)))
  split at h
  · rename_i hboth
    rw [Bool.and_eq_true] at h
    simp only [Bool.or_eq_true] at hboth
    refine .inr (.inr (.inr (.inr ?_)))
    rcases hboth with hform | hform | hform | hform
    · exact ⟨.add, trivial, hform, h⟩
    · exact ⟨.sub, trivial, hform, h⟩
    · exact ⟨.bitor, trivial, hform, h⟩
    · exact ⟨.xor, trivial, hform, h⟩
  · cases h

/-! ### The two copies of an expression -/

/-- The operand of `b` that `is_plus_minus_one` compares with `a`. -/
def copyIn (a b : ONode) : ONode :=
  if isForm b "+" && !(isOne (onodeNth b 2) && nodeEq a (onodeNth b 1)) then onodeNth b 2
  else onodeNth b 1

/-- A product that is accepted for being of the form `e * (e + 1)` only. -/
structure Consecutive (n : ONode) : Prop where
  form : isForm n IntOp.mul.name = true
  left : isKnownEven (onodeNth n 1) = false
  right : isKnownEven (onodeNth n 2) = false
  consecutive : isPlusMinusOne (onodeNth n 1) (onodeNth n 2) = true ∨
    isPlusMinusOne (onodeNth n 2) (onodeNth n 1) = true

section Meaning

variable {σ : Type} (other : ONode → σ → BitVec 32 → σ → Prop)

/-- Evaluating the two copies in the product `n` of the form `e * (e + 1)`, one after the other, never
gives an odd value to the copy that is a factor and an even one to that in the other factor. -/
def NoFlip (n : ONode) : Prop :=
  if isPlusMinusOne (onodeNth n 1) (onodeNth n 2) then
    ∀ s x s₁ y s₂, Eval other (onodeNth n 1) s x s₁ →
      Eval other (copyIn (onodeNth n 1) (onodeNth n 2)) s₁ y s₂ → IsEven y → IsEven x
  else
    ∀ s y s₁ x s₂, Eval other (copyIn (onodeNth n 2) (onodeNth n 1)) s y s₁ →
      Eval other (onodeNth n 2) s₁ x s₂ → IsEven y → IsEven x

variable {other} {s s' : σ} {v : BitVec 32}

theorem isOne_eval (h : isOne n = true) (he : Eval other n s v s') : v = 1#32 ∧ s' = s := by
  rw [isOne, Bool.and_eq_true, beq_iff_eq] at h
  obtain ⟨rfl, rfl⟩ := he.int_inv h.1
  exact ⟨h.2, rfl⟩

theorem eval_isOne (h : isOne n = true) : Eval other n s 1#32 s := by
  rw [isOne, Bool.and_eq_true, beq_iff_eq] at h
  have he : Eval other n s n.ival s := .int h.1
  rwa [h.2] at he

theorem isEven_one : ¬ IsEven 1#32 := by decide

/-- The factor that is the other plus or minus one has the parity its copy has not. -/
theorem eval_plusMinusOne (h : isPlusMinusOne a b = true) (he : Eval other b s v s') :
    ∃ y, Eval other (copyIn a b) s y s' ∧ (IsEven v ↔ ¬ IsEven y) := by
  rw [isPlusMinusOne] at h
  split at h
  · cases h
  split at h
  · rename_i hadd
    obtain ⟨x, y, s₁, hx, hy, hv⟩ := he.op_inv (o := .add) hadd
    cases hv
    cases hfirst : isOne (onodeNth b 2) && nodeEq a (onodeNth b 1) with
    | true =>
      rw [Bool.and_eq_true] at hfirst
      obtain ⟨rfl, rfl⟩ := isOne_eval hfirst.1 hy
      refine ⟨x, ?_, ?_⟩
      · rw [copyIn, hadd, hfirst.1, hfirst.2]
        exact hx
      · simp [isEven_add_iff, isEven_one]
    | false =>
      rw [hfirst, Bool.false_or, Bool.and_eq_true] at h
      obtain ⟨rfl, rfl⟩ := isOne_eval h.1 hx
      refine ⟨y, ?_, ?_⟩
      · rw [copyIn, hadd, hfirst]
        exact hy
      · simp [isEven_add_iff, isEven_one]
  split at h
  · rename_i hadd hsub
    rw [Bool.and_eq_true] at h
    obtain ⟨x, y, s₁, hx, hy, hv⟩ := he.op_inv (o := .sub) hsub
    cases hv
    obtain ⟨rfl, rfl⟩ := isOne_eval h.1 hy
    refine ⟨x, ?_, ?_⟩
    · rw [copyIn, Bool.eq_false_iff.mpr hadd]
      exact hx
    · simp [isEven_sub_iff, isEven_one]
  · cases h

theorem plusMinusOne_eval (h : isPlusMinusOne a b = true) {y : BitVec 32}
    (he : Eval other (copyIn a b) s y s') : ∃ v, Eval other b s v s' ∧ (IsEven v ↔ ¬ IsEven y) := by
  rw [isPlusMinusOne] at h
  split at h
  · cases h
  split at h
  · rename_i hadd
    cases hfirst : isOne (onodeNth b 2) && nodeEq a (onodeNth b 1) with
    | true =>
      rw [copyIn, hadd, hfirst] at he
      rw [Bool.and_eq_true] at hfirst
      exact ⟨y + 1#32, .op .add hadd he (eval_isOne hfirst.1) rfl, by
        simp [isEven_add_iff, isEven_one]⟩
    | false =>
      rw [copyIn, hadd, hfirst] at he
      rw [hfirst, Bool.false_or, Bool.and_eq_true] at h
      exact ⟨1#32 + y, .op .add hadd (eval_isOne h.1) he rfl, by
        simp [isEven_add_iff, isEven_one]⟩
  split at h
  · rename_i hadd hsub
    rw [Bool.and_eq_true] at h
    rw [copyIn, Bool.eq_false_iff.mpr hadd] at he
    exact ⟨y - 1#32, .op .sub hsub he (eval_isOne h.1) rfl, by simp [isEven_sub_iff, isEven_one]⟩
  · cases h

/-- Every value is even. -/
def AlwaysEven (other : ONode → σ → BitVec 32 → σ → Prop) (n : ONode) : Prop :=
  ∀ s v s', Eval other n s v s' → IsEven v

/-- A product of the form `e * (e + 1)` is even exactly where its copies do not flip. -/
theorem alwaysEven_consecutive_iff (h : Consecutive n) : AlwaysEven other n ↔ NoFlip other n := by
  rw [NoFlip]
  split
  · rename_i hpm
    constructor
    · intro heven s x s₁ y s₂ hx hy hyeven
      obtain ⟨v, hv, hparity⟩ := plusMinusOne_eval hpm hy
      have hprod := heven s (x * v) s₂ (.op .mul h.form hx hv rfl)
      exact (isEven_mul_iff.mp hprod).resolve_right fun hveven => hparity.mp hveven hyeven
    · intro hflip s v s' he
      obtain ⟨x, w, s₁, hx, hw, hv⟩ := he.op_inv h.form
      cases hv
      obtain ⟨y, hy, hparity⟩ := eval_plusMinusOne hpm hw
      rw [isEven_mul_iff]
      by_cases hyeven : IsEven y
      · exact .inl (hflip s x s₁ y s' hx hy hyeven)
      · exact .inr (hparity.mpr hyeven)
  · rename_i hpm
    have hpm := h.consecutive.resolve_left hpm
    constructor
    · intro heven s y s₁ x s₂ hy hx hyeven
      obtain ⟨v, hv, hparity⟩ := plusMinusOne_eval hpm hy
      have hprod := heven s (v * x) s₂ (.op .mul h.form hv hx rfl)
      exact (isEven_mul_iff.mp hprod).resolve_left fun hveven => hparity.mp hveven hyeven
    · intro hflip s v s' he
      obtain ⟨w, x, s₁, hw, hx, hv⟩ := he.op_inv h.form
      cases hv
      obtain ⟨y, hy, hparity⟩ := eval_plusMinusOne hpm hw
      rw [isEven_mul_iff]
      by_cases hyeven : IsEven y
      · exact .inr (hflip s y s₁ x s' hy hx hyeven)
      · exact .inl (hparity.mpr hyeven)

end Meaning

/-! ### What an answer rests on -/

/-- `is_known_even n` answers true for its answer on `m`, an operand. -/
inductive Asks : ONode → ONode → Prop where
  | first {n : ONode} (o : IntOp) (ho : o = .mul ∨ o = .bitand) (hn : isForm n o.name = true)
      (h : isKnownEven (onodeNth n 1) = true) : Asks n (onodeNth n 1)
  | second {n : ONode} (o : IntOp) (ho : o = .mul ∨ o = .bitand) (hn : isForm n o.name = true)
      (hfirst : isKnownEven (onodeNth n 1) = false) (h : isKnownEven (onodeNth n 2) = true) :
      Asks n (onodeNth n 2)
  | bothFirst {n : ONode} (o : IntOp) (ho : o.bothEven) (hn : isForm n o.name = true)
      (h₁ : isKnownEven (onodeNth n 1) = true) (h₂ : isKnownEven (onodeNth n 2) = true) :
      Asks n (onodeNth n 1)
  | bothSecond {n : ONode} (o : IntOp) (ho : o.bothEven) (hn : isForm n o.name = true)
      (h₁ : isKnownEven (onodeNth n 1) = true) (h₂ : isKnownEven (onodeNth n 2) = true) :
      Asks n (onodeNth n 2)

/-- The answer on `n` rests on the one on `m`: `m` is `n`, or an operand asked about on the way. -/
def RestsOn : ONode → ONode → Prop := Relation.ReflTransGen Asks

section Meaning

variable {σ : Type} {other : ONode → σ → BitVec 32 → σ → Prop} {s s' : σ} {v : BitVec 32}

/-- The products of copies that the answer on `n` rests on do not flip. -/
def Settled (other : ONode → σ → BitVec 32 → σ → Prop) (n : ONode) : Prop :=
  ∀ m, RestsOn n m → Consecutive m → NoFlip other m

theorem Settled.asks {m : ONode} (h : Settled other n) (hnm : Asks n m) : Settled other m :=
  fun k hk => h k (.head hnm hk)

/-- An operator of even operands gives an even value. -/
theorem isEven_bothEven {o : IntOp} {x y : BitVec 32} (ho : o.bothEven) (hx : IsEven x)
    (hy : IsEven y) (hv : o.apply x y = some v) : IsEven v := by
  cases o with
  | add =>
    cases hv
    exact isEven_add_iff.mpr (iff_of_true hx hy)
  | sub =>
    cases hv
    exact isEven_sub_iff.mpr (iff_of_true hx hy)
  | bitor =>
    cases hv
    exact isEven_or_iff.mpr ⟨hx, hy⟩
  | xor =>
    cases hv
    exact isEven_xor_iff.mpr (iff_of_true hx hy)
  | mul => exact ho.elim
  | div => exact ho.elim
  | shl => exact ho.elim
  | shr => exact ho.elim
  | bitand => exact ho.elim

/-- A count that is not zero modulo the width, as the analysis tests it. -/
theorem shift_count_pos {y : BitVec 32} (h : (0#32).slt (y &&& 31#32) = true) : 0 < y.toNat % 32 := by
  have hmask : (y &&& 31#32).toNat = y.toNat % 32 := by
    rw [BitVec.toNat_and]
    exact Nat.and_two_pow_sub_one_eq_mod y.toNat 5
  rw [zero_slt_iff (by omega), hmask] at h
  exact h

/-- **What the analysis accepts is even**, where the products of copies its answer rests on are. -/
theorem alwaysEven_of_settled (h : isKnownEven n = true) (hset : Settled other n) :
    AlwaysEven other n := by
  induction n using operands_induction with
  | hnull => cases h
  | hnode n _ ih₁ ih₂ =>
    intro s v s' he
    rcases isKnownEven_cases h with
      ⟨hint, heven⟩ | ⟨hshl, hint, hcount⟩ | ⟨hmul, hcases⟩ | ⟨hand, hcases⟩ | ⟨o, ho, hn, h₁, h₂⟩
    · obtain ⟨rfl, -⟩ := he.int_inv hint
      exact heven
    · obtain ⟨x, y, s₁, -, hy, hv⟩ := he.op_inv hshl
      obtain ⟨rfl, -⟩ := hy.int_inv hint
      cases hv
      exact isEven_shl (shift_count_pos hcount)
    · cases h₁ : isKnownEven (onodeNth n 1) with
      | true =>
        obtain ⟨x, y, s₁, hx, -, hv⟩ := he.op_inv hmul
        cases hv
        exact isEven_mul_iff.mpr (.inl (ih₁ h₁ (hset.asks (.first .mul (.inl rfl) hmul h₁)) _ _ _ hx))
      | false =>
        cases h₂ : isKnownEven (onodeNth n 2) with
        | true =>
          obtain ⟨x, y, s₁, -, hy, hv⟩ := he.op_inv hmul
          cases hv
          exact isEven_mul_iff.mpr
            (.inr (ih₂ h₂ (hset.asks (.second .mul (.inl rfl) hmul h₁ h₂)) _ _ _ hy))
        | false =>
          have hpm := (hcases.resolve_left (by simp [h₁])).resolve_left (by simp [h₂])
          have hcons : Consecutive n := ⟨hmul, h₁, h₂, hpm⟩
          exact (alwaysEven_consecutive_iff hcons).mpr (hset n .refl hcons) s v s' he
    · obtain ⟨x, y, s₁, hx, hy, hv⟩ := he.op_inv hand
      cases hv
      rw [isEven_and_iff]
      cases h₁ : isKnownEven (onodeNth n 1) with
      | true => exact .inl (ih₁ h₁ (hset.asks (.first .bitand (.inr rfl) hand h₁)) _ _ _ hx)
      | false =>
        have h₂ := hcases.resolve_left (by simp [h₁])
        exact .inr (ih₂ h₂ (hset.asks (.second .bitand (.inr rfl) hand h₁ h₂)) _ _ _ hy)
    · obtain ⟨x, y, s₁, hx, hy, hv⟩ := he.op_inv hn
      exact isEven_bothEven ho (ih₁ h₁ (hset.asks (.bothFirst o ho hn h₁ h₂)) _ _ _ hx)
        (ih₂ h₂ (hset.asks (.bothSecond o ho hn h₁ h₂)) _ _ _ hy) hv

/-! ### The rewrite -/

/-- The branch of `fold_binary` that turns `(/ a 2)` into `(shr a 1)`. -/
def halve (n : ONode) (pos : BitVec 32) : ONode :=
  let a := onodeNth n 1
  let b := onodeNth n 2
  if isForm n "/" && (isIntNode b && (b.ival == 2#32 && isKnownEven a)) then
    makeOp2 "shr" a (makeInt 1#32 pos) pos
  else n

/-- The analysis is right on `n`: an expression it accepts is even, and the rewrite of a division of it
keeps the result of every run. -/
def Sound (other : ONode → σ → BitVec 32 → σ → Prop) (n : ONode) : Prop :=
  isKnownEven n = true → AlwaysEven other n ∧
    ∀ d pos, onodeNth d 1 = n → ∀ s v s', Eval other d s v s' ↔ Eval other (halve d pos) s v s'

theorem eval_halve_iff {d : ONode} (heven : AlwaysEven other (onodeNth d 1)) (pos : BitVec 32) :
    Eval other d s v s' ↔ Eval other (halve d pos) s v s' := by
  rw [halve]
  split
  · rename_i hd
    simp only [Bool.and_eq_true, beq_iff_eq] at hd
    obtain ⟨hdiv, hint, htwo, hknown⟩ := hd
    have hkind : (onodeNth d 1).kind ≠ none := by
      intro hnone
      rw [isKnownEven_eq, hnone] at hknown
      cases hknown
    have hone : isIntNode (makeInt 1#32 pos) = true := rfl
    have hhalf : ∀ {x : BitVec 32}, IsEven x →
        IntOp.div.apply x 2#32 = IntOp.shr.apply x 1#32 := by
      intro x hx
      change (if 2#32 = 0 ∨ _ ∧ 2#32 = -1 then none else some (x.sdiv 2#32)) = some (x.sshiftRight 1)
      rw [if_neg (by simp), sdiv_two hx]
    refine Iff.trans ?_ (eval_makeOp2_iff .shr hkind).symm
    constructor
    · intro he
      obtain ⟨x, y, s₁, hx, hy, hv⟩ := he.op_inv (o := .div) hdiv
      obtain ⟨rfl, rfl⟩ := hy.int_inv hint
      rw [htwo, hhalf (heven _ _ _ hx)] at hv
      exact ⟨x, 1#32, s', hx, .int hone, hv⟩
    · rintro ⟨x, y, s₁, hx, hy, hv⟩
      obtain ⟨rfl, rfl⟩ := hy.int_inv hone
      have htwo' : Eval other (onodeNth d 2) s' 2#32 s' := htwo ▸ .int hint
      exact .op .div hdiv hx htwo' ((hhalf (heven _ _ _ hx)).trans hv)
  · exact Iff.rfl

/-- **When the parity analysis is right.**  For any meaning of the forms it does not look into, the
analysis is right on `n` and on the expressions its answer rests on exactly when none of those is a
product of the form `e * (e + 1)`, accepted for that only, whose copies of `e` flip. -/
theorem parity_exact (other : ONode → σ → BitVec 32 → σ → Prop) (n : ONode) :
    (∀ m, RestsOn n m → Sound other m) ↔ Settled other n := by
  constructor
  · intro h m hm hcons
    have hknown : isKnownEven m = true := by
      rw [isKnownEven_mul hcons.form]
      rcases hcons.consecutive with hpm | hpm <;> simp [hpm]
    exact (alwaysEven_consecutive_iff hcons).mp (h m hm hknown).1
  · intro h m hm hknown
    have heven : AlwaysEven other m := alwaysEven_of_settled hknown fun k hk => h k (hm.trans hk)
    refine ⟨heven, fun d pos hd s v s' => eval_halve_iff ?_ pos⟩
    rw [hd]
    exact heven

end Meaning

/-! ### A product of two calls -/

/-- `(call f)`, before the sibling `next`. -/
def callF (next : ONode) : ONode :=
  node .paren none 0 0 0 ((makeSym "call" 0).withNext (makeSym "f" 0)) next

/-- `(* (call f) (+ (call f) 1))`, before the sibling `next`. -/
def callTwice (next : ONode) : ONode :=
  node .paren none 0 0 0 ((makeSym "*" 0).withNext (callF (node .paren none 0 0 0
    ((makeSym "+" 0).withNext (callF (node .int (some "1") 1 0 0 null null))) null))) next

/-- The state is what `f` returns, call by call. -/
def calls (n : ONode) (s : List (BitVec 32)) (v : BitVec 32) (s' : List (BitVec 32)) : Prop :=
  isForm n "call" = true ∧ s = v :: s'

theorem eval_callF (v : BitVec 32) (s : List (BitVec 32)) (next : ONode) :
    Eval calls (callF next) (v :: s) v s := by
  refine .other (Option.some_ne_none _) rfl (fun o => ?_) ⟨rfl, rfl⟩
  cases o <;> rfl

theorem eval_callTwice (v w : BitVec 32) (s : List (BitVec 32)) (next : ONode) :
    Eval calls (callTwice next) (v :: w :: s) (v * (w + 1#32)) s := by
  refine .op .mul rfl (eval_callF v (w :: s) _) ?_ rfl
  exact .op .add rfl (eval_callF w s _) (.int rfl) rfl

/-- The product is accepted; where `f` returns -1 and then 2 it is -3, `(/ _ 2)` is -1, and what the
division is rewritten to is -2. -/
theorem callTwice_odd :
    isKnownEven (callTwice null) = true ∧ ¬ AlwaysEven calls (callTwice null) ∧
    let half := node .paren none 0 0 0 ((makeSym "/" 0).withNext
      (callTwice (node .int (some "2") 2 0 0 null null))) null
    Eval calls half [-1#32, 2#32] (-1#32) [] ∧ Eval calls (halve half 0) [-1#32, 2#32] (-2#32) [] := by
  have hprod := fun next => eval_callTwice (-1#32) 2#32 [] next
  refine ⟨by decide, fun h => ?_, ?_, ?_⟩
  · exact absurd (h _ _ _ (hprod null)) (by decide)
  · exact .op .div rfl (hprod _) (.int rfl) (by decide)
  · exact .op .shr rfl (hprod _) (.int rfl) (by decide)

end Aipl.Compiler.Opt
