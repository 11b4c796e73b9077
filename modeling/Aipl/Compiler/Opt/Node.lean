import Aipl.Lib.Bits
import Mathlib.Data.BitVec

/-! # The optimiser's nodes

`codegen_opt` works on a tree of `ONode`s: a node has its kind, its token's text and value, the first
of its children, and its next sibling.  `null` is a pointer to no node.

* `ONode.nodeEq` — the structural equality of two nodes.
* `Eval` — what an expression may evaluate to, the forms the parity analysis does not look into being
  a parameter.
-/

namespace Aipl.Compiler.Opt

inductive OKind where
  | sym
  | int
  | int64
  | float
  | float32
  | bool
  | string
  | colon
  | arrow
  | paren
  | bracket
deriving DecidableEq

/-- A node with its siblings; an absent text is `none`. -/
inductive ONode where
  | null
  | node (kind : OKind) (text : Option String) (ival : BitVec 32) (lval : BitVec 64)
      (pos : BitVec 32) (first next : ONode)

namespace ONode

def kind : ONode → Option OKind
  | null => none
  | node k _ _ _ _ _ _ => some k

def text : ONode → Option String
  | null => none
  | node _ t _ _ _ _ _ => t

def ival : ONode → BitVec 32
  | null => 0
  | node _ _ i _ _ _ _ => i

def first : ONode → ONode
  | null => null
  | node _ _ _ _ _ f _ => f

def next : ONode → ONode
  | null => null
  | node _ _ _ _ _ _ n => n

/-- The node with another next sibling. -/
def withNext : ONode → ONode → ONode
  | null, _ => null
  | node k t i l p f _, n => node k t i l p f n

end ONode

open ONode

/-! ### Literals -/

/-- `int_radix`. -/
def intRadix (s : List Char) : Nat :=
  let start := if s.head? = some '-' ∨ s.head? = some '+' then 1 else 0
  if s[start]? = some '0' then
    if s[start + 1]? = some 'x' then 16
    else if s[start + 1]? = some 'b' then 2
    else 10
  else 10

/-- `digit_value`. -/
def digitValue (c : Char) : Int :=
  if '0' ≤ c ∧ c ≤ '9' then c.toNat - 48
  else if 'a' ≤ c ∧ c ≤ 'f' then c.toNat - 87
  else if 'A' ≤ c ∧ c ≤ 'F' then c.toNat - 55
  else -1

/-- `int_literal_value`: decimal digits are accumulated downwards, those of a radix upwards. -/
def intLiteralValue (s : List Char) : BitVec 64 :=
  let neg := s.head? = some '-'
  let start := if neg ∨ s.head? = some '+' then 1 else 0
  if intRadix s = 10 then
    let v := (s.drop start).foldl (fun v c => v * 10#64 - BitVec.ofInt 64 (c.toNat - 48)) 0#64
    if neg then v else 0#64 - v
  else
    let v := (s.drop (start + 2)).foldl
      (fun v c => if c = '_' then v
        else v * BitVec.ofNat 64 (intRadix s) + BitVec.ofInt 64 (digitValue c)) 0#64
    if neg then 0#64 - v else v

/-- `text_fits_i32`. -/
def textFitsI32 : Option String → Bool
  | none => true
  | some t =>
    if t.toList = [] then false
    else
      let v := (intLiteralValue t.toList).toInt
      decide (-2147483648 ≤ v ∧ v ≤ 2147483647)

/-! ### Queries -/

/-- `onode_nth`. -/
def onodeNth (g : ONode) (idx : Nat) : ONode := ONode.next^[idx] g.first

/-- A property of the operands of a form, the form and `null`, holds of every node. -/
theorem operands_induction {P : ONode → Prop} (hnull : P null)
    (hnode : ∀ n, n.kind ≠ none → P (onodeNth n 1) → P (onodeNth n 2) → P n) : ∀ n, P n
  | null => hnull
  | node k t i l p null nx => hnode (node k t i l p null nx) (Option.some_ne_none k) hnull hnull
  | node k t i l p (node hk ht hi hl hp hf null) nx =>
    hnode (node k t i l p (node hk ht hi hl hp hf null) nx) (Option.some_ne_none k) hnull hnull
  | node k t i l p (node hk ht hi hl hp hf (node ak at' ai al ap af b)) nx =>
    hnode (node k t i l p (node hk ht hi hl hp hf (node ak at' ai al ap af b)) nx)
      (Option.some_ne_none k) (operands_induction hnull hnode (node ak at' ai al ap af b))
      (operands_induction hnull hnode b)

def isSym (n : ONode) (word : String) : Bool := n.kind == some .sym && n.text == some word

def isForm (g : ONode) (kw : String) : Bool := g.kind == some .paren && isSym g.first kw

def isIntNode (n : ONode) : Bool := n.kind == some .int && textFitsI32 n.text

/-- What `node_eq` compares of two nodes of one kind; `children` is the outcome for their children. -/
def payloadEq (k : OKind) (t t' : Option String) (i i' : BitVec 32) (l l' : BitVec 64)
    (children : Bool) : Bool :=
  match k with
  | .int | .bool => i == i'
  | .int64 => l == l'
  | .sym | .string | .float | .float32 => t == t'
  | .colon | .arrow => true
  | .paren | .bracket => children

/-- The loop of `node_eq` over two nodes and their siblings. -/
def siblingsEq : ONode → ONode → Bool
  | null, null => true
  | node k t i l _ f n, node k' t' i' l' _ f' n' =>
    (k == k' && payloadEq k t t' i i' l l' (siblingsEq f f')) && siblingsEq n n'
  | _, _ => false

/-- `node_eq`. -/
def nodeEq : ONode → ONode → Bool
  | null, null => true
  | node k t i l _ f _, node k' t' i' l' _ f' _ =>
    k == k' && payloadEq k t t' i i' l l' (siblingsEq f f')
  | _, _ => false

/-! ### Building nodes -/

def makeInt (v pos : BitVec 32) : ONode := node .int none v 0 pos null null

def makeSym (word : String) (pos : BitVec 32) : ONode := node .sym (some word) 0 0 pos null null

/-- `clone_node`: the node without its siblings. -/
def cloneNode (n : ONode) : ONode := n.withNext null

def makeOp2 (op : String) (a b : ONode) (pos : BitVec 32) : ONode :=
  node .paren none 0 0 pos
    ((makeSym op pos).withNext ((cloneNode a).withNext (cloneNode b))) null

/-! ### Evaluation -/

/-- The `i32` operators that the parity analysis and its rewrite know. -/
inductive IntOp where
  | add
  | sub
  | mul
  | div
  | shl
  | shr
  | bitand
  | bitor
  | xor
deriving DecidableEq

namespace IntOp

def name : IntOp → String
  | add => "+"
  | sub => "-"
  | mul => "*"
  | div => "/"
  | shl => "shl"
  | shr => "shr"
  | bitand => "bitand"
  | bitor => "bitor"
  | xor => "^"

/-- The instruction; `none` is a trap. -/
def apply : IntOp → BitVec 32 → BitVec 32 → Option (BitVec 32)
  | add, x, y => some (x + y)
  | sub, x, y => some (x - y)
  | mul, x, y => some (x * y)
  | div, x, y => if y = 0 ∨ (x = BitVec.intMin 32 ∧ y = -1) then none else some (x.sdiv y)
  | shl, x, y => some (x <<< (y.toNat % 32))
  | shr, x, y => some (x.sshiftRight (y.toNat % 32))
  | bitand, x, y => some (x &&& y)
  | bitor, x, y => some (x ||| y)
  | xor, x, y => some (x ^^^ y)

theorem name_injective {o o' : IntOp} (h : o.name = o'.name) : o = o' := by
  cases o <;> cases o' <;> first | rfl | exact absurd h (by decide)

end IntOp

section Eval

variable {σ : Type}

/-- `n` may evaluate to `v`, the state going from `s` to `s'`: a literal is its value, an operator
takes its operands from the left to the right, and `other` is the meaning of every other form
(variables, calls, blocks, the other operators). -/
inductive Eval (other : ONode → σ → BitVec 32 → σ → Prop) :
    ONode → σ → BitVec 32 → σ → Prop where
  | int {n : ONode} {s : σ} (h : isIntNode n = true) : Eval other n s n.ival s
  | op {n : ONode} {s s' s'' : σ} {x y v : BitVec 32} (o : IntOp) (hform : isForm n o.name = true)
      (ha : Eval other (onodeNth n 1) s x s') (hb : Eval other (onodeNth n 2) s' y s'')
      (hv : o.apply x y = some v) : Eval other n s v s''
  | other {n : ONode} {s s' : σ} {v : BitVec 32} (hnull : n.kind ≠ none)
      (hint : isIntNode n = false) (hform : ∀ o : IntOp, isForm n o.name = false)
      (h : other (cloneNode n) s v s') : Eval other n s v s'

variable {other : ONode → σ → BitVec 32 → σ → Prop} {n : ONode} {s s' : σ} {v : BitVec 32}

theorem isForm_unique {o o' : IntOp} (h : isForm n o.name = true) (h' : isForm n o'.name = true) :
    o = o' := by
  simp only [isForm, isSym, Bool.and_eq_true, beq_iff_eq] at h h'
  exact IntOp.name_injective (Option.some.inj (h.2.2.symm.trans h'.2.2))

theorem not_isInt_of_isForm {kw : String} (h : isForm n kw = true) : isIntNode n = false := by
  simp only [isForm, Bool.and_eq_true, beq_iff_eq] at h
  rw [isIntNode, h.1]
  rfl

theorem Eval.int_inv (h : Eval other n s v s') (hn : isIntNode n = true) : v = n.ival ∧ s' = s := by
  cases h with
  | int => exact ⟨rfl, rfl⟩
  | op o hform =>
    rw [not_isInt_of_isForm hform] at hn
    cases hn
  | other _ hint =>
    rw [hint] at hn
    cases hn

theorem Eval.op_inv {o : IntOp} (h : Eval other n s v s') (hn : isForm n o.name = true) :
    ∃ x y s₁, Eval other (onodeNth n 1) s x s₁ ∧ Eval other (onodeNth n 2) s₁ y s' ∧
      o.apply x y = some v := by
  cases h with
  | int hint =>
    rw [not_isInt_of_isForm hn] at hint
    cases hint
  | op o' hform ha hb hv =>
    obtain rfl := isForm_unique hn hform
    exact ⟨_, _, _, ha, hb, hv⟩
  | other _ _ hform =>
    rw [hform o] at hn
    cases hn

/-- The siblings of a node do not matter. -/
theorem Eval.withNext (h : Eval other n s v s') (m : ONode) : Eval other (n.withNext m) s v s' := by
  cases n with
  | null => exact h
  | node k t i l p f nx =>
    cases h with
    | int hint => exact .int (n := node k t i l p f m) hint
    | op o hform ha hb hv => exact .op o (n := node k t i l p f m) hform ha hb hv
    | other hnull hint hform h => exact .other (n := node k t i l p f m) hnull hint hform h

@[simp] theorem withNext_withNext (n m m' : ONode) : (n.withNext m).withNext m' = n.withNext m' := by
  cases n <;> rfl

@[simp] theorem withNext_next (n : ONode) : n.withNext n.next = n := by
  cases n <;> rfl

theorem eval_withNext_iff (m : ONode) : Eval other (n.withNext m) s v s' ↔ Eval other n s v s' := by
  refine ⟨fun h => ?_, fun h => h.withNext m⟩
  have h' := h.withNext n.next
  rwa [withNext_withNext, withNext_next] at h'

/-- The operands of a form that `make_op2` builds. -/
theorem eval_makeOp2_iff (o : IntOp) {a b : ONode} {pos : BitVec 32} (ha : a.kind ≠ none) :
    Eval other (makeOp2 o.name a b pos) s v s' ↔ ∃ x y s₁, Eval other a s x s₁ ∧
      Eval other b s₁ y s' ∧ o.apply x y = some v := by
  have hform : isForm (makeOp2 o.name a b pos) o.name = true := by
    simp [makeOp2, makeSym, isForm, isSym, ONode.kind, ONode.text, ONode.first, ONode.withNext]
  have hfirst : onodeNth (makeOp2 o.name a b pos) 1 = a.withNext (cloneNode b) := by
    change (cloneNode a).withNext (cloneNode b) = _
    rw [cloneNode, withNext_withNext]
  have hsecond : onodeNth (makeOp2 o.name a b pos) 2 = cloneNode b := by
    change ((cloneNode a).withNext (cloneNode b)).next = _
    cases a with
    | null => exact absurd rfl ha
    | node => rfl
  constructor
  · intro h
    obtain ⟨x, y, s₁, hx, hy, hv⟩ := h.op_inv hform
    rw [hfirst, eval_withNext_iff] at hx
    rw [hsecond, cloneNode, eval_withNext_iff] at hy
    exact ⟨x, y, s₁, hx, hy, hv⟩
  · rintro ⟨x, y, s₁, hx, hy, hv⟩
    have hx' : Eval other (onodeNth (makeOp2 o.name a b pos) 1) s x s₁ := by
      rw [hfirst]
      exact (eval_withNext_iff _).mpr hx
    have hy' : Eval other (onodeNth (makeOp2 o.name a b pos) 2) s₁ y s' := by
      rw [hsecond]
      exact (eval_withNext_iff _).mpr hy
    exact .op o hform hx' hy' hv

end Eval

end Aipl.Compiler.Opt
