import Aipl.Consts.Program

/-! # Every use of a constant becomes its value

* `IsLiteralOf` — a literal of a constant's value.
* `Replaced` — each use of a constant is replaced by a literal of its value.
* `Expansion` — what a program means without its constants.
* `expand_means` — expanding gives that, or an error where there is none, in any order of the declarations.
-/

namespace Aipl.Consts

open Aipl.Lib Outcome

/-- The value of a literal at run time. -/
def literalVal : Sx → Option Val
  | .atom t =>
    match t.kind with
    | .intLit v => some (.i32 (v.setWidth 32))
    | .int64Lit v => some (.i64 v)
    | .floatLit bits _ => some (.f64 bits)
    | .boolLit b => some (.bool b)
    | _ => none
  | .list _ [op, .atom ⟨.int64Lit bits, _, _⟩] _ =>
    if op.symbol = some "f64.reinterpret_i64" then some (.f64 bits) else none
  | .list _ _ _ => none

def stringText : Sx → Option String
  | .atom t =>
    match t.kind with
    | .stringLit text => some text
    | _ => none
  | .list _ _ _ => none

section

variable (fops : FloatOps) (defs : List (String × Def))

/-- `lit` is a literal of constant `s`'s value, or of the text of a `str`. -/
def IsLiteralOf (s : String) (lit : Sx) : Prop :=
  ∃ d, defs.lookup s = some d ∧
    if d.ty = "str" then ∃ text, stringText d.value = some text ∧ stringText lit = some text
    else ∃ v, Denotes fops defs s v ∧ literalVal lit = some v

variable (enums : List (String × List (String × BitVec 64)))

/-- What becomes of a symbol at `t`, `next` being what follows it; one that names no constant may name
an enum's member. -/
def ReplacedSymbol (t : Token) (s : String) (next : Option Sx) (out : Sx) : Prop :=
  if (defs.lookup s).isSome then next.any Sx.isColon = false ∧ IsLiteralOf fops defs s out
  else substSymbol [] enums t s next = .ok out

mutual

/-- `out` is `sx`, each use of a constant in it replaced. -/
def Replaced : Sx → Sx → Prop
  | .atom t, out => out = .atom t
  | .list o items c, out => ∃ items',
      out = .list o items' c ∧ ReplacedItems ((Sx.list o items c).head == some "match") 0 items items'

/-- The same for items from place `i` on; an arm of a `match` keeps its head. -/
def ReplacedItems (isMatch : Bool) (i : Nat) : List Sx → List Sx → Prop
  | [], out => out = []
  | .atom t :: rest, out => ∃ sx out', out = sx :: out' ∧
      (match t.kind with
        | .symbol s => ReplacedSymbol fops defs enums t s rest.head? sx
        | _ => sx = .atom t) ∧
      ReplacedItems isMatch (i + 1) rest out'
  | .list o items c :: rest, out => ∃ sx out', out = sx :: out' ∧
      (match items with
        | [] => sx = .list o [] c
        | head :: arm =>
          if isMatch && decide (2 ≤ i) then
            ∃ arm', sx = .list o (head :: arm') c ∧ ReplacedItems false 1 arm arm'
          else Replaced (.list o (head :: arm) c) sx) ∧
      ReplacedItems isMatch (i + 1) rest out'

end

def ReplacedItem (item out : Sx) : Prop :=
  if isEnum item then out = item else Replaced fops defs enums item out

end

/-- `out` is `prog` without its constants: each has a value, and each use of one is a literal of it. -/
def Expansion (fops : FloatOps) (prog out : FlatProgram) : Prop :=
  ∃ defs enums, Declares prog defs enums ∧ (∀ p ∈ defs, HasValue fops defs p) ∧
    List.Forall₂ (ReplacedItem fops defs enums) (prog.structs.filter fun item => !isConst item) out.structs ∧
    List.Forall₂ (ReplacedItem fops defs enums) (prog.fns.filter fun item => !isConst item) out.fns

/-! ### The replacements are literals -/

section

variable {fops : FloatOps} {defs : List (String × Def)} {s : String}

theorem literalVal_sx (v : Val) (at_ : Sx) : literalVal (v.sx at_) = some v := by
  cases v with
  | i32 v =>
    have hv : (v.signExtend 64).setWidth 32 = v := by
      ext i hi
      rw [BitVec.getElem_setWidth, BitVec.getLsbD_signExtend]
      simp [hi, Nat.lt_trans hi (show 32 < 64 by decide), ← BitVec.getLsbD_eq_getElem]
    simp [Val.sx, literalVal, hv]
  | i64 v => rfl
  | f64 bits => rfl
  | bool b => rfl

theorem IsLiteralOf.atom {t t' : Token} (hkind : t'.kind = t.kind) (h : IsLiteralOf fops defs s (.atom t)) :
    IsLiteralOf fops defs s (.atom t') := by
  simpa only [IsLiteralOf, literalVal, stringText, hkind] using h

theorem literalFits_str {kind : TokenKind} (h : literalFits "str" kind = true) :
    ∃ text, kind = .stringLit text := by
  cases kind with
  | stringLit text => exact ⟨text, rfl⟩
  | _ => simp [literalFits] at h

theorem literalFits_value {ty : String} {t : Token} (hty : ty ≠ "str") (h : literalFits ty t.kind = true) :
    ∃ v, (∀ const, denote fops const (.atom t) = some v) ∧ v.ty = ty ∧ literalVal (.atom t) = some v := by
  simp only [denote, literalVal]
  cases hk : t.kind with
  | intLit v =>
    rw [hk] at h
    obtain ⟨hi, hfits⟩ := Bool.and_eq_true_iff.mp h
    refine ⟨.i32 (v.setWidth 32), fun _ => if_pos hfits, (eq_of_beq hi).symm, rfl⟩
  | int64Lit v =>
    rw [hk] at h
    exact ⟨.i64 v, fun _ => rfl, (eq_of_beq h).symm, rfl⟩
  | floatLit bits text =>
    rw [hk] at h
    exact ⟨.f64 bits, fun _ => rfl, (eq_of_beq h).symm, rfl⟩
  | boolLit b =>
    rw [hk] at h
    exact ⟨.bool b, fun _ => rfl, (eq_of_beq h).symm, rfl⟩
  | stringLit text =>
    rw [hk] at h
    exact absurd (eq_of_beq h) hty
  | _ =>
    rw [hk] at h
    cases h

/-- A constant as read is to be folded, or has a literal of its type. -/
theorem readConst_value {item : Sx} {name : String} {d : Def} (h : readConst item = .ok (name, d)) :
    (isExpr d.value ∧ d.ty ≠ "str") ∨ ∃ t, d.value = .atom t ∧ literalFits d.ty t.kind = true := by
  unfold readConst at h
  split at h
  · rename_i x name' colon ty value hitems
    split at h
    · rename_i base hcolon hname
      by_cases hformed : wellFormed (baseName base) = false
      · rw [if_pos hformed] at h
        cases h
      rw [if_neg hformed] at h
      dsimp only at h
      generalize ty.symbol.getD "" = ty at h
      by_cases hexpr : isExpr value = true ∧ ty ∈ ["i32", "i64", "f64", "bool"]
      · rw [if_pos hexpr] at h
        cases h
        refine .inl ⟨hexpr.1, ?_⟩
        rintro hstr
        change ty = "str" at hstr
        rw [hstr] at hexpr
        exact absurd hexpr.2 (by decide)
      rw [if_neg hexpr] at h
      by_cases hty : ty ∉ ["i32", "i64", "f64", "bool", "str"]
      · rw [if_pos hty] at h
        cases h
      rw [if_neg hty] at h
      cases value with
      | atom t =>
        dsimp only at h
        by_cases hfits : literalFits ty t.kind = true
        · rw [if_pos hfits] at h
          cases h
          exact .inr ⟨t, rfl, hfits⟩
        · rw [if_neg hfits] at h
          cases h
      | list o items c => cases h
    · cases h
  · cases h

/-- **A replacement is a literal** of the constant's value. -/
theorem Replacement.isLiteralOf {d : Def} {sx item : Sx} (hread : readConst item = .ok (s, d))
    (hd : defs.lookup s = some d) (h : Replacement fops defs (s, d) (s, sx)) :
    IsLiteralOf fops defs s sx := by
  refine ⟨d, hd, ?_⟩
  have hsx := h.2
  rcases readConst_value hread with ⟨hexpr, hstr⟩ | ⟨t, ht, hfits⟩
  · rw [if_pos hexpr] at hsx
    obtain ⟨v, hv, rfl⟩ := hsx
    rw [if_neg hstr]
    exact ⟨v, hv, literalVal_sx v d.value⟩
  · by_cases hstr : d.ty = "str"
    · rw [if_pos hstr]
      rw [hstr] at hfits
      obtain ⟨text, htext⟩ := literalFits_str hfits
      have hnot : ¬ isExpr d.value = true := by
        obtain ⟨kind, line, col⟩ := t
        obtain rfl : kind = .stringLit text := htext
        simp [ht, isExpr]
      rw [if_neg hnot] at hsx
      refine ⟨text, ?_, ?_⟩
      · simp [ht, stringText, htext]
      · change sx = d.value at hsx
        simp [hsx, ht, stringText, htext]
    · rw [if_neg hstr]
      obtain ⟨v, hden, hty, hlit⟩ := literalFits_value hstr hfits
      have hnot : ¬ isExpr d.value = true := by
        obtain ⟨kind, line, col⟩ := t
        rw [ht]
        cases kind <;> simp [isExpr]
        cases hlit
      rw [if_neg hnot] at hsx
      change sx = d.value at hsx
      refine ⟨v, (denotes_iff hd).mpr ⟨⟨0, ?_⟩, hty⟩, ?_⟩
      · rw [ht]
        exact hden _
      · rw [hsx, ht]
        exact hlit

end

/-! ### Substitution replaces uses by literals -/

theorem bind_eq_ok {α β : Type} {x : Except ConstError α} {f : α → Except ConstError β} {b : β}
    (h : (x >>= f) = .ok b) : ∃ a, x = .ok a ∧ f a = .ok b := by
  cases x with
  | error e => cases h
  | ok a => exact ⟨a, rfl, h⟩

section

variable {fops : FloatOps} {defs : List (String × Def)} {enums : List (String × List (String × BitVec 64))}
  {consts : List (String × Sx)}
  (hnames : ∀ s, (consts.lookup s).isSome = (defs.lookup s).isSome)
  (hlits : ∀ s sx, consts.lookup s = some sx → IsLiteralOf fops defs s sx)
include hnames hlits

theorem substSymbol_replaced {t : Token} {s : String} {next : Option Sx} {out : Sx}
    (h : substSymbol consts enums t s next = .ok out) : ReplacedSymbol fops defs enums t s next out := by
  rw [substSymbol] at h
  rw [ReplacedSymbol, ← hnames s]
  cases hs : consts.lookup s with
  | none =>
    rw [hs] at h
    rw [if_neg (by simp)]
    exact h
  | some value =>
    rw [hs] at h
    dsimp only at h
    rw [if_pos Option.isSome_some]
    by_cases hcolon : next.any Sx.isColon = true
    · rw [if_pos hcolon] at h
      cases h
    · rw [if_neg hcolon] at h
      refine ⟨by simpa using hcolon, ?_⟩
      have hlit := hlits s value hs
      cases value with
      | atom v =>
        cases h
        exact hlit.atom rfl
      | list o items c =>
        cases h
        exact hlit

omit hlits in
theorem substSymbol_ok {t : Token} {s : String} {next : Option Sx} {out : Sx}
    (h : ReplacedSymbol fops defs enums t s next out) : ∃ out, substSymbol consts enums t s next = .ok out := by
  rw [ReplacedSymbol, ← hnames s] at h
  rw [substSymbol]
  cases hs : consts.lookup s with
  | none =>
    rw [hs, if_neg (by simp)] at h
    exact ⟨out, h⟩
  | some value =>
    rw [hs, if_pos Option.isSome_some] at h
    dsimp only
    rw [if_neg (by simp [h.1])]
    cases value with
    | atom v => exact ⟨_, rfl⟩
    | list o items c => exact ⟨_, rfl⟩

mutual

/-- **Substitution** replaces each use by a literal of its constant's value. -/
theorem substitute_replaced : ∀ sx out : Sx, substitute consts enums sx = .ok out →
    Replaced fops defs enums sx out
  | .atom t, out, h => by
      cases h
      rfl
  | .list o items c, out, h => by
      rw [substitute] at h
      cases hitems : substItems consts enums ((Sx.list o items c).head == some "match") 0 items with
      | error e =>
        rw [hitems] at h
        cases h
      | ok items' =>
        rw [hitems] at h
        cases h
        exact ⟨items', rfl, substItems_replaced _ 0 items items' hitems⟩

theorem substItems_replaced : ∀ (isMatch : Bool) (i : Nat) (items out : List Sx),
    substItems consts enums isMatch i items = .ok out → ReplacedItems fops defs enums isMatch i items out
  | _, _, [], out, h => by
      cases h
      rfl
  | isMatch, i, .atom t :: rest, out, h => by
      rw [substItems] at h
      cases hk : t.kind with
      | symbol s =>
        rw [hk] at h
        obtain ⟨sx, hsx, h⟩ := bind_eq_ok h
        obtain ⟨out', hout, h⟩ := bind_eq_ok h
        cases h
        refine ⟨sx, out', rfl, ?_, substItems_replaced isMatch (i + 1) rest out' hout⟩
        rw [hk]
        exact substSymbol_replaced hnames hlits hsx
      | _ =>
        rw [hk] at h
        obtain ⟨sx, hsx, h⟩ := bind_eq_ok h
        obtain ⟨out', hout, h⟩ := bind_eq_ok h
        cases h
        cases hsx
        refine ⟨_, out', rfl, ?_, substItems_replaced isMatch (i + 1) rest out' hout⟩
        rw [hk]
  | isMatch, i, .list o [] c :: rest, out, h => by
      rw [substItems] at h
      obtain ⟨sx, hsx, h⟩ := bind_eq_ok h
      obtain ⟨out', hout, h⟩ := bind_eq_ok h
      cases h
      cases hsx
      exact ⟨_, out', rfl, rfl, substItems_replaced isMatch (i + 1) rest out' hout⟩
  | isMatch, i, .list o (head :: arm) c :: rest, out, h => by
      rw [substItems] at h
      by_cases harm : (isMatch && decide (2 ≤ i)) = true
      · replace h := (if_pos harm).symm.trans h
        obtain ⟨arm', harm', h⟩ := bind_eq_ok h
        obtain ⟨sx, hsx, h⟩ := bind_eq_ok h
        obtain ⟨out', hout, h⟩ := bind_eq_ok h
        cases h
        cases hsx
        refine ⟨_, out', rfl, ?_, substItems_replaced isMatch (i + 1) rest out' hout⟩
        rw [if_pos harm]
        exact ⟨arm', rfl, substItems_replaced false 1 arm arm' harm'⟩
      · replace h := (if_neg harm).symm.trans h
        obtain ⟨sx, hsx, h⟩ := bind_eq_ok h
        obtain ⟨out', hout, h⟩ := bind_eq_ok h
        cases h
        refine ⟨sx, out', rfl, ?_, substItems_replaced isMatch (i + 1) rest out' hout⟩
        rw [if_neg harm]
        exact substitute_replaced (.list o (head :: arm) c) sx hsx

end

omit hlits in
mutual

theorem substitute_ok : ∀ sx out : Sx, Replaced fops defs enums sx out →
    ∃ out, substitute consts enums sx = .ok out
  | .atom t, out, h => ⟨_, rfl⟩
  | .list o items c, out, h => by
      obtain ⟨items', -, h⟩ := h
      obtain ⟨out, hout⟩ := substItems_ok _ 0 items items' h
      rw [substitute, hout]
      exact ⟨_, rfl⟩

theorem substItems_ok : ∀ (isMatch : Bool) (i : Nat) (items out : List Sx),
    ReplacedItems fops defs enums isMatch i items out →
    ∃ out, substItems consts enums isMatch i items = .ok out
  | _, _, [], out, h => ⟨[], rfl⟩
  | isMatch, i, .atom t :: rest, out, h => by
      obtain ⟨sx, out', -, hsx, hrest⟩ := h
      obtain ⟨rest', hrest'⟩ := substItems_ok isMatch (i + 1) rest out' hrest
      rw [substItems, hrest']
      cases hk : t.kind with
      | symbol s =>
        rw [hk] at hsx
        obtain ⟨sx', hsx'⟩ := substSymbol_ok hnames hsx
        dsimp only
        rw [hsx']
        exact ⟨_, rfl⟩
      | _ => exact ⟨_, rfl⟩
  | isMatch, i, .list o [] c :: rest, out, h => by
      obtain ⟨sx, out', -, -, hrest⟩ := h
      obtain ⟨rest', hrest'⟩ := substItems_ok isMatch (i + 1) rest out' hrest
      rw [substItems, hrest']
      exact ⟨_, rfl⟩
  | isMatch, i, .list o (head :: arm) c :: rest, out, h => by
      obtain ⟨sx, out', -, hsx, hrest⟩ := h
      obtain ⟨rest', hrest'⟩ := substItems_ok isMatch (i + 1) rest out' hrest
      rw [substItems, hrest']
      dsimp only at hsx ⊢
      split
      · rename_i harm
        rw [if_pos harm] at hsx
        obtain ⟨arm', -, hsx⟩ := hsx
        obtain ⟨arm'', harm''⟩ := substItems_ok false 1 arm arm' hsx
        rw [harm'']
        exact ⟨_, rfl⟩
      · rename_i harm
        rw [if_neg harm] at hsx
        obtain ⟨sx', hsx'⟩ := substitute_ok (.list o (head :: arm) c) sx hsx
        rw [hsx']
        exact ⟨_, rfl⟩

end

end

/-! ### The result -/

section

variable {fops : FloatOps} {prog prog' out : FlatProgram}

/-- The replacements of the constants a program declares. -/
theorem Declares.literals {defs : List (String × Def)} {enums : List (String × List (String × BitVec 64))}
    {consts : List (String × Sx)} (hdecl : Declares prog defs enums)
    (hconsts : List.Forall₂ (Replacement fops defs) defs consts) :
    (∀ s, (consts.lookup s).isSome = (defs.lookup s).isSome) ∧
      ∀ s sx, consts.lookup s = some sx → IsLiteralOf fops defs s sx := by
  obtain ⟨hitems, hnodup, -⟩ := declares_iff.mp hdecl
  constructor
  · intro s
    rw [Bool.eq_iff_iff, lookup_isSome_iff, lookup_isSome_iff, replacements_names hconsts]
  · intro s sx hs
    obtain ⟨d, hd, hrep⟩ := replacement_of_lookup hnodup hconsts hs
    obtain ⟨item, -, hread⟩ := exists_of_forall₂ hitems (mem_of_lookup hd)
    exact hrep.isLiteralOf hread hd

theorem Expands.expansion (h : Expands fops prog out) : Expansion fops prog out := by
  obtain ⟨defs, enums, consts, hdecl, hconsts, hstructs, hfns⟩ := h
  obtain ⟨hnames, hlits⟩ := hdecl.literals hconsts
  have hitem : ∀ item item', rewriteItem consts enums item = .ok item' →
      ReplacedItem fops defs enums item item' := by
    intro item item' h
    rw [rewriteItem] at h
    rw [ReplacedItem]
    split at h
    · rename_i henum
      cases h
      rw [if_pos henum]
    · rename_i henum
      rw [if_neg henum]
      exact substitute_replaced hnames hlits item item' h
  exact ⟨defs, enums, hdecl, replacements_hasValue hconsts, (rewrite_ok_iff.mp hstructs).imp hitem,
    (rewrite_ok_iff.mp hfns).imp hitem⟩

theorem forall₂_of_forall {α β : Type} {R : α → β → Prop} {l : List α} (h : ∀ a ∈ l, ∃ b, R a b) :
    ∃ l', List.Forall₂ R l l' := by
  induction l with
  | nil => exact ⟨[], .nil⟩
  | cons a l ih =>
    obtain ⟨b, hb⟩ := h a List.mem_cons_self
    obtain ⟨l', hl'⟩ := ih fun a ha => h a (List.mem_cons_of_mem _ ha)
    exact ⟨b :: l', .cons hb hl'⟩

theorem replacement_exists {defs : List (String × Def)} {p : String × Def} (h : HasValue fops defs p) :
    ∃ c, Replacement fops defs p c := by
  by_cases hexpr : isExpr p.2.value = true
  · obtain ⟨v, hv⟩ := h hexpr
    refine ⟨(p.1, v.sx p.2.value), rfl, ?_⟩
    rw [if_pos hexpr]
    exact ⟨v, hv, rfl⟩
  · refine ⟨(p.1, p.2.value), rfl, ?_⟩
    rw [if_neg hexpr]

theorem Expansion.expands (h : Expansion fops prog out) : ∃ out, Expands fops prog out := by
  obtain ⟨defs, enums, hdecl, hvalues, hstructs, hfns⟩ := h
  obtain ⟨consts, hconsts⟩ := forall₂_of_forall fun p hp => replacement_exists (hvalues p hp)
  obtain ⟨hnames, -⟩ := hdecl.literals hconsts
  have hrewrite : ∀ {items out : List Sx},
      List.Forall₂ (ReplacedItem fops defs enums) (items.filter fun item => !isConst item) out →
      ∃ out', rewrite consts enums items = .ok out' := by
    intro items out h
    simp only [rewrite_ok_iff]
    refine forall₂_of_forall fun item hitem => ?_
    obtain ⟨item', -, hitem'⟩ :=
      exists_of_forall₂ (R := fun item' item => ReplacedItem fops defs enums item item') h.flip hitem
    rw [ReplacedItem] at hitem'
    rw [rewriteItem]
    split
    · exact ⟨item, rfl⟩
    · rename_i henum
      rw [if_neg henum] at hitem'
      exact substitute_ok hnames item item' hitem'
  obtain ⟨structs, hstructs⟩ := hrewrite hstructs
  obtain ⟨fns, hfns⟩ := hrewrite hfns
  exact ⟨⟨structs, fns⟩, defs, enums, consts, hdecl, hconsts, hstructs, hfns⟩

/-- The same items in another order; enums of one name keep theirs. -/
structure Reordered (prog prog' : FlatProgram) : Prop where
  structs : prog.structs.Perm prog'.structs
  fns : prog.fns.Perm prog'.fns
  enums : ∀ e, (enumsOf (prog.structs ++ prog.fns)).lookup e = (enumsOf (prog'.structs ++ prog'.fns)).lookup e

theorem Reordered.symm (h : Reordered prog prog') : Reordered prog' prog :=
  ⟨h.structs.symm, h.fns.symm, fun e => (h.enums e).symm⟩

/-- **Constants mean their run-time value.**  Expanding ends.  It gives a program in which each use of a
constant is a literal of its value, when there is one, and an error when there is none; for the same
declarations in another order it gives the same items, or again an error. -/
theorem expand_means (fops : FloatOps) (prog : FlatProgram) {fuel : Nat}
    (hfuel : prog.structs.length + prog.fns.length < fuel) :
    ∃ r, (expand fops fuel prog).run = done r ∧
      (∀ out, r = .ok out → Expansion fops prog out) ∧
      ((∃ out, Expansion fops prog out) → ∃ out, r = .ok out) ∧
      ∀ prog', Reordered prog prog' → ∃ r', (expand fops fuel prog').run = done r' ∧
        Fallible.Same (fun _ _ => True) (fun out out' => out.structs.Perm out'.structs ∧ out.fns.Perm out'.fns)
          r r' := by
  obtain ⟨r, hrun, hr⟩ := expand_ends fops hfuel
  refine ⟨r, hrun, fun out h => ((hr out).mp h).expansion, ?_, ?_⟩
  · rintro ⟨out, h⟩
    obtain ⟨out, h⟩ := h.expands
    exact ⟨out, (hr out).mpr h⟩
  · intro prog' hperm
    have hfuel' : prog'.structs.length + prog'.fns.length < fuel := by
      rwa [← hperm.structs.length_eq, ← hperm.fns.length_eq]
    obtain ⟨r', hrun', hr'⟩ := expand_ends fops hfuel'
    refine ⟨r', hrun', ?_⟩
    cases r with
    | ok out =>
      obtain ⟨out', h', hout⟩ := ((hr out).mp rfl).perm hperm.structs hperm.fns hperm.enums
      rw [(hr' out').mpr h']
      exact .ok hout
    | error e =>
      cases r' with
      | error e' => exact .error trivial
      | ok out' =>
        obtain ⟨out, h, -⟩ := ((hr' out').mp rfl).perm hperm.symm.structs hperm.symm.fns hperm.symm.enums
        cases (hr out).mpr h

/-- `(const NAME:i32 value)`. -/
def constItem (name : String) (value : Sx) : Sx :=
  let tok (kind : TokenKind) : Token := ⟨kind, 1, 1⟩
  .list (tok .lparen) [.atom (tok (.symbol "const")), .atom (tok (.symbol name)), .atom (tok .colon),
    .atom (tok (.symbol "i32")), value] (tok .rparen)

/-- `(const FIRST:i32 (shl SECOND 33))`, before `(const SECOND:i32 3)`. -/
def twoConsts : FlatProgram :=
  let tok (kind : TokenKind) : Token := ⟨kind, 1, 1⟩
  ⟨[constItem "FIRST" (.list (tok .lparen) [.atom (tok (.symbol "shl")), .atom (tok (.symbol "SECOND")),
      .atom (tok (.intLit 33))] (tok .rparen)),
    constItem "SECOND" (.atom (tok (.intLit 3)))], []⟩

theorem twoConsts_means : ∃ r,
    (expand ⟨fun x _ => x, fun x _ => x, fun x _ => x, fun x _ => x⟩ 3 twoConsts).run = done r ∧
      ∀ out, r = .ok out →
        Expansion ⟨fun x _ => x, fun x _ => x, fun x _ => x, fun x _ => x⟩ twoConsts out := by
  obtain ⟨r, hrun, hok, -⟩ :=
    expand_means ⟨fun x _ => x, fun x _ => x, fun x _ => x, fun x _ => x⟩ twoConsts
      (show twoConsts.structs.length + twoConsts.fns.length < 3 by decide)
  exact ⟨r, hrun, hok⟩

end

end Aipl.Consts
