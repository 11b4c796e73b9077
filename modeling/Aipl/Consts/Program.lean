import Aipl.Consts.Evaluation
import Mathlib.Data.List.Perm.Basic

/-! # Reading and rewriting a program's items

* `readDefs_ok_iff` — the constants read are those declared, each name once.
* `rewrite_ok_iff` — the items rewritten are those that declare no constant.
* `expand_ends` — expanding ends, and when it succeeds.
* `expand_perm` — the order of the declarations does not matter to it.
-/

namespace Aipl.Consts

open Aipl.Lib Outcome

def isConst (item : Sx) : Bool := item.head == some "const"

def isEnum (item : Sx) : Bool := item.head == some "enum"

/-- The enums declared among the items, the last first. -/
def enumsOf (items : List Sx) : List (String × List (String × BitVec 64)) :=
  ((items.filter isEnum).filterMap readEnum).reverse

/-! ### Looking names up -/

section

variable {α : Type} {l l' : List (String × α)} {s : String} {a : α}

theorem mem_of_lookup (h : l.lookup s = some a) : (s, a) ∈ l := by
  obtain ⟨l₁, l₂, rfl, -⟩ := List.lookup_eq_some_iff.mp h
  simp

theorem lookup_eq_some_iff (hl : (l.map Prod.fst).Nodup) : l.lookup s = some a ↔ (s, a) ∈ l := by
  refine ⟨mem_of_lookup, ?_⟩
  intro h
  induction l with
  | nil => cases h
  | cons p l ih =>
    obtain ⟨t, b⟩ := p
    obtain ⟨ht, hl⟩ := List.nodup_cons.mp hl
    rcases List.mem_cons.mp h with heq | hmem
    · cases heq
      rw [List.lookup_cons, beq_self_eq_true]
    · have hne : (s == t) = false := by
        refine beq_eq_false_iff_ne.mpr ?_
        rintro rfl
        exact ht (List.mem_map.mpr ⟨_, hmem, rfl⟩)
      rw [List.lookup_cons, hne]
      exact ih hl hmem

theorem lookup_perm (hl : (l.map Prod.fst).Nodup) (h : l.Perm l') : l.lookup s = l'.lookup s := by
  refine Option.ext fun a => ?_
  rw [lookup_eq_some_iff hl, lookup_eq_some_iff ((h.map Prod.fst).nodup_iff.mp hl), h.mem_iff]

theorem lookup_isSome_iff : (l.lookup s).isSome ↔ s ∈ l.map Prod.fst := by
  constructor
  · intro h
    obtain ⟨a, ha⟩ := Option.isSome_iff_exists.mp h
    exact List.mem_map.mpr ⟨_, mem_of_lookup ha, rfl⟩
  · intro h
    by_contra hnone
    obtain ⟨p, hp, rfl⟩ := List.mem_map.mp h
    have := List.lookup_eq_none_iff.mp (Option.not_isSome_iff_eq_none.mp hnone) p hp
    simp at this

end

/-! ### Reading -/

section

variable {items : List Sx} {defs defs' : List (String × Def)}
  {enums enums' : List (String × List (String × BitVec 64))}

/-- **The constants read** are those declared, in their order, and no two have one name. -/
theorem readDefs_ok_iff (hdefs : (defs.map Prod.fst).Nodup) :
    readDefs items defs enums = .ok (defs', enums') ↔
      ∃ new, List.Forall₂ (fun item p => readConst item = .ok p) (items.filter isConst) new ∧
        (defs'.map Prod.fst).Nodup ∧ defs' = defs ++ new ∧ enums' = enumsOf items ++ enums := by
  induction items generalizing defs enums with
  | nil =>
    constructor
    · intro h
      cases h
      exact ⟨[], .nil, hdefs, (List.append_nil _).symm, rfl⟩
    · rintro ⟨new, hnew, -, rfl, rfl⟩
      cases hnew
      simp [readDefs]
  | cons item items ih =>
    rw [readDefs]
    split
    · rename_i hhead
      have hitem : isConst item = true := by simp [isConst, hhead]
      have hnot : isEnum item = false := by simp [isEnum, hhead]
      have henums : enumsOf (item :: items) = enumsOf items := by simp [enumsOf, hnot]
      rw [List.filter_cons_of_pos hitem, henums]
      cases hread : readConst item with
      | error e =>
        constructor
        · intro h
          cases h
        · rintro ⟨new, hnew, -⟩
          cases hnew with
          | cons h _ => cases hread.symm.trans h
      | ok p =>
        obtain ⟨name, d⟩ := p
        change (if (defs.lookup name).isSome then .error (.definedTwice name)
          else readDefs items (defs ++ [(name, d)]) enums) = .ok (defs', enums') ↔ _
        by_cases hname : (defs.lookup name).isSome
        · rw [if_pos hname]
          constructor
          · intro h
            cases h
          · rintro ⟨new, hnew, hnodup, rfl, -⟩
            cases hnew with
            | cons h _ =>
              cases hread.symm.trans h
              rw [List.map_append] at hnodup
              refine absurd (List.mem_map_of_mem List.mem_cons_self)
                ((List.nodup_append'.mp hnodup).2.2 (lookup_isSome_iff.mp hname))
        · rw [if_neg hname]
          have hdefs' : ((defs ++ [(name, d)]).map Prod.fst).Nodup := by
            rw [List.map_append]
            refine List.nodup_append'.mpr ⟨hdefs, List.nodup_singleton _, ?_⟩
            intro s hs hs'
            rw [List.map_singleton, List.mem_singleton] at hs'
            subst hs'
            exact hname (lookup_isSome_iff.mpr hs)
          rw [ih hdefs']
          constructor
          · rintro ⟨new, hnew, hnodup, rfl, rfl⟩
            exact ⟨(name, d) :: new, .cons hread hnew, hnodup, List.append_assoc _ _ _, rfl⟩
          · rintro ⟨new, hnew, hnodup, rfl, rfl⟩
            cases hnew with
            | cons h hnew =>
              cases hread.symm.trans h
              exact ⟨_, hnew, hnodup, by simp, rfl⟩
    · rename_i hhead
      have hitem : ¬ isConst item = true := by simp [isConst, hhead]
      have hnot : isEnum item = true := by simp [isEnum, hhead]
      rw [List.filter_cons_of_neg hitem]
      cases hread : readEnum item with
      | none =>
        have henums : enumsOf (item :: items) = enumsOf items := by simp [enumsOf, hnot, hread]
        rw [henums]
        exact ih hdefs
      | some e =>
        have henums : enumsOf (item :: items) ++ enums = enumsOf items ++ e :: enums := by
          simp [enumsOf, hnot, hread]
        rw [henums]
        exact ih hdefs
    · rename_i hconst henum
      have hitem : ¬ isConst item = true := by simpa [isConst] using hconst
      have hnot : isEnum item = false := by simpa [isEnum] using henum
      have henums : enumsOf (item :: items) = enumsOf items := by simp [enumsOf, hnot]
      rw [List.filter_cons_of_neg hitem, henums]
      exact ih hdefs

/-- The program's constants and enums. -/
def Declares (prog : FlatProgram) (defs : List (String × Def))
    (enums : List (String × List (String × BitVec 64))) : Prop :=
  readDefs (prog.structs ++ prog.fns) [] [] = .ok (defs, enums)

theorem declares_iff {prog : FlatProgram} : Declares prog defs enums ↔
    List.Forall₂ (fun item p => readConst item = .ok p) ((prog.structs ++ prog.fns).filter isConst) defs ∧
      (defs.map Prod.fst).Nodup ∧ enums = enumsOf (prog.structs ++ prog.fns) := by
  rw [Declares, readDefs_ok_iff (by simp)]
  simp only [List.nil_append, List.append_nil]
  constructor
  · rintro ⟨new, hnew, hnodup, rfl, rfl⟩
    exact ⟨hnew, hnodup, rfl⟩
  · rintro ⟨hnew, hnodup, rfl⟩
    exact ⟨defs, hnew, hnodup, rfl, rfl⟩

/-! ### Rewriting -/

variable {consts consts' : List (String × Sx)}

/-- What an item that declares no constant becomes. -/
def rewriteItem (consts : List (String × Sx)) (enums : List (String × List (String × BitVec 64)))
    (item : Sx) : Except ConstError Sx :=
  if isEnum item then .ok item else substitute consts enums item

theorem rewrite_ok_iff {out : List Sx} : rewrite consts enums items = .ok out ↔
    List.Forall₂ (fun item item' => rewriteItem consts enums item = .ok item')
      (items.filter fun item => !isConst item) out := by
  induction items generalizing out with
  | nil =>
    constructor
    · intro h
      cases h
      exact .nil
    · intro h
      cases h
      rfl
  | cons item items ih =>
    rw [rewrite]
    split
    · rename_i hhead
      have hitem : isConst item = true := by simp [isConst, hhead]
      rw [List.filter_cons_of_neg (by simp [hitem])]
      exact ih
    · rename_i hhead
      have hitem : isConst item = false := by simp [isConst, hhead]
      have hnot : isEnum item = true := by simp [isEnum, hhead]
      rw [List.filter_cons_of_pos (by simp [hitem])]
      constructor
      · intro h
        cases hrest : rewrite consts enums items with
        | error e =>
          rw [hrest] at h
          cases h
        | ok rest =>
          rw [hrest] at h
          cases h
          exact .cons (if_pos hnot) (ih.mp hrest)
      · intro h
        cases h with
        | cons h hrest =>
          rw [rewriteItem, if_pos hnot] at h
          cases h
          rw [ih.mpr hrest]
          rfl
    · rename_i hconst henum
      have hitem : isConst item = false := by simpa [isConst] using hconst
      have hnot : ¬ isEnum item = true := by simpa [isEnum] using henum
      rw [List.filter_cons_of_pos (by simp [hitem])]
      constructor
      · intro h
        cases hsub : substitute consts enums item with
        | error e =>
          rw [hsub] at h
          cases h
        | ok item' =>
          cases hrest : rewrite consts enums items with
          | error e =>
            rw [hsub, hrest] at h
            cases h
          | ok rest =>
            rw [hsub, hrest] at h
            cases h
            exact .cons ((if_neg hnot).trans hsub) (ih.mp hrest)
      · intro h
        cases h with
        | cons h hrest =>
          rw [rewriteItem, if_neg hnot] at h
          rw [h, ih.mpr hrest]
          rfl

section

variable (hconsts : ∀ s, consts.lookup s = consts'.lookup s) (henums : ∀ s, enums.lookup s = enums'.lookup s)
include hconsts henums

theorem substSymbol_congr (t : Token) (s : String) (next : Option Sx) :
    substSymbol consts enums t s next = substSymbol consts' enums' t s next := by
  simp only [substSymbol, hconsts, henums]

mutual

/-- Substitution looks names up, and does nothing else with the tables. -/
theorem substitute_congr : ∀ sx : Sx, substitute consts enums sx = substitute consts' enums' sx
  | .atom t => rfl
  | .list o items c => by
      rw [substitute, substitute, substItems_congr]

theorem substItems_congr : ∀ (isMatch : Bool) (i : Nat) (items : List Sx),
    substItems consts enums isMatch i items = substItems consts' enums' isMatch i items
  | _, _, [] => rfl
  | isMatch, i, .atom t :: rest => by
      rw [substItems, substItems, substItems_congr isMatch (i + 1) rest]
      simp only [substSymbol_congr hconsts henums]
  | isMatch, i, .list o [] c :: rest => by
      rw [substItems, substItems, substItems_congr isMatch (i + 1) rest]
  | isMatch, i, .list o (head :: arm) c :: rest => by
      rw [substItems, substItems, substItems_congr isMatch (i + 1) rest, substItems_congr false 1 arm,
        substitute_congr (.list o (head :: arm) c)]

end

end

mutual

/-- Without names to replace, nothing changes. -/
theorem substitute_nil : ∀ sx : Sx, substitute [] [] sx = .ok sx
  | .atom t => rfl
  | .list o items c => by
      rw [substitute, substItems_nil]
      rfl

theorem substItems_nil : ∀ (isMatch : Bool) (i : Nat) (items : List Sx),
    substItems [] [] isMatch i items = .ok items
  | _, _, [] => rfl
  | isMatch, i, .atom t :: rest => by
      have hsymbol : ∀ (s : String) (next : Option Sx), substSymbol [] [] t s next = .ok (.atom t) := by
        intro s next
        rw [substSymbol]
        cases splitLastDot s <;> rfl
      rw [substItems, substItems_nil isMatch (i + 1) rest]
      simp only [hsymbol]
      cases t.kind <;> rfl
  | isMatch, i, .list o [] c :: rest => by
      rw [substItems, substItems_nil isMatch (i + 1) rest]
      rfl
  | isMatch, i, .list o (head :: arm) c :: rest => by
      rw [substItems, substItems_nil isMatch (i + 1) rest, substItems_nil false 1 arm,
        substitute_nil (.list o (head :: arm) c)]
      dsimp only
      split <;> rfl

end

end

/-! ### The whole run -/

section

variable {fops : FloatOps} {defs defs' : List (String × Def)} {consts consts' : List (String × Sx)}

theorem denoteConst_congr (h : ∀ s, defs.lookup s = defs'.lookup s) :
    denoteConst fops defs = denoteConst fops defs' := by
  funext n
  induction n with
  | zero => rfl
  | succ n ih =>
    funext s
    rw [denoteConst, denoteConst, h, ih]

theorem replacement_congr (h : ∀ s, defs.lookup s = defs'.lookup s) {p : String × Def} {c : String × Sx} :
    Replacement fops defs p c ↔ Replacement fops defs' p c := by
  simp only [Replacement, Denotes, denoteConst_congr h]

/-- A constant has one replacement. -/
theorem Replacement.unique {p : String × Def} {c c' : String × Sx} (h : Replacement fops defs p c)
    (h' : Replacement fops defs p c') : c = c' := by
  obtain ⟨hname, hsx⟩ := h
  obtain ⟨hname', hsx'⟩ := h'
  refine Prod.ext (hname.trans hname'.symm) ?_
  split at hsx
  · rename_i hexpr
    rw [if_pos hexpr] at hsx'
    obtain ⟨v, hv, hsx⟩ := hsx
    obtain ⟨v', hv', hsx'⟩ := hsx'
    rw [hsx, hsx', hv.unique hv']
  · rename_i hexpr
    rw [if_neg hexpr] at hsx'
    exact hsx.trans hsx'.symm

theorem replacements_names {l : List (String × Def)} (h : List.Forall₂ (Replacement fops defs) l consts) :
    consts.map Prod.fst = l.map Prod.fst := by
  induction h with
  | nil => rfl
  | cons hc _ ih => rw [List.map_cons, List.map_cons, hc.1, ih]

theorem exists_of_forall₂ {α β : Type} {R : α → β → Prop} {l : List α} {l' : List β}
    (h : List.Forall₂ R l l') {b : β} (hb : b ∈ l') : ∃ a ∈ l, R a b := by
  induction h with
  | nil => cases hb
  | cons hab _ ih =>
    rcases List.mem_cons.mp hb with rfl | hb
    · exact ⟨_, List.mem_cons_self, hab⟩
    · obtain ⟨a, ha, hab⟩ := ih hb
      exact ⟨a, List.mem_cons_of_mem _ ha, hab⟩

/-- The replacement of a name is that of the constant of that name. -/
theorem replacement_of_lookup (hdefs : (defs.map Prod.fst).Nodup)
    (h : List.Forall₂ (Replacement fops defs) defs consts) {s : String} {sx : Sx}
    (hs : consts.lookup s = some sx) :
    ∃ d, defs.lookup s = some d ∧ Replacement fops defs (s, d) (s, sx) := by
  obtain ⟨p, hp, hrep⟩ := exists_of_forall₂ h (mem_of_lookup hs)
  obtain ⟨name, d⟩ := p
  obtain rfl : s = name := hrep.1
  exact ⟨d, (lookup_eq_some_iff hdefs).mpr hp, hrep⟩

theorem replacements_hasValue {l : List (String × Def)}
    (h : List.Forall₂ (Replacement fops defs) l consts) : ∀ p ∈ l, HasValue fops defs p := by
  intro p hp
  obtain ⟨c, -, hc⟩ := exists_of_forall₂ (R := fun c p => Replacement fops defs p c) h.flip hp
  exact replacement_hasValue hc

theorem replacements_unique {l : List (String × Def)} (h : List.Forall₂ (Replacement fops defs) l consts)
    (h' : List.Forall₂ (Replacement fops defs) l consts') : consts = consts' :=
  Relator.RightUnique.forall₂ (fun _ _ _ hc hc' => hc.unique hc') h h'

/-- The replacements found for the constants in another order are the same. -/
theorem replacements_perm (hdefs : (defs.map Prod.fst).Nodup) (hperm : defs.Perm defs')
    (h : List.Forall₂ (Replacement fops defs) defs consts) :
    ∃ consts', List.Forall₂ (Replacement fops defs') defs' consts' ∧
      ∀ s, consts.lookup s = consts'.lookup s := by
  obtain ⟨consts', h', hconsts⟩ := List.perm_comp_forall₂ hperm.symm h
  refine ⟨consts', h'.imp fun p c hc => (replacement_congr fun s => lookup_perm hdefs hperm).mp hc, ?_⟩
  intro s
  have hnames : (consts.map Prod.fst).Nodup := by rwa [replacements_names h]
  exact lookup_perm hnames hconsts.symm

end

/-- What expanding gives. -/
def Expands (fops : FloatOps) (prog out : FlatProgram) : Prop :=
  ∃ defs enums consts, Declares prog defs enums ∧ List.Forall₂ (Replacement fops defs) defs consts ∧
    rewrite consts enums prog.structs = .ok out.structs ∧ rewrite consts enums prog.fns = .ok out.fns

section

variable {fops : FloatOps} {prog prog' out : FlatProgram}

theorem rewrite_nil {items : List Sx} (h : items.filter isConst = []) : rewrite [] [] items = .ok items := by
  rw [rewrite_ok_iff]
  have hall : ∀ item ∈ items, (!isConst item) = true := by
    intro item hitem
    by_contra hconst
    have hmem : item ∈ items.filter isConst := List.mem_filter.mpr ⟨hitem, by simpa using hconst⟩
    rw [h] at hmem
    cases hmem
  rw [List.filter_eq_self.mpr hall, List.forall₂_same]
  intro item _
  rw [rewriteItem, substitute_nil]
  split <;> rfl

theorem Declares.length_le {defs : List (String × Def)} {enums : List (String × List (String × BitVec 64))}
    (h : Declares prog defs enums) : defs.length ≤ prog.structs.length + prog.fns.length := by
  rw [← (declares_iff.mp h).1.length_eq, ← List.length_append]
  exact List.length_filter_le _ _

/-- **Expanding ends**, with what the program expands to if that is something. -/
theorem expand_ends (fops : FloatOps) {fuel : Nat} (hfuel : prog.structs.length + prog.fns.length < fuel) :
    ∃ r, (expand fops fuel prog).run = done r ∧ ∀ out, r = .ok out ↔ Expands fops prog out := by
  cases hread : readDefs (prog.structs ++ prog.fns) [] [] with
  | error e =>
    refine ⟨.error e, ?_, ?_⟩
    · rw [expand, hread]
      rfl
    · intro out
      constructor
      · intro h
        cases h
      · rintro ⟨defs, enums, consts, hdecl, -⟩
        cases hread.symm.trans hdecl
  | ok tables =>
    obtain ⟨defs, enums⟩ := tables
    have hdecl : Declares prog defs enums := hread
    have hsame : ∀ {defs' enums'}, Declares prog defs' enums' → defs' = defs ∧ enums' = enums := by
      intro defs' enums' h
      cases hdecl.symm.trans h
      exact ⟨rfl, rfl⟩
    obtain ⟨hitems, hnodup, -⟩ := declares_iff.mp hdecl
    by_cases hempty : defs.isEmpty && enums.isEmpty
    · -- no constants, no enums
      refine ⟨.ok prog, ?_, ?_⟩
      · rw [expand, hread]
        exact congrArg ExceptT.run (if_pos hempty)
      · obtain ⟨hdefs, henums⟩ := Bool.and_eq_true_iff.mp hempty
        obtain rfl := List.isEmpty_iff.mp hdefs
        obtain rfl := List.isEmpty_iff.mp henums
        have hno := List.forall₂_nil_right_iff.mp hitems
        rw [List.filter_append, List.append_eq_nil_iff] at hno
        rintro ⟨structs, fns⟩
        constructor
        · intro h
          cases h
          exact ⟨[], [], [], hdecl, .nil, rewrite_nil hno.1, rewrite_nil hno.2⟩
        · rintro ⟨defs', enums', consts, hdecl', hconsts, hstructs, hfns⟩
          obtain ⟨rfl, rfl⟩ := hsame hdecl'
          obtain rfl := List.forall₂_nil_left_iff.mp hconsts
          cases (rewrite_nil hno.1).symm.trans hstructs
          cases (rewrite_nil hno.2).symm.trans hfns
          rfl
    obtain ⟨r, hrun, hok, hfound⟩ := replacements_ends fops
      (Nat.lt_of_le_of_lt hdecl.length_le hfuel) defs
      (fun p hp => (lookup_eq_some_iff hnodup).mpr hp) [] (fun s v h => by cases h)
    have hexpand : expand fops fuel prog = (replacements fops defs fuel defs [] >>= fun consts => do
        let structs ← ExceptT.mk (.done (rewrite consts enums prog.structs))
        let fns ← ExceptT.mk (.done (rewrite consts enums prog.fns))
        pure ⟨structs, fns⟩) := by
      rw [expand, hread]
      exact if_neg hempty
    rw [hexpand, ExceptT.run_bind, hrun]
    cases r with
    | error e =>
      refine ⟨.error e, rfl, ?_⟩
      intro out
      constructor
      · intro h
        cases h
      · rintro ⟨defs', enums', consts, hdecl', hconsts, -⟩
        obtain ⟨rfl, rfl⟩ := hsame hdecl'
        obtain ⟨consts, h⟩ := hfound (replacements_hasValue hconsts)
        cases h
    | ok consts =>
      have hconsts := hok consts rfl
      -- the other results of `Expands` are of these replacements
      have hiff : ∀ out, Expands fops prog out ↔ rewrite consts enums prog.structs = .ok out.structs ∧
          rewrite consts enums prog.fns = .ok out.fns := by
        intro out
        constructor
        · rintro ⟨defs', enums', consts', hdecl', hconsts', h⟩
          obtain ⟨rfl, rfl⟩ := hsame hdecl'
          rwa [replacements_unique hconsts hconsts']
        · intro h
          exact ⟨defs, enums, consts, hdecl, hconsts, h⟩
      simp only [hiff, done_bind]
      cases hstructs : rewrite consts enums prog.structs with
      | error e => exact ⟨.error e, rfl, by simp⟩
      | ok structs =>
        cases hfns : rewrite consts enums prog.fns with
        | error e => exact ⟨.error e, rfl, by simp⟩
        | ok fns =>
          refine ⟨.ok ⟨structs, fns⟩, rfl, ?_⟩
          rintro ⟨structs', fns'⟩
          simp

/-- **The order of the declarations** does not matter. -/
theorem Expands.perm (hstructs : prog.structs.Perm prog'.structs) (hfns : prog.fns.Perm prog'.fns)
    (henums : ∀ e, (enumsOf (prog.structs ++ prog.fns)).lookup e
      = (enumsOf (prog'.structs ++ prog'.fns)).lookup e)
    (h : Expands fops prog out) :
    ∃ out', Expands fops prog' out' ∧ out.structs.Perm out'.structs ∧ out.fns.Perm out'.fns := by
  obtain ⟨defs, enums, consts, hdecl, hconsts, hstructs₁, hfns₁⟩ := h
  obtain ⟨hitems, hnodup, rfl⟩ := declares_iff.mp hdecl
  obtain ⟨defs', hitems', hdefs⟩ :=
    List.perm_comp_forall₂ ((hstructs.append hfns).symm.filter isConst) hitems
  obtain ⟨consts', hconsts', hlookup⟩ := replacements_perm hnodup hdefs.symm hconsts
  have hrewrite : ∀ {l l' l₁ : List Sx}, l.Perm l' →
      rewrite consts (enumsOf (prog.structs ++ prog.fns)) l = .ok l₁ →
      ∃ l₂, rewrite consts' (enumsOf (prog'.structs ++ prog'.fns)) l' = .ok l₂ ∧ l₁.Perm l₂ := by
    intro l l' l₁ hperm hl
    obtain ⟨l₂, hl₂, hperm₂⟩ := List.perm_comp_forall₂ (hperm.symm.filter _) (rewrite_ok_iff.mp hl)
    refine ⟨l₂, rewrite_ok_iff.mpr (hl₂.imp fun item item' h => ?_), hperm₂.symm⟩
    rw [rewriteItem, ← substitute_congr hlookup henums]
    exact h
  obtain ⟨structs', hstructs₂, hstructs'⟩ := hrewrite hstructs hstructs₁
  obtain ⟨fns', hfns₂, hfns'⟩ := hrewrite hfns hfns₁
  refine ⟨⟨structs', fns'⟩, ⟨defs', _, consts', declares_iff.mpr ⟨hitems', ?_, rfl⟩, hconsts', hstructs₂, hfns₂⟩,
    hstructs', hfns'⟩
  exact (hdefs.map Prod.fst).nodup_iff.mpr hnodup

end

end Aipl.Consts
