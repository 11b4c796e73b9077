import Aipl.Compiler.Opt.Node
import Aipl.Lib.Outcome
import Aipl.Lib.Worklist

/-! # Functions that are not used

Pass 4 of `optimize_mapped`: from the roots, the functions that are named in calls and references are walked to,
and the others are left out of the module.

* `mem_collectCallees` — the walk over one function finds what it names, at any depth.
* `walk_ends` — the walk over the module marks what the roots reach.
* `Run.reachable` — what a run enters is reached.
* `eliminate_exact` — what is kept.
-/

namespace Aipl.Compiler.Opt

open ONode Relation
open Aipl.Lib Aipl.Lib.Outcome

/-- A name is a symbol's text. -/
abbrev Name := Option String

/-! ### The pass -/

/-- The target of a call or a reference is noted. -/
def pushCallee (n : ONode) (out : List Name) : List Name :=
  if isForm n "call" || isForm n "ref" then
    let target := onodeNth n 1
    if target.kind = some .sym then out ++ [target.text] else out
  else out

/-- The loop of `collect_callees` over a node and its next siblings. -/
def collectSiblings : ONode → List Name → List Name
  | null, out => out
  | node k t i l p f n, out => collectSiblings n (if k = .paren then collectSiblings f (pushCallee (node k t i l p f n) out) else out)

def collectCallees (n : ONode) (out : List Name) : List Name :=
  if n.kind = some .paren then collectSiblings n.first (pushCallee n out) else out

def fnName (item : ONode) : Name := (onodeNth item 1).text

/-- `fn_by_name`. -/
def fnByName (items : List ONode) : Name → Option ONode :=
  items.foldl (fun m item => if isForm item "fn" then Function.update m (fnName item) (some item) else m) fun _ => none

/-- A root override that is present and not empty. -/
def hasRootOverride (rootOverride : Name) : Bool := rootOverride.isSome && rootOverride != some ""

/-- What is marked, and queued, before the walk. -/
def startWalk (items : List ONode) (fns : Name → Option ONode) (rootOverride : Name) : Worklist Name :=
  if hasRootOverride rootOverride then
    if (fns rootOverride).isSome then Worklist.empty.add rootOverride else Worklist.empty
  else if (fns (some "main")).isSome || (fns (some "_start")).isSome then
    let w := if (fns (some "main")).isSome then Worklist.empty.add (some "main") else Worklist.empty
    if (fns (some "_start")).isSome then w.add (some "_start") else w
  else
    -- a library module: all functions are marked, and none is walked to
    { seen := items.foldl (fun seen item => if isForm item "fn" then Function.update seen (fnName item) true else seen) fun _ => false
      queue := [] }

/-- A round of the walk: the functions that the one at the head of the queue names. -/
def walkRound (fns : Name → Option ONode) (s : Worklist Name × Nat) : Outcome (Worklist Name × Nat ⊕ Worklist Name) :=
  let (w, qhead) := s
  match w.queue[qhead]? with
  | none => pure (.inr w)
  | some curName =>
    let callees := match fns curName with
      | none => []
      | some fnNode => collectCallees fnNode []
    let w := callees.foldl (fun w cal => if (fns cal).isSome && !w.seen cal then w.add cal else w) w
    pure (.inl (w, qhead + 1))

/-- The module made, and what is counted. -/
structure Emitted where
  items : List ONode
  fnsKept : Nat
  fnsEliminated : Nat

def emitItem (reachable : Name → Bool) (out : Emitted) (item : ONode) : Emitted :=
  if isForm item "fn" then
    if reachable (fnName item) then { out with items := out.items ++ [item], fnsKept := out.fnsKept + 1 }
    else { out with fnsEliminated := out.fnsEliminated + 1 }
  else { out with items := out.items ++ [item] }

/-- Pass 4, of the items that the other passes left. -/
def eliminate (fuel : Nat) (items : List ONode) (rootOverride : Name) : Outcome Emitted := do
  let fns := fnByName items
  let w ← iterate (walkRound fns) fuel (startWalk items fns rootOverride, 0)
  pure (items.foldl (emitItem w.seen) ⟨[], 0, 0⟩)

/-! ### What a function names -/

/-- A node and its next siblings, and all that is in them. -/
def forest : ONode → List ONode
  | null => []
  | node k t i l p f n => node k t i l p f n :: (forest f ++ forest n)

/-- A node, and all that is in it at any depth. -/
def nodes (n : ONode) : List ONode := n :: forest n.first

/-- `n` is a call of `g`, or a reference to it. -/
def Names (n : ONode) (g : Name) : Prop :=
  (isForm n "call" = true ∨ isForm n "ref" = true) ∧ (onodeNth n 1).kind = some .sym ∧ (onodeNth n 1).text = g

/-- Brackets hold parameters, fields and binders, in which nothing is called. -/
def Flat (ns : List ONode) : Prop :=
  ∀ b ∈ ns, b.kind ≠ some .paren → ∀ m ∈ forest b.first, isForm m "call" = false ∧ isForm m "ref" = false

instance (ns : List ONode) : Decidable (Flat ns) := inferInstanceAs (Decidable (∀ b ∈ ns, _))

variable {n item : ONode} {f g : Name} {out : List Name} {items : List ONode} {rootOverride : Name}

theorem mem_pushCallee : g ∈ pushCallee n out ↔ g ∈ out ∨ Names n g := by
  rw [pushCallee, Names]
  by_cases hform : isForm n "call" = true ∨ isForm n "ref" = true
  · rw [if_pos (by simpa using hform)]
    dsimp only
    by_cases hsym : (onodeNth n 1).kind = some .sym
    · rw [if_pos hsym, List.mem_append, List.mem_singleton, eq_comm (a := g)]
      simp only [hform, hsym, true_and]
    · rw [if_neg hsym]
      simp only [hsym, false_and, and_false, or_false]
  · rw [if_neg (by simpa using hform)]
    simp only [hform, false_and, or_false]

theorem not_names_of_kind (hk : n.kind ≠ some .paren) : ¬ Names n g := by
  rintro ⟨hform | hform, -⟩
  · simp only [isForm, Bool.and_eq_true, beq_iff_eq] at hform
    exact hk hform.1
  · simp only [isForm, Bool.and_eq_true, beq_iff_eq] at hform
    exact hk hform.1

theorem Flat.not_names {ns : List ONode} (h : Flat ns) {b : ONode} (hb : b ∈ ns) (hk : b.kind ≠ some .paren) :
    ¬ ∃ m ∈ forest b.first, Names m g := by
  rintro ⟨m, hm, hform, -⟩
  obtain ⟨hcall, href⟩ := h b hb hk m hm
  rcases hform with hform | hform
  · rw [hcall] at hform
    cases hform
  · rw [href] at hform
    cases hform

theorem mem_collectSiblings (n : ONode) (out : List Name) (hflat : Flat (forest n)) :
    g ∈ collectSiblings n out ↔ g ∈ out ∨ ∃ m ∈ forest n, Names m g := by
  induction n generalizing out with
  | null => simp [collectSiblings, forest]
  | node k t i l p f nx ihf ihn =>
    have hself : node k t i l p f nx ∈ forest (node k t i l p f nx) := List.mem_cons_self
    have hff : Flat (forest f) := fun b hb => hflat b (List.mem_cons_of_mem _ (List.mem_append_left _ hb))
    have hfn : Flat (forest nx) := fun b hb => hflat b (List.mem_cons_of_mem _ (List.mem_append_right _ hb))
    rw [collectSiblings, ihn _ hfn, forest]
    by_cases hk : k = .paren
    · rw [if_pos hk, ihf _ hff, mem_pushCallee]
      simp only [List.mem_cons, List.mem_append, or_and_right, exists_or, exists_eq_left, or_assoc]
    · have hkind : (node k t i l p f nx).kind ≠ some .paren := fun h => hk (Option.some.inj h)
      have hfirst : ¬ ∃ m ∈ forest f, Names m g := hflat.not_names hself hkind
      rw [if_neg hk]
      simp only [List.mem_cons, List.mem_append, or_and_right, exists_or, exists_eq_left, hfirst, not_names_of_kind hkind, false_or]

/-- **What is collected** is what a node of the function names. -/
theorem mem_collectCallees (hflat : Flat (nodes n)) : g ∈ collectCallees n [] ↔ ∃ m ∈ nodes n, Names m g := by
  have hfirst : Flat (forest n.first) := fun b hb => hflat b (List.mem_cons_of_mem _ hb)
  rw [collectCallees, nodes]
  by_cases hk : n.kind = some .paren
  · rw [if_pos hk, mem_collectSiblings _ _ hfirst, mem_pushCallee]
    simp
  · have hnone : ¬ ∃ m ∈ forest n.first, Names m g := hflat.not_names List.mem_cons_self hk
    rw [if_neg hk]
    simp [not_names_of_kind hk, hnone]

/-! ### The module's functions -/

/-- `f` is a function of the module. -/
def IsFn (items : List ONode) (f : Name) : Prop := ∃ item ∈ items, isForm item "fn" = true ∧ fnName item = f

/-- The function `f` names the function `g`, in its body or a contract. -/
def Mentions (items : List ONode) (f g : Name) : Prop :=
  (∃ item ∈ items, isForm item "fn" = true ∧ fnName item = f ∧ ∃ m ∈ nodes item, Names m g) ∧ IsFn items g

/-- What the checker promises: a name is one function's, and brackets are flat. -/
structure Checked (items : List ONode) : Prop where
  names : ((items.filter (isForm · "fn")).map fnName).Nodup
  flat : ∀ item ∈ items, isForm item "fn" = true → Flat (nodes item)

/-- The root override, or else `main` and `_start`. -/
def Root (items : List ONode) (rootOverride r : Name) : Prop :=
  IsFn items r ∧ if hasRootOverride rootOverride then r = rootOverride else r = some "main" ∨ r = some "_start"

/-- A module without one is a library. -/
def Rooted (items : List ONode) (rootOverride : Name) : Prop := hasRootOverride rootOverride = true ∨ ∃ r, Root items rootOverride r

def Reachable (items : List ONode) (rootOverride : Name) : Name → Prop := Reached (Mentions items) (Root items rootOverride)

theorem fnByName_append (item : ONode) : fnByName (items ++ [item]) =
    if isForm item "fn" then Function.update (fnByName items) (fnName item) (some item) else fnByName items := by
  rw [fnByName, List.foldl_append]
  rfl

theorem fnByName_mem (h : fnByName items f = some item) : item ∈ items ∧ isForm item "fn" = true ∧ fnName item = f := by
  induction items using List.reverseRecOn with
  | nil => cases h
  | append_singleton items last ih =>
    rw [fnByName_append] at h
    split at h
    · rename_i hfn
      rcases eq_or_ne f (fnName last) with rfl | hne
      · rw [Function.update_self] at h
        obtain rfl := Option.some.inj h
        exact ⟨by simp, hfn, rfl⟩
      · rw [Function.update_of_ne hne] at h
        exact ⟨List.mem_append_left _ (ih h).1, (ih h).2⟩
    · exact ⟨List.mem_append_left _ (ih h).1, (ih h).2⟩

theorem fnByName_isSome : (fnByName items f).isSome = true ↔ IsFn items f := by
  constructor
  · intro h
    obtain ⟨item, hitem⟩ := Option.isSome_iff_exists.mp h
    exact ⟨item, fnByName_mem hitem⟩
  · rintro ⟨item, hmem, hfn, rfl⟩
    induction items using List.reverseRecOn with
    | nil => cases hmem
    | append_singleton items last ih =>
      rw [fnByName_append]
      rcases List.mem_append.mp hmem with hmem | hlast
      · split
        · rcases eq_or_ne (fnName item) (fnName last) with heq | hne
          · rw [heq, Function.update_self]
            rfl
          · rw [Function.update_of_ne hne]
            exact ih hmem
        · exact ih hmem
      · obtain rfl := List.mem_singleton.mp hlast
        rw [if_pos hfn, Function.update_self]
        rfl

/-- With one function a name, it is the function of that name that is found. -/
theorem fnByName_eq (h : Checked items) (hmem : item ∈ items) (hfn : isForm item "fn" = true) : fnByName items (fnName item) = some item := by
  obtain ⟨found, hfound⟩ := Option.isSome_iff_exists.mp (fnByName_isSome.mpr ⟨item, hmem, hfn, rfl⟩)
  obtain ⟨hmem', hfn', hname⟩ := fnByName_mem hfound
  have heq : found = item := List.inj_on_of_nodup_map h.names (List.mem_filter.mpr ⟨hmem', hfn'⟩) (List.mem_filter.mpr ⟨hmem, hfn⟩) hname
  rw [hfound, heq]

/-! ### The walk -/

/-- The functions that the function `f` names. -/
def callees (fns : Name → Option ONode) (f : Name) : List Name :=
  ((fns f).elim [] fun fnNode => collectCallees fnNode []).filter fun g => (fns g).isSome

theorem mem_callees (h : Checked items) : g ∈ callees (fnByName items) f ↔ Mentions items f g := by
  rw [callees, List.mem_filter, fnByName_isSome, Mentions, and_congr_left_iff]
  intro _
  cases hf : fnByName items f with
  | none =>
    have hnot : ¬ IsFn items f := fun hfn => by
      have := fnByName_isSome.mpr hfn
      rw [hf] at this
      cases this
    constructor
    · intro hg
      cases hg
    · rintro ⟨item, hmem, hfn, hname, -⟩
      exact absurd ⟨item, hmem, hfn, hname⟩ hnot
  | some found =>
    obtain ⟨hmem, hfn, hname⟩ := fnByName_mem hf
    refine (mem_collectCallees (h.flat found hmem hfn)).trans ⟨fun hg => ⟨found, hmem, hfn, hname, hg⟩, ?_⟩
    rintro ⟨item, hmem', hfn', hname', hg⟩
    have hitem := fnByName_eq h hmem' hfn'
    rw [hname', hf] at hitem
    obtain rfl := Option.some.inj hitem
    exact hg

theorem foldl_note (fns : Name → Option ONode) : ∀ (l : List Name) (w : Worklist Name),
    l.foldl (fun w cal => if (fns cal).isSome && !w.seen cal then w.add cal else w) w = w.noteAll (l.filter fun g => (fns g).isSome)
  | [], _ => rfl
  | x :: l, w => by
      rw [List.foldl_cons, foldl_note fns l, Worklist.noteAll, Worklist.noteAll, List.filter_cons]
      cases hx : (fns x).isSome with
      | false => rfl
      | true =>
        rw [if_pos rfl, List.foldl_cons, Worklist.note]
        cases w.seen x with
        | false => rfl
        | true => rfl

theorem walkRound_eq (fns : Name → Option ONode) (w : Worklist Name) (qhead : Nat) : walkRound fns (w, qhead) =
    done ((w.queue[qhead]?).elim (.inr w) fun curName => .inl (w.noteAll (callees fns curName), qhead + 1)) := by
  rw [walkRound]
  dsimp only
  cases w.queue[qhead]? with
  | none => rfl
  | some curName =>
    dsimp only [Option.elim_some]
    rw [foldl_note, callees]
    cases fns curName with
    | none => rfl
    | some fnNode => rfl

theorem startWalk_rooted (h : Rooted items rootOverride) : (startWalk items (fnByName items) rootOverride).Ok ∧
    ∀ r, (startWalk items (fnByName items) rootOverride).seen r = true ↔ Root items rootOverride r := by
  have hempty := Worklist.empty_ok (α := Name)
  have hunseen : ∀ r : Name, ¬ (Worklist.empty : Worklist Name).seen r = true := fun _ => Bool.false_ne_true
  rw [startWalk]
  by_cases hover : hasRootOverride rootOverride = true
  · rw [if_pos hover]
    by_cases hfn : IsFn items rootOverride
    · rw [if_pos (fnByName_isSome.mpr hfn)]
      refine ⟨hempty.add (hunseen _), fun r => ?_⟩
      rw [Worklist.add_seen, Root, if_pos hover, or_iff_left (hunseen r)]
      exact ⟨fun heq => ⟨heq ▸ hfn, heq⟩, And.right⟩
    · rw [if_neg (fun h => hfn (fnByName_isSome.mp h))]
      refine ⟨hempty, fun r => ⟨fun hr => absurd hr (hunseen r), fun hr => ?_⟩⟩
      rw [Root, if_pos hover] at hr
      exact absurd (hr.2 ▸ hr.1) hfn
  · rw [if_neg hover]
    have hsome : ((fnByName items (some "main")).isSome || (fnByName items (some "_start")).isSome) = true := by
      rw [Bool.or_eq_true, fnByName_isSome, fnByName_isSome]
      obtain ⟨r, hr⟩ := h.resolve_left hover
      rw [Root, if_neg hover] at hr
      rcases hr with ⟨hfn, rfl | rfl⟩
      · exact .inl hfn
      · exact .inr hfn
    rw [if_pos hsome]
    have hroot : ∀ r, Root items rootOverride r ↔ IsFn items r ∧ (r = some "main" ∨ r = some "_start") := fun r => by
      rw [Root, if_neg hover]
    -- `main` is marked first, then `_start`
    have hmain : Worklist.Ok (if (fnByName items (some "main")).isSome then Worklist.empty.add (some "main") else Worklist.empty) ∧
        ∀ r, (if (fnByName items (some "main")).isSome then Worklist.empty.add (some "main") else Worklist.empty).seen r = true ↔
          IsFn items r ∧ r = some "main" := by
      by_cases hfn : IsFn items (some "main")
      · rw [if_pos (fnByName_isSome.mpr hfn)]
        refine ⟨hempty.add (hunseen _), fun r => ?_⟩
        rw [Worklist.add_seen, or_iff_left (hunseen r)]
        exact ⟨fun heq => ⟨heq ▸ hfn, heq⟩, And.right⟩
      · rw [if_neg (fun h => hfn (fnByName_isSome.mp h))]
        exact ⟨hempty, fun r => ⟨fun hr => absurd hr (hunseen r), fun ⟨hr, heq⟩ => absurd (heq ▸ hr) hfn⟩⟩
    dsimp only
    by_cases hfn : IsFn items (some "_start")
    · rw [if_pos (fnByName_isSome.mpr hfn)]
      refine ⟨hmain.1.add fun hseen => ?_, fun r => ?_⟩
      · exact absurd ((hmain.2 _).mp hseen).2 (by decide)
      · rw [Worklist.add_seen, hmain.2, hroot]
        constructor
        · rintro (rfl | ⟨hr, hmain⟩)
          · exact ⟨hfn, .inr rfl⟩
          · exact ⟨hr, .inl hmain⟩
        · rintro ⟨hr, hmain | rfl⟩
          · exact .inr ⟨hr, hmain⟩
          · exact .inl rfl
    · rw [if_neg (fun h => hfn (fnByName_isSome.mp h))]
      refine ⟨hmain.1, fun r => ?_⟩
      rw [hmain.2, hroot]
      constructor
      · exact fun ⟨hr, hmain⟩ => ⟨hr, .inl hmain⟩
      · rintro ⟨hr, hmain | rfl⟩
        · exact ⟨hr, hmain⟩
        · exact absurd hr hfn

theorem Reachable.isFn (h : Reachable items rootOverride f) : IsFn items f :=
  Reached.closed (S := IsFn items) (fun _ hr => hr.1) (fun _ _ _ hxy => hxy.2) h

/-- **The walk** marks what the roots reach. -/
theorem walk_ends (h : Checked items) (hroot : Rooted items rootOverride) {fuel : Nat} (hfuel : items.length < fuel) :
    Ends (fun w => ∀ f, w.seen f = true ↔ Reachable items rootOverride f)
      (iterate (walkRound (fnByName items)) fuel (startWalk items (fnByName items) rootOverride, 0)) := by
  obtain ⟨hok, hseen⟩ := startWalk_rooted hroot
  have hnames : ∀ f, Reachable items rootOverride f → f ∈ (items.filter (isForm · "fn")).map fnName := fun f hf => by
    obtain ⟨item, hmem, hfn, hname⟩ := hf.isFn
    exact List.mem_map.mpr ⟨item, List.mem_filter.mpr ⟨hmem, hfn⟩, hname⟩
  have hcount : ((items.filter (isForm · "fn")).map fnName).length ≤ items.length := by
    rw [List.length_map]
    exact List.length_filter_le _ _
  refine iterate_ends (fun s => Worklist.Explored (Mentions items) (Root items rootOverride) s.1 s.2) _
    (fun s => items.length - s.2) (fun s hs => ?_) fuel _ (Worklist.Explored.start hok hseen) (by dsimp only; omega)
  obtain ⟨w, qhead⟩ := s
  rw [walkRound_eq]
  cases hx : w.queue[qhead]? with
  | none => exact hs.seen_iff (List.getElem?_eq_none_iff.mp hx)
  | some x =>
    have hlt := (List.getElem?_eq_some_iff.mp hx).1
    have hle := hs.length_le hnames
    refine ⟨hs.visit hx fun y => mem_callees h, ?_⟩
    dsimp only at hlt hle ⊢
    omega

theorem marks_all : ∀ (items : List ONode) (seen : Name → Bool), IsFn items f ∨ seen f = true →
    items.foldl (fun seen item => if isForm item "fn" then Function.update seen (fnName item) true else seen) seen f = true
  | [], seen, h => by
      rcases h with ⟨item, hmem, -⟩ | h
      · cases hmem
      · exact h
  | first :: items, seen, h => by
      rw [List.foldl_cons]
      refine marks_all items _ ?_
      rcases h with ⟨item, hmem, hfn, rfl⟩ | h
      · rcases List.mem_cons.mp hmem with rfl | hmem
        · right
          rw [if_pos hfn, Function.update_self]
        · exact .inl ⟨item, hmem, hfn, rfl⟩
      · right
        split
        · rcases eq_or_ne f (fnName first) with rfl | hne
          · rw [Function.update_self]
          · rw [Function.update_of_ne hne, h]
        · exact h

/-- **A library** keeps all its functions marked, and nothing is walked to. -/
theorem walk_library (hroot : ¬ Rooted items rootOverride) {fuel : Nat} (hfuel : 0 < fuel) :
    Ends (fun w => ∀ f, IsFn items f → w.seen f = true)
      (iterate (walkRound (fnByName items)) fuel (startWalk items (fnByName items) rootOverride, 0)) := by
  rw [Rooted, not_or] at hroot
  obtain ⟨hover, hnone⟩ := hroot
  have hmain : ¬ ((fnByName items (some "main")).isSome || (fnByName items (some "_start")).isSome) = true := by
    rw [Bool.or_eq_true, fnByName_isSome, fnByName_isSome]
    rintro (hfn | hfn)
    · exact hnone ⟨some "main", hfn, by rw [if_neg hover]; exact .inl rfl⟩
    · exact hnone ⟨some "_start", hfn, by rw [if_neg hover]; exact .inr rfl⟩
  obtain ⟨fuel, rfl⟩ : ∃ k, fuel = k + 1 := ⟨fuel - 1, by omega⟩
  rw [startWalk, if_neg hover, if_neg hmain, iterate, walkRound_eq]
  exact fun f hf => marks_all items _ (.inl hf)

/-! ### What is made -/

theorem foldl_emitItem (reachable : Name → Bool) (items : List ONode) (out : Emitted) : items.foldl (emitItem reachable) out =
    { items := out.items ++ items.filter fun item => !isForm item "fn" || reachable (fnName item)
      fnsKept := out.fnsKept + (items.filter (isForm · "fn")).countP (reachable ∘ fnName)
      fnsEliminated := out.fnsEliminated + (items.filter (isForm · "fn")).countP (fun item => !reachable (fnName item)) } := by
  induction items generalizing out with
  | nil => simp
  | cons item items ih =>
    rw [List.foldl_cons, ih, emitItem]
    cases hfn : isForm item "fn" with
    | false => simp [hfn]
    | true =>
      cases hreach : reachable (fnName item) with
      | false =>
        simp [hfn, hreach]
        omega
      | true =>
        simp [hfn, hreach]
        omega

/-! ### Runs -/

/-- What a run is in the middle of, in all its threads, and the references it has taken. -/
structure RunState where
  active : List Name
  held : List Name

/-- `n` is in the body or a contract of the function `f`. -/
def Within (items : List ONode) (f : Name) (n : ONode) : Prop :=
  ∃ item ∈ items, isForm item "fn" = true ∧ fnName item = f ∧ n ∈ nodes item

/-- A step of a run.  Which of them is taken, and when, is the functions' business. -/
inductive Step (items : List ONode) : RunState → RunState → Prop where
  | call {s : RunState} {f g : Name} {n : ONode} (hf : f ∈ s.active) (hn : Within items f n) (hcall : isForm n "call" = true)
      (hg : Names n g) (hfn : IsFn items g) : Step items s { s with active := g :: s.active }
  | ref {s : RunState} {f g : Name} {n : ONode} (hf : f ∈ s.active) (hn : Within items f n) (href : isForm n "ref" = true)
      (hg : Names n g) (hfn : IsFn items g) : Step items s { s with held := g :: s.held }
  /-- `call_ref`, and `thread.spawn`. -/
  | callRef {s : RunState} {g : Name} (hg : g ∈ s.held) : Step items s { s with active := g :: s.active }
  | leave {s : RunState} {f : Name} : Step items s { s with active := s.active.erase f }

/-- What a run from a root comes to. -/
def Run (items : List ONode) (rootOverride : Name) (s : RunState) : Prop :=
  ∃ r, Root items rootOverride r ∧ ReflTransGen (Step items) ⟨[r], []⟩ s

/-- All that a run has entered or holds is reached. -/
def RunState.Safe (items : List ONode) (rootOverride : Name) (s : RunState) : Prop :=
  (∀ f ∈ s.active, Reachable items rootOverride f) ∧ ∀ f ∈ s.held, Reachable items rootOverride f

theorem Step.safe {s s' : RunState} (h : Step items s s') (hs : RunState.Safe items rootOverride s) : RunState.Safe items rootOverride s' := by
  obtain ⟨hactive, hheld⟩ := hs
  have hnamed : ∀ {f g : Name} {n : ONode}, Reachable items rootOverride f → Within items f n → Names n g → IsFn items g →
      Reachable items rootOverride g := fun hf ⟨item, hmem, hitem, hname, hn⟩ hg hfn =>
    hf.tail ⟨⟨item, hmem, hitem, hname, _, hn, hg⟩, hfn⟩
  cases h with
  | call hf hn _ hg hfn =>
    refine ⟨fun x hx => ?_, hheld⟩
    rcases List.mem_cons.mp hx with rfl | hx
    · exact hnamed (hactive _ hf) hn hg hfn
    · exact hactive x hx
  | ref hf hn _ hg hfn =>
    refine ⟨hactive, fun x hx => ?_⟩
    rcases List.mem_cons.mp hx with rfl | hx
    · exact hnamed (hactive _ hf) hn hg hfn
    · exact hheld x hx
  | callRef hg =>
    refine ⟨fun x hx => ?_, hheld⟩
    rcases List.mem_cons.mp hx with rfl | hx
    · exact hheld _ hg
    · exact hactive x hx
  | leave => exact ⟨fun x hx => hactive x (List.mem_of_mem_erase hx), hheld⟩

theorem Run.safe {s : RunState} (h : Run items rootOverride s) : RunState.Safe items rootOverride s := by
  obtain ⟨r, hr, hrun⟩ := h
  induction hrun with
  | refl =>
    refine ⟨fun x hx => ?_, fun x hx => absurd hx List.not_mem_nil⟩
    obtain rfl := List.mem_singleton.mp hx
    exact .root hr
  | tail _ hstep ih => exact hstep.safe ih

/-! ### The pass keeps what is used -/

/-- An item stays when it is no function, or a function that is reached; in a library, they all stay. -/
def Stays (items : List ONode) (rootOverride : Name) (item : ONode) : Prop :=
  isForm item "fn" = true → Rooted items rootOverride → Reachable items rootOverride (fnName item)

/-- A module of which nothing that stays is lost has the same runs. -/
theorem run_iff {kept : List ONode} (hkept : ∀ item, item ∈ kept ↔ item ∈ items ∧ Stays items rootOverride item) {s : RunState} :
    Run kept rootOverride s ↔ Run items rootOverride s := by
  have hfn : ∀ {f}, IsFn kept f → IsFn items f := fun ⟨item, hmem, h⟩ => ⟨item, ((hkept item).mp hmem).1, h⟩
  have hstay : ∀ {f}, Reachable items rootOverride f → IsFn kept f := fun {f} hf => by
    obtain ⟨item, hmem, hitem, rfl⟩ := hf.isFn
    exact ⟨item, (hkept item).mpr ⟨hmem, fun _ _ => hf⟩, hitem, rfl⟩
  constructor
  · rintro ⟨r, hr, hrun⟩
    refine ⟨r, ⟨hfn hr.1, hr.2⟩, hrun.lift id fun s s' hstep => ?_⟩
    have hwithin : ∀ {f n}, Within kept f n → Within items f n := fun ⟨item, hmem, h⟩ => ⟨item, ((hkept item).mp hmem).1, h⟩
    cases hstep with
    | call hf hn hcall hg hg' => exact .call hf (hwithin hn) hcall hg (hfn hg')
    | ref hf hn href hg hg' => exact .ref hf (hwithin hn) href hg (hfn hg')
    | callRef hg => exact .callRef hg
    | leave => exact .leave
  · rintro ⟨r, hr, hrun⟩
    refine ⟨r, ⟨hstay (.root hr), hr.2⟩, ?_⟩
    induction hrun with
    | refl => exact .refl
    | @tail s s' hbefore hstep ih =>
      have hsafe := Run.safe ⟨r, hr, hbefore⟩
      have hsafe' := hstep.safe hsafe
      have hwithin : ∀ {f n}, f ∈ s.active → Within items f n → Within kept f n := fun {f n} hf ⟨item, hmem, hitem, hname, hn⟩ =>
        ⟨item, (hkept item).mpr ⟨hmem, fun _ _ => hname ▸ hsafe.1 f hf⟩, hitem, hname, hn⟩
      refine ih.tail ?_
      cases hstep with
      | call hf hn hcall hg _ => exact .call hf (hwithin hf hn) hcall hg (hstay (hsafe'.1 _ List.mem_cons_self))
      | ref hf hn href hg _ => exact .ref hf (hwithin hf hn) href hg (hstay (hsafe'.2 _ List.mem_cons_self))
      | callRef hg => exact .callRef hg
      | leave => exact .leave

open Classical in
/-- **What pass 4 makes**: what stays, in its order; and what a run enters has stayed. -/
theorem eliminate_exact (h : Checked items) {fuel : Nat} (hfuel : items.length < fuel) (rootOverride : Name) :
    Ends (fun out => out.items = items.filter (fun item => Stays items rootOverride item) ∧
        out.fnsKept + out.fnsEliminated = (items.filter (isForm · "fn")).length ∧
        (∀ s, Run out.items rootOverride s ↔ Run items rootOverride s) ∧
        ∀ s, Run items rootOverride s → ∀ f ∈ s.active, IsFn out.items f)
      (eliminate fuel items rootOverride) := by
  -- in both cases a function is marked exactly when it stays
  have hwalk : Ends (fun w => ∀ item ∈ items, isForm item "fn" = true → (w.seen (fnName item) = true ↔ Stays items rootOverride item))
      (iterate (walkRound (fnByName items)) fuel (startWalk items (fnByName items) rootOverride, 0)) := by
    by_cases hroot : Rooted items rootOverride
    · refine (walk_ends h hroot hfuel).mono fun w hw item _ hfn => (hw _).trans ?_
      exact ⟨fun hreach _ _ => hreach, fun hstays => hstays hfn hroot⟩
    · refine (walk_library hroot (by omega)).mono fun w hw item hmem hfn => ?_
      exact ⟨fun _ _ hroot' => absurd hroot' hroot, fun _ => hw _ ⟨item, hmem, hfn, rfl⟩⟩
  rw [eliminate]
  refine ends_bind hwalk fun w hw => ?_
  rw [foldl_emitItem]
  have hitems : items.filter (fun item => !isForm item "fn" || w.seen (fnName item)) = items.filter fun item => Stays items rootOverride item := by
    refine List.filter_congr fun item hmem => ?_
    cases hfn : isForm item "fn" with
    | false => simp [Stays, hfn]
    | true => simp only [Bool.not_true, Bool.false_or, ← hw item hmem hfn, Bool.decide_eq_true]
  refine ⟨hitems, ?_, fun s => ?_, fun s hs f hf => ?_⟩
  · dsimp only
    rw [Nat.zero_add, Nat.zero_add, List.length_eq_countP_add_countP (w.seen ∘ fnName)]
    simp
  · dsimp only
    rw [List.nil_append, hitems]
    exact run_iff fun item => by rw [List.mem_filter, decide_eq_true_eq]
  · have hreach := hs.safe.1 f hf
    obtain ⟨item, hmem, hfn, rfl⟩ := hreach.isFn
    dsimp only
    rw [List.nil_append, hitems]
    exact ⟨item, List.mem_filter.mpr ⟨hmem, decide_eq_true fun _ _ => hreach⟩, hfn, rfl⟩

/-- A list in round brackets. -/
def group (kids : List ONode) : ONode := node .paren none 0 0 0 (kids.foldr withNext null) null

def word (text : String) : ONode := makeSym text 0

def brackets (kids : List ONode) : ONode := node .bracket none 0 0 0 (kids.foldr withNext null) null

/-- `(fn name [] -> i32 body ...)`. -/
def function (name : String) (body : List ONode) : ONode :=
  group ([word "fn", word name, brackets [], node .arrow none 0 0 0 null null, word "i32"] ++ body)

/-- `main` calls `a`, whose contract calls `b` and which takes a reference to `c`; nothing leads to `d`. -/
def contractAndReference : List ONode :=
  [function "d" [group [word "call", word "b"]],
   function "main" [group [word "call", word "a"]],
   group [word "struct", word "S", brackets [group [word "call", word "d"]]],
   function "a" [group [word "ens", group [word "call", word "b"]], group [word "ref", word "c"]],
   function "b" [makeInt 1 0],
   function "c" [makeInt 2 0]]

theorem contractAndReference_kept : Ends (fun out => ∀ s, Run contractAndReference none s → ∀ f ∈ s.active, IsFn out.items f)
    (eliminate 7 contractAndReference none) := by
  have hchecked : Checked contractAndReference := ⟨by decide, by decide⟩
  exact (eliminate_exact hchecked (by decide) none).mono fun out hout => hout.2.2.2

example : (match eliminate 7 contractAndReference none with
    | done out => out.items.map fnName
    | _ => []) = [some "main", some "S", some "a", some "b", some "c"] := by decide

end Aipl.Compiler.Opt
