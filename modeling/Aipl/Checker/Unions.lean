import Aipl.Checker.Sums
import Mathlib.Logic.Relation

/-! # Unions held by value

`union_layouts` lays out each union after the unions it holds.  A union that is laid out while one it
holds is not would hold itself, and such a union is no candidate; so where every union ends with a
layout, each layout is the one of its fields' final scalars.

* `not_reach_of_reaches` — the search of `reaches` is complete.
* `decideUnion_kept` — what `decide` keeps: the unions laid out so far are laid out for good.
* `unionLayouts_laid` — the layouts of the unions, when all have one.
-/

namespace Aipl.Checker

open Aipl.Lib Aipl.Lib.Outcome

variable {st : Structs}

/-- Union `n` holds union `m` inline. -/
def Holds (st : Structs) (n m : String) : Prop := ∃ u, st.union n = some u ∧ m ∈ holds u

/-- Union `n` holds `m`, directly or through others. -/
def Reach (st : Structs) : String → String → Prop := Relation.TransGen (Holds st)

/-! ### The search -/

/-- What the search from `n` has to do and has seen takes in all that `n` and the seen ones hold. -/
structure Searching (st : Structs) (n target : String) (s : List String × List String) : Prop where
  start : ∀ m, Holds st n m → m ∈ s.1 ∨ m ∈ s.2
  seen : ∀ x ∈ s.2, ∀ m, Holds st x m → m ∈ s.1 ∨ m ∈ s.2
  target : target ∉ s.2

theorem reachRound_searching {n target : String} {s : List String × List String}
    (h : Searching st n target s) :
    Returns (Sum.elim (Searching st n target) fun b => b = false → ¬ Reach st n target)
      (reachRound st target s) := by
  obtain ⟨todo, seen⟩ := s
  obtain ⟨hstart, hseen, htarget⟩ := h
  cases todo with
  | nil =>
    -- nothing to do: the seen names are closed
    rintro -  hreach
    have hmem : ∀ m, Reach st n m → m ∈ seen := by
      intro m hm
      induction hm with
      | single hm => simpa using hstart _ hm
      | tail _ hm ih => simpa using hseen _ ih _ hm
    exact htarget (hmem target hreach)
  | cons m todo =>
    rw [reachRound]
    dsimp only
    by_cases hm : m = target
    · rw [if_pos hm]
      exact fun h => Bool.noConfusion h
    · rw [if_neg hm]
      by_cases hin : m ∈ seen
      · rw [if_pos hin]
        have hsplit : ∀ x, x ∈ m :: todo ∨ x ∈ seen → x ∈ todo ∨ x ∈ seen := by
          rintro x (hx | hx)
          · rcases List.mem_cons.mp hx with rfl | hx
            · exact .inr hin
            · exact .inl hx
          · exact .inr hx
        exact ⟨fun x hx => hsplit x (hstart x hx), fun y hy x hx => hsplit x (hseen y hy x hx), htarget⟩
      · rw [if_neg hin]
        have htarget' : target ∉ seen ++ [m] := by
          simpa [htarget] using fun h : target = m => hm h.symm
        -- one more name is seen; what it holds is to do
        have hsplit : ∀ (more : List String) (x : String), x ∈ m :: todo ∨ x ∈ seen →
            x ∈ more ++ todo ∨ x ∈ seen ++ [m] := by
          rintro more x (hx | hx)
          · rcases List.mem_cons.mp hx with rfl | hx
            · exact .inr (by simp)
            · exact .inl (by simp [hx])
          · exact .inr (by simp [hx])
        cases hu : st.union m with
        | none =>
          refine ⟨fun x hx => hsplit [] x (hstart x hx), fun y hy x hx => ?_, htarget'⟩
          rcases List.mem_append.mp hy with hy | hy
          · exact hsplit [] x (hseen y hy x hx)
          · obtain rfl : y = m := by simpa using hy
            obtain ⟨u, hu', -⟩ := hx
            rw [hu] at hu'
            cases hu'
        | some u =>
          refine ⟨fun x hx => hsplit _ x (hstart x hx), fun y hy x hx => ?_, htarget'⟩
          rcases List.mem_append.mp hy with hy | hy
          · exact hsplit _ x (hseen y hy x hx)
          · obtain rfl : y = m := by simpa using hy
            obtain ⟨u', hu', hx⟩ := hx
            rw [hu] at hu'
            cases hu'
            exact .inl (by simp [hx])

/-- **The search is complete**: a union that is not found does not hold itself. -/
theorem not_reach_of_reaches {fuel : Nat} {n : String} (h : reaches fuel st [n] n = done false) :
    ¬ Reach st n n := by
  rw [reaches] at h
  refine (iterate_returns (Searching st n n) (fun b => b = false → ¬ Reach st n n)
    (fun s hs => reachRound_searching hs) fuel _ ⟨?_, ?_, ?_⟩).of_eq_done h rfl
  · rintro m ⟨u, hu, hm⟩
    refine .inl ?_
    rw [List.mem_reverse]
    simp [hu, hm]
  · exact fun x hx => absurd hx List.not_mem_nil
  · exact List.not_mem_nil

/-! ### Laying out -/

variable {scalarFuel : Nat}

/-- What a variant's field may be: a type whose scalars depend on the structs only, or a union. -/
def Inline (t : Ty) : Prop := (∃ m, t = .union m) ∨ Plain t

/-- `x` is laid out, after the unions it holds. -/
def LaidOut (scalarFuel : Nat) (st : Structs) (x : String) : Prop :=
  ∃ u l, st.union x = some u ∧ (∀ m ∈ holds u, (st.layout m).isSome) ∧
    sumLayout (scalars scalarFuel st) u.fieldTypes = done l ∧ st.layout x = some l

/-- The state of the recursion: `stack` are the unions being laid out, and each one decided is laid
out or on the stack, unless one is left without a layout. -/
structure Deciding (scalarFuel : Nat) (candidates : List String) (st₀ : Structs)
    (stack : List String) (s : Structs × List String) : Prop where
  defs : s.1.defs = st₀.defs
  unions : s.1.unions = st₀.unions
  waiting : ∀ x ∈ stack, x ∈ s.2
  keys : ∀ x, (s.1.layout x).isSome → x ∈ s.2 ∧ x ∉ stack ∧ x ∈ candidates
  laid : (∀ x u, st₀.union x = some u → ∀ m ∈ holds u, m ∈ candidates) →
    (∃ x ∈ s.2, x ∉ stack ∧ (st₀.union x).isSome ∧ s.1.layout x = none) ∨
      ∀ x, (s.1.layout x).isSome → LaidOut scalarFuel s.1 x

theorem layout_cons {l : SumLayout} {n x : String} :
    Structs.layout { st with byValue := (n, l) :: st.byValue } x =
      if n = x then some l else st.layout x := by
  rw [Structs.layout, Structs.layout]
  dsimp only
  rw [List.find?_cons]
  by_cases h : n = x
  · simp [h]
  · rw [if_neg h, beq_false_of_ne h]

/-- The scalars of the fields of a union, once one more union has its layout. -/
theorem sumLayout_cons (hplain : PlainValues st) {u : UnionDef} {n : String} {l l' : SumLayout}
    (hinline : ∀ ts ∈ u.fieldTypes, ∀ t ∈ ts, Inline t) (hn : st.layout n = none)
    (hheld : ∀ m ∈ holds u, (st.layout m).isSome)
    (h : sumLayout (scalars scalarFuel st) u.fieldTypes = done l) :
    sumLayout (scalars scalarFuel { st with byValue := (n, l') :: st.byValue }) u.fieldTypes
      = done l := by
  refine sumLayout_mono (fun ts hts t ht r hr => ?_) h
  rcases hinline ts hts t ht with ⟨m, rfl⟩ | hp
  · have hm : m ∈ holds u := by
      rw [holds, List.mem_filterMap]
      exact ⟨.union m, List.mem_flatten.mpr ⟨ts, hts, ht⟩, rfl⟩
    have hne : n ≠ m := by
      rintro rfl
      have hsome := hheld n hm
      rw [hn] at hsome
      cases hsome
    cases scalarFuel with
    | zero => cases hr
    | succ fuel =>
      rw [scalars] at hr ⊢
      rw [layout_cons, if_neg hne]
      exact hr
  · have heq : scalars scalarFuel { st with byValue := (n, l') :: st.byValue } t
        = scalars scalarFuel st t := scalars_plain hplain (by rfl) hp scalarFuel
    rw [heq]
    exact hr

theorem LaidOut.cons (hplain : PlainValues st)
    (hinline : ∀ x u, st.union x = some u → ∀ ts ∈ u.fieldTypes, ∀ t ∈ ts, Inline t)
    {n x : String} {l : SumLayout} (hn : st.layout n = none) (h : LaidOut scalarFuel st x) :
    LaidOut scalarFuel { st with byValue := (n, l) :: st.byValue } x := by
  obtain ⟨u, lx, hu, hheld, hsum, hlx⟩ := h
  have hne : n ≠ x := by
    rintro rfl
    rw [hn] at hlx
    cases hlx
  refine ⟨u, lx, hu, fun m hm => ?_, sumLayout_cons hplain (hinline x u hu) hn hheld hsum, ?_⟩
  · rw [layout_cons]
    split
    · rfl
    · exact hheld m hm
  · rw [layout_cons, if_neg hne]
    exact hlx

variable {candidates : List String}

/-- What one call of `decide` keeps. -/
structure Decided (scalarFuel : Nat) (candidates : List String) (st₀ : Structs)
    (stack : List String) (s s' : Structs × List String) : Prop where
  deciding : Deciding scalarFuel candidates st₀ stack s'
  grows : ∀ x ∈ s.2, x ∈ s'.2

theorem union_of_unions {st st₀ : Structs} (h : st.unions = st₀.unions) (n : String) :
    st.union n = st₀.union n := by
  rw [Structs.union, h, Structs.union]

theorem get_of_defs {st st₀ : Structs} (h : st.defs = st₀.defs) (n : String) :
    st.get n = st₀.get n := by
  rw [Structs.get, h, Structs.get]

variable {st₀ : Structs}

/-- A union goes onto the stack. -/
theorem Deciding.push {stack : List String} {s : Structs × List String} {n : String}
    (h : Deciding scalarFuel candidates st₀ stack s) (hn : n ∉ s.2) :
    Deciding scalarFuel candidates st₀ (n :: stack) (s.1, s.2 ++ [n]) := by
  obtain ⟨hdefs, hunions, hstack, hkeys, hlaid⟩ := h
  refine ⟨hdefs, hunions, fun x hx => ?_, fun x hx => ?_, fun hheld => ?_⟩
  · rcases List.mem_cons.mp hx with rfl | hx
    · simp
    · simp [hstack x hx]
  · obtain ⟨h₁, h₂, h₃⟩ := hkeys x hx
    refine ⟨by simp [h₁], ?_, h₃⟩
    have hne : x ≠ n := fun heq => hn (heq ▸ h₁)
    simp [hne, h₂]
  · rcases hlaid hheld with ⟨x, hx, hx', hu, hnone⟩ | hlaid
    · have hne : x ≠ n := fun heq => hn (heq ▸ hx)
      exact .inl ⟨x, by simp [hx], by simp [hne, hx'], hu, hnone⟩
    · exact .inr hlaid

theorem foldAll_decided {stack ms : List String}
    {f : Structs × List String → String → Outcome (Structs × List String)}
    (hone : ∀ m ∈ ms, ∀ t t', Deciding scalarFuel candidates st₀ stack t → f t m = done t' →
      Decided scalarFuel candidates st₀ stack t t' ∧ m ∈ t'.2)
    {t t' : Structs × List String} (ht : Deciding scalarFuel candidates st₀ stack t)
    (h : foldAll f t ms = done t') :
    Decided scalarFuel candidates st₀ stack t t' ∧ ∀ m ∈ ms, m ∈ t'.2 := by
  induction ms generalizing t with
  | nil =>
    injection h with h
    subst h
    exact ⟨⟨ht, fun x hx => hx⟩, fun m hm => absurd hm List.not_mem_nil⟩
  | cons m ms ih =>
    rw [foldAll] at h
    obtain ⟨t₁, ht₁, h⟩ := bind_eq_done h
    obtain ⟨⟨hd₁, hg₁⟩, hm₁⟩ := hone m List.mem_cons_self t t₁ ht ht₁
    obtain ⟨⟨hd₂, hg₂⟩, hms₂⟩ :=
      ih (fun m' hm' => hone m' (List.mem_cons_of_mem _ hm')) hd₁ h
    refine ⟨⟨hd₂, fun x hx => hg₂ x (hg₁ x hx)⟩, fun m' hm' => ?_⟩
    rcases List.mem_cons.mp hm' with rfl | hm'
    · exact hg₂ _ hm₁
    · exact hms₂ m' hm'

/-- **What `decide` keeps.**  The unions that wait for it reach the one it lays out. -/
theorem decideUnion_kept (hplain : PlainValues st₀)
    (hinline : ∀ x u, st₀.union x = some u → ∀ ts ∈ u.fieldTypes, ∀ t ∈ ts, Inline t)
    (hunion : ∀ x ∈ candidates, (st₀.union x).isSome)
    (hacyclic : ∀ x ∈ candidates, ¬ Reach st₀ x x) {fuel : Nat} {stack : List String}
    {s s' : Structs × List String} {n : String}
    (hs : Deciding scalarFuel candidates st₀ stack s) (hn : n ∈ candidates)
    (hreach : ∀ x ∈ stack, Reach st₀ x n)
    (h : decideUnion scalarFuel candidates fuel s n = done s') :
    Decided scalarFuel candidates st₀ stack s s' ∧ n ∈ s'.2 := by
  induction fuel generalizing s s' n stack with
  | zero => cases h
  | succ fuel ih =>
    obtain ⟨st, decided⟩ := s
    rw [decideUnion] at h
    split at h
    · rename_i hmem
      injection h with h
      subst h
      exact ⟨⟨hs, fun x hx => hx⟩, hmem⟩
    · rename_i hmem
      obtain ⟨u, hu, h⟩ := bind_eq_done h
      obtain ⟨⟨st₁, decided₁⟩, hfold, h⟩ := bind_eq_done h
      obtain ⟨l, hl, h⟩ := bind_eq_done h
      injection h with h
      subst h
      have hu : st₀.union n = some u := by
        rw [← union_of_unions hs.unions]
        cases hun : st.union n with
        | none => rw [hun] at hu; cases hu
        | some u' =>
          rw [hun] at hu
          injection hu with hu
          rw [hu]
      -- the unions it holds, with this one on the stack
      have hone : ∀ m ∈ (holds u).filter fun m => decide (m ∈ candidates), ∀ t t',
          Deciding scalarFuel candidates st₀ (n :: stack) t →
          decideUnion scalarFuel candidates fuel t m = done t' →
          Decided scalarFuel candidates st₀ (n :: stack) t t' ∧ m ∈ t'.2 := by
        intro m hm t t' ht hrun
        obtain ⟨hm, hcand⟩ : m ∈ holds u ∧ m ∈ candidates := by simpa using hm
        have hedge : Holds st₀ n m := ⟨u, hu, hm⟩
        refine ih ht hcand (fun x hx => ?_) hrun
        rcases List.mem_cons.mp hx with rfl | hx
        · exact .single hedge
        · exact .tail (hreach x hx) hedge
      obtain ⟨⟨hd, hg⟩, hall⟩ := foldAll_decided hone (hs.push hmem) hfold
      have hn₁ : n ∈ decided₁ := hg n (by simp)
      have hnstack : n ∉ stack := fun hmem' => hmem (hs.waiting n hmem')
      have hnone : st₁.layout n = none := by
        by_contra hsome
        obtain ⟨-, hnot, -⟩ := hd.keys n (Option.isSome_iff_ne_none.mpr hsome)
        exact hnot List.mem_cons_self
      have hgrows : ∀ x ∈ decided, x ∈ decided₁ := fun x hx => hg x (by simp [hx])
      have hstack : ∀ x ∈ stack, x ∈ decided₁ := fun x hx => hd.waiting x (List.mem_cons_of_mem _ hx)
      split
      · rename_i hsmall
        refine ⟨⟨⟨hd.defs, hd.unions, hstack, fun x hx => ?_, fun hheld => ?_⟩, hgrows⟩, hn₁⟩
        · rw [layout_cons] at hx
          split at hx
          · rename_i heq
            exact heq ▸ ⟨hn₁, hnstack, hn⟩
          · obtain ⟨h₁, h₂, h₃⟩ := hd.keys x hx
            exact ⟨h₁, fun hmem' => h₂ (List.mem_cons_of_mem _ hmem'), h₃⟩
        · dsimp only
          by_cases hlost : ∃ x ∈ decided₁, x ∉ n :: stack ∧ (st₀.union x).isSome ∧ st₁.layout x = none
          · obtain ⟨x, hx, hx', hux, hxnone⟩ := hlost
            obtain ⟨hne, hx'⟩ : x ≠ n ∧ x ∉ stack := by simpa using hx'
            refine .inl ⟨x, hx, hx', hux, ?_⟩
            rw [layout_cons, if_neg (Ne.symm hne)]
            exact hxnone
          · refine .inr fun x hx => ?_
            have hlaid := (hd.laid hheld).resolve_left hlost
            have hplain₁ : PlainValues st₁ := fun m d hget => by
              rw [get_of_defs hd.defs] at hget
              exact hplain m d hget
            have hinline₁ : ∀ x u, st₁.union x = some u → ∀ ts ∈ u.fieldTypes, ∀ t ∈ ts, Inline t := by
              intro x u hxu
              rw [union_of_unions hd.unions] at hxu
              exact hinline x u hxu
            rw [layout_cons] at hx
            split at hx
            · rename_i heq
              subst heq
              -- the unions it holds are laid out: none of them waits for it
              have hheldLaid : ∀ m ∈ holds u, (st₁.layout m).isSome := by
                intro m hm
                by_contra hno
                refine hlost ⟨m, hall m (by simp [hm, hheld n u hu m hm]), fun hmstack => ?_, ?_, ?_⟩
                · have hedge : Holds st₀ n m := ⟨u, hu, hm⟩
                  rcases List.mem_cons.mp hmstack with rfl | hmstack
                  · exact hacyclic m (hheld m u hu m hm) (.single hedge)
                  · exact hacyclic m (hheld n u hu m hm) (.tail (hreach m hmstack) hedge)
                · exact hunion m (hheld n u hu m hm)
                · simpa using hno
              have hun₁ : st₁.union n = some u := by rw [union_of_unions hd.unions, hu]
              refine ⟨u, l, hun₁, fun m hm => ?_,
                sumLayout_cons hplain₁ (hinline₁ n u hun₁) hnone hheldLaid hl, ?_⟩
              · rw [layout_cons]
                split
                · rfl
                · exact hheldLaid m hm
              · rw [layout_cons, if_pos rfl]
            · exact (hlaid x hx).cons hplain₁ hinline₁ hnone
      · refine ⟨⟨⟨hd.defs, hd.unions, hstack, fun x hx => ?_,
          fun _ => .inl ⟨n, hn₁, hnstack, ?_, hnone⟩⟩, hgrows⟩, hn₁⟩
        · obtain ⟨h₁, h₂, h₃⟩ := hd.keys x hx
          exact ⟨h₁, fun hmem' => h₂ (List.mem_cons_of_mem _ hmem'), h₃⟩
        · rw [hu]
          rfl

/-! ### The program's unions -/

theorem union_isSome_iff {st : Structs} {n : String} :
    (st.union n).isSome ↔ n ∈ st.unions.map UnionDef.name := by
  rw [Structs.union, List.find?_isSome, List.mem_map]
  constructor
  · rintro ⟨u, hu, heq⟩
    exact ⟨u, hu, by simpa using heq⟩
  · rintro ⟨u, hu, heq⟩
    exact ⟨u, hu, by simpa using heq⟩

/-- **The layouts of the unions**, where every one of them has a layout. -/
theorem new_laidOut {fuel : Nat} {defs : List StructDef} {unions : List UnionDef}
    (h : Structs.new fuel defs unions = done st) (hplain : PlainValues st)
    (hinline : ∀ x u, st.union x = some u → ∀ ts ∈ u.fieldTypes, ∀ t ∈ ts, Inline t)
    (hheld : ∀ x u, st.union x = some u → ∀ m ∈ holds u, (st.union m).isSome)
    (hall : ∀ x, (st.union x).isSome → (st.layout x).isSome) :
    ∀ x, (st.layout x).isSome → LaidOut fuel st x := by
  rw [Structs.new] at h
  obtain ⟨byValue, hlayouts, h⟩ := bind_eq_done h
  injection h with h
  subst h
  intro x hx
  rw [unionLayouts] at hlayouts
  obtain ⟨candidates, hcands, hlayouts⟩ := bind_eq_done hlayouts
  obtain ⟨⟨work, decided⟩, hfold, hlayouts⟩ := bind_eq_done hlayouts
  injection hlayouts with hlayouts
  have hcand : ∀ n ∈ candidates, (Structs.union ⟨defs, unions, []⟩ n).isSome ∧
      ¬ Reach ⟨defs, unions, []⟩ n n := by
    intro n hn
    obtain ⟨hmem, hself⟩ := mem_of_filterAll hcands hn
    refine ⟨union_isSome_iff.mpr (List.mem_insertionSort _ |>.mp hmem), ?_⟩
    obtain ⟨self, hself, hnot⟩ := bind_eq_done hself
    cases self with
    | true => cases hnot
    | false => exact not_reach_of_reaches hself
  have hstart : Deciding fuel candidates ⟨defs, unions, []⟩ [] (⟨defs, unions, []⟩, []) :=
    ⟨rfl, rfl, fun x hx => hx, fun x hx => Bool.noConfusion hx,
      fun _ => .inr fun x hx => Bool.noConfusion hx⟩
  have hplain₀ : PlainValues ⟨defs, unions, []⟩ := hplain
  obtain ⟨⟨hd, -⟩, -⟩ := foldAll_decided (fun m hm t t' ht hrun =>
    decideUnion_kept hplain₀ hinline (fun n hn => (hcand n hn).1) (fun n hn => (hcand n hn).2) ht hm
      (fun x hx => absurd hx List.not_mem_nil) hrun) hstart hfold
  obtain rfl : work = ⟨defs, unions, byValue⟩ := by
    obtain ⟨hdefs, hunions, -⟩ := hd
    cases work
    dsimp only at hdefs hunions hlayouts
    rw [hdefs, hunions, hlayouts]
  refine (hd.laid fun n u hu m hm => (hd.keys m (hall m (hheld n u hu m hm))).2.2).elim ?_
    fun hlaid => hlaid x hx
  rintro ⟨y, -, -, hy, hnone⟩
  have hsome := hall y hy
  rw [hnone] at hsome
  cases hsome

end Aipl.Checker
