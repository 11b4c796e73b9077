import Mathlib.Data.List.Basic

/-! # Library — bottom-up merging

Runs of a width are merged two by two, and the width doubled, until one run is left.  A comparison may
come out as it likes each time it is asked; `takes a b first` says that it can take the first of `a` and
`b`, or the second.  Nothing here names a program.

* `IsStableSort` — a list's elements in order, equal ones in their first order.
* `Merged`, `Pass`, `Passes` — what a merge, a pass over the runs of one width, and all passes make.
* `Passes.perm` — whatever the comparison does, the elements stay.
* `Passes.isStableSort` — a comparison by a total preorder gives the stable sort.
-/

namespace Aipl.Lib

open List

variable {α : Type}

/-- A comparison by a total preorder: the first goes before the second, or is equal to it. -/
structure TotalPreorder (le : α → α → Bool) : Prop where
  trans : ∀ a b c, le a b → le b c → le a c
  total : ∀ a b, le a b ∨ le b a

/-- **The stable sort** of `xs`: its elements, in order, and each of its sublists that was in order still
is one; so equal elements keep their order. -/
structure IsStableSort (le : α → α → Bool) (xs ys : List α) : Prop where
  perm : ys ~ xs
  sorted : ys.Pairwise fun a b => le a b
  stable : ∀ zs : List α, zs.Pairwise (fun a b => le a b) → zs <+ xs → zs <+ ys

/-- Two runs merged; when both have elements left, the comparison takes one of their first. -/
inductive Merged (takes : α → α → Bool → Prop) : List α → List α → List α → Prop where
  | nil : Merged takes [] [] []
  | onlyFirst {x : α} {xs zs : List α} (h : Merged takes xs [] zs) : Merged takes (x :: xs) [] (x :: zs)
  | onlySecond {y : α} {ys zs : List α} (h : Merged takes [] ys zs) : Merged takes [] (y :: ys) (y :: zs)
  | first {x y : α} {xs ys zs : List α} (hxy : takes x y true) (h : Merged takes xs (y :: ys) zs) :
      Merged takes (x :: xs) (y :: ys) (x :: zs)
  | second {x y : α} {xs ys zs : List α} (hxy : takes x y false) (h : Merged takes (x :: xs) ys zs) :
      Merged takes (x :: xs) (y :: ys) (y :: zs)

/-- The runs of width `w` merged two by two; the last ones may be shorter, or missing. -/
inductive Pass (takes : α → α → Bool → Prop) (w : Nat) : List α → List α → Prop where
  | nil : Pass takes w [] []
  | runs {xs zs rest : List α} (hne : xs ≠ []) (hmerged : Merged takes (xs.take w) ((xs.drop w).take w) zs)
      (hrest : Pass takes w (xs.drop (2 * w)) rest) : Pass takes w xs (zs ++ rest)

/-- What passes make of `xs`, from runs of width 1 up to runs of a width. -/
inductive Passes (takes : α → α → Bool → Prop) (xs : List α) : Nat → List α → Prop where
  | start : Passes takes xs 1 xs
  | pass {w : Nat} {ys zs : List α} (h : Passes takes xs w ys) (hpass : Pass takes w ys zs) :
      Passes takes xs (2 * w) zs

variable {takes : α → α → Bool → Prop} {le : α → α → Bool} {xs ys zs : List α} {w : Nat}

/-! ### The elements stay -/

theorem Merged.perm (h : Merged takes xs ys zs) : zs ~ xs ++ ys := by
  induction h with
  | nil => exact .refl []
  | onlyFirst _ ih => exact ih.cons _
  | onlySecond _ ih => exact ih.cons _
  | first _ _ ih => exact ih.cons _
  | second _ _ ih => exact (ih.cons _).trans perm_middle.symm

theorem take_append_take_drop (xs : List α) (w : Nat) :
    xs.take w ++ (xs.drop w).take w = xs.take (2 * w) := by
  rw [Nat.two_mul, take_add]

theorem Pass.perm (h : Pass takes w xs zs) : zs ~ xs := by
  induction h with
  | nil => exact .refl []
  | @runs xs zs rest _ hmerged _ ih =>
    have hpair := hmerged.perm
    rw [take_append_take_drop] at hpair
    calc zs ++ rest ~ xs.take (2 * w) ++ xs.drop (2 * w) := hpair.append ih
      _ = xs := take_append_drop (2 * w) xs

/-- **Whatever the comparison does**, passes permute the elements. -/
theorem Passes.perm (h : Passes takes xs w zs) : zs ~ xs := by
  induction h with
  | start => exact .refl xs
  | pass _ hpass ih => exact hpass.perm.trans ih

/-! ### A comparison by a total preorder -/

theorem IsStableSort.nil : IsStableSort le ([] : List α) [] :=
  ⟨.refl [], .nil, fun _ _ h => h⟩

theorem IsStableSort.length_eq (h : IsStableSort le xs ys) : ys.length = xs.length := h.perm.length_eq

theorem isStableSort_singleton (a : α) : IsStableSort le [a] [a] :=
  ⟨.refl [a], pairwise_singleton _ a, fun _ _ h => h⟩

/-- A comparison that follows `le` merges as `List.merge` does. -/
theorem Merged.eq_merge (hle : ∀ a b c, takes a b c → c = le a b) (h : Merged takes xs ys zs) :
    zs = xs.merge ys le := by
  induction h with
  | nil => simp
  | onlyFirst _ ih => simpa using ih
  | onlySecond _ ih => simpa using ih
  | first hxy _ ih =>
    rw [cons_merge_cons, if_pos (hle _ _ _ hxy).symm, ih]
  | second hxy _ ih =>
    have hxy := (hle _ _ _ hxy).symm
    rw [cons_merge_cons, if_neg (by simp [hxy]), ih]

theorem sublist_merge_right (le : α → α → Bool) (xs ys : List α) : ys <+ xs.merge ys le := by
  induction xs generalizing ys with
  | nil => simp
  | cons x xs ihx =>
    induction ys with
    | nil => simp
    | cons y ys ihy =>
      rw [cons_merge_cons]
      split
      · exact (ihx (y :: ys)).cons x
      · exact ihy.cons_cons y

/-- An ordered list whose parts lie in two sorted runs, one after the other, lies in their merge. -/
theorem append_sublist_merge (hle : TotalPreorder le) {us vs : List α} (hxs : xs.Pairwise fun a b => le a b)
    (hus : us <+ xs) (hvs : vs <+ ys) (huv : (us ++ vs).Pairwise fun a b => le a b) :
    us ++ vs <+ xs.merge ys le := by
  induction xs generalizing us ys vs with
  | nil =>
    obtain rfl := sublist_nil.mp hus
    simpa using hvs
  | cons x xs ihx =>
    induction ys generalizing vs with
    | nil =>
      obtain rfl := sublist_nil.mp hvs
      simpa using hus
    | cons y ys ihy =>
      rw [cons_merge_cons]
      split
      · rename_i hxy
        cases hus with
        | cons _ hus => exact (ihx hxs.tail hus hvs huv).cons x
        | cons_cons _ hus => exact (ihx hxs.tail hus hvs huv.tail).cons_cons x
      · rename_i hxy
        cases hvs with
        | cons _ hvs => exact (ihy hvs huv).cons y
        | @cons_cons vs _ _ hvs =>
          -- were there an element of the first part, it would go before `y`, and `x` with it
          cases us with
          | nil =>
            exact (hvs.trans (sublist_merge_right le (x :: xs) ys)).cons_cons y
          | cons u us =>
            have huy : le u y := (pairwise_append.mp huv).2.2 u mem_cons_self y mem_cons_self
            have hxu : u = x ∨ le x u := by
              rcases mem_cons.mp (hus.subset mem_cons_self) with heq | hu
              · exact .inl heq
              · exact .inr (rel_of_pairwise_cons hxs hu)
            rcases hxu with rfl | hxu
            · exact absurd huy hxy
            · exact absurd (hle.trans _ _ _ hxu huy) hxy

/-- **Merging** stable sorts gives the stable sort of the two lists. -/
theorem IsStableSort.merge {xs' ys' : List α} (hle : TotalPreorder le) (hxs : IsStableSort le xs xs')
    (hys : IsStableSort le ys ys') : IsStableSort le (xs ++ ys) (xs'.merge ys' le) := by
  refine ⟨?_, ?_, ?_⟩
  · exact (merge_perm_append le).trans (hxs.perm.append hys.perm)
  · refine pairwise_merge hle.trans ?_ xs' ys' hxs.sorted hys.sorted
    intro a b
    simpa using hle.total a b
  · intro zs hzs hsub
    obtain ⟨us, vs, rfl, hus, hvs⟩ := sublist_append_iff.mp hsub
    obtain ⟨hus', hvs', -⟩ := pairwise_append.mp hzs
    exact append_sublist_merge hle hxs.sorted (hxs.stable us hus' hus) (hys.stable vs hvs' hvs) hzs

/-- Each run of width `w` of the second list is the stable sort of that of the first. -/
inductive Runs (le : α → α → Bool) (w : Nat) : List α → List α → Prop where
  | nil : Runs le w [] []
  | run {xs zs rest : List α} (hne : xs ≠ []) (hsort : IsStableSort le (xs.take w) zs)
      (hrest : Runs le w (xs.drop w) rest) : Runs le w xs (zs ++ rest)

theorem runs_one : ∀ xs : List α, Runs le 1 xs xs
  | [] => .nil
  | x :: xs => .run (cons_ne_nil x xs) (isStableSort_singleton x : IsStableSort le [x] [x]) (runs_one xs)

theorem Runs.nil_left (h : Runs le w [] ys) : ys = [] := by
  cases h with
  | nil => rfl
  | run hne => exact absurd rfl hne

/-- The first run, and the runs after it. -/
theorem Runs.split (h : Runs le w xs ys) :
    IsStableSort le (xs.take w) (ys.take w) ∧ Runs le w (xs.drop w) (ys.drop w) := by
  cases h with
  | nil =>
    simp only [take_nil, drop_nil]
    exact ⟨.nil, .nil⟩
  | @run _ zs rest hne hsort hrest =>
    have hlen := hsort.length_eq
    rw [length_take] at hlen
    rcases Nat.lt_or_ge xs.length w with hlt | hge
    · -- there is no second run
      rw [drop_eq_nil_of_le (Nat.le_of_lt hlt)] at hrest ⊢
      have hall : zs.take w = zs := take_of_length_le (by omega)
      rw [hrest.nil_left, append_nil, hall, drop_eq_nil_of_le (by omega)]
      exact ⟨hsort, .nil⟩
    · have hzs : zs.length = w := by omega
      rw [take_left' hzs, drop_left' hzs]
      exact ⟨hsort, hrest⟩

theorem Runs.length_eq (h : Runs le w xs ys) : ys.length = xs.length := by
  induction h with
  | nil => rfl
  | run _ hsort _ ih =>
    have hlen := hsort.length_eq
    rw [length_take] at hlen
    rw [length_append, hlen, ih, length_drop]
    omega

theorem Runs.ne_nil (h : Runs le w xs ys) (hys : ys ≠ []) : xs ≠ [] := by
  rintro rfl
  exact hys h.nil_left

/-- **A pass** doubles the width of the sorted runs. -/
theorem Runs.pass (hle : TotalPreorder le) (htakes : ∀ a b c, takes a b c → c = le a b)
    (hpass : Pass takes w ys zs) (h : Runs le w xs ys) : Runs le (2 * w) xs zs := by
  induction hpass generalizing xs with
  | nil =>
    obtain rfl : xs = [] := length_eq_zero_iff.mp h.length_eq.symm
    exact .nil
  | @runs ys zs rest hne hmerged _ ih =>
    obtain ⟨hfirst, hrest⟩ := h.split
    obtain ⟨hsecond, hrest⟩ := hrest.split
    rw [drop_drop, drop_drop, ← Nat.two_mul] at hrest
    have hmerge := hfirst.merge hle hsecond
    rw [take_append_take_drop, ← hmerged.eq_merge htakes] at hmerge
    exact .run (h.ne_nil hne) hmerge (ih hrest)

/-- **Passes by a total preorder** give the stable sort, once there is one run. -/
theorem Passes.isStableSort (hle : TotalPreorder le) (htakes : ∀ a b c, takes a b c → c = le a b)
    (h : Passes takes xs w zs) (hw : xs.length ≤ w) : IsStableSort le xs zs := by
  have hruns : Runs le w xs zs := by
    clear hw
    induction h with
    | start => exact runs_one xs
    | pass _ hpass ih => exact ih.pass hle htakes hpass
  have hfirst := hruns.split.1
  have hlen := h.perm.length_eq
  rw [take_of_length_le hw, take_of_length_le (by omega)] at hfirst
  exact hfirst

end Aipl.Lib
