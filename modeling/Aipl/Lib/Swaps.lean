import Mathlib.Data.List.Basic
import Mathlib.Data.List.Nodup
import Mathlib.Data.List.Perm.Basic

/-! # Library — lists arranged by swaps

Two places of a list swapped, and the shuffle that swaps each place, from the last one down, with a drawn one at or
before it.  Nothing here names a program.

* `swap_perm`, `map_swap` — a swap permutes, and moves places whatever stands there.
* `Draws`, `shuffled` — what is drawn for each place, and what the swaps come to.
* `shuffled_perm`, `shuffled_inj` — a permutation, a different one for different draws.
-/

namespace Aipl.Lib.Swaps

variable {α β : Type}

/-- The list with two places swapped, if it has them. -/
def swap (xs : List α) (i j : Nat) : List α :=
  match xs[i]?, xs[j]? with
  | some x, some y => (xs.set i y).set j x
  | _, _ => xs

variable {xs : List α} {i j k n : Nat} {x y : α}

theorem swap_eq (hi : xs[i]? = some x) (hj : xs[j]? = some y) : swap xs i j = (xs.set i y).set j x := by
  rw [swap, hi, hj]

theorem swap_perm (xs : List α) (i j : Nat) : (swap xs i j).Perm xs := by
  rw [swap]
  split
  · rename_i x y hx hy
    obtain ⟨hi, rfl⟩ := List.getElem?_eq_some_iff.mp hx
    obtain ⟨hj, rfl⟩ := List.getElem?_eq_some_iff.mp hy
    exact List.set_set_perm hi hj
  · rfl

@[simp] theorem length_swap (xs : List α) (i j : Nat) : (swap xs i j).length = xs.length := (swap_perm xs i j).length_eq

/-- A swap moves places, whatever stands there. -/
theorem map_swap (f : α → β) (xs : List α) (i j : Nat) : (swap xs i j).map f = swap (xs.map f) i j := by
  cases hi : xs[i]? with
  | none => simp [swap, hi]
  | some x =>
    cases hj : xs[j]? with
    | none => simp [swap, hi, hj]
    | some y => simp [swap, hi, hj, List.map_set]

theorem getElem?_swap_left (hi : i < xs.length) (hj : j < xs.length) : (swap xs i j)[i]? = xs[j]? := by
  rw [swap_eq (List.getElem?_eq_getElem hi) (List.getElem?_eq_getElem hj), List.getElem?_set]
  split
  · rename_i h
    subst h
    rw [List.length_set, if_pos hj, List.getElem?_eq_getElem hj]
  · simp [hi]

theorem getElem?_swap_of_ne (hi : k ≠ i) (hj : k ≠ j) : (swap xs i j)[k]? = xs[k]? := by
  rw [swap]
  split
  · rw [List.getElem?_set_ne hj.symm, List.getElem?_set_ne hi.symm]
  · rfl

/-! ### Shuffles -/

/-- Draws for the places below `n`, from the last one down: each is of a place at or before its own, and the first place
has none. -/
def Draws : Nat → List Nat → Prop
  | n + 2, j :: js => j < n + 2 ∧ Draws (n + 1) js
  | _ + 2, [] => False
  | _, js => js = []

/-- The swaps of these draws. -/
def shuffled : Nat → List Nat → List α → List α
  | n + 2, j :: js, xs => shuffled (n + 1) js (swap xs (n + 1) j)
  | _, _, xs => xs

theorem shuffled_perm : ∀ (n : Nat) (js : List Nat) (xs : List α), (shuffled n js xs).Perm xs
  | n + 2, j :: js, xs => (shuffled_perm (n + 1) js _).trans (swap_perm xs (n + 1) j)
  | 0, _, _ | 1, _, _ | _ + 2, [], _ => .refl _

theorem map_shuffled (f : α → β) : ∀ (n : Nat) (js : List Nat) (xs : List α),
    (shuffled n js xs).map f = shuffled n js (xs.map f)
  | n + 2, j :: js, xs => by rw [shuffled, shuffled, map_shuffled f (n + 1) js, map_swap]
  | 0, _, _ | 1, _, _ | _ + 2, [], _ => rfl

/-- The places past those that are drawn for are left alone. -/
theorem getElem?_shuffled_of_le : ∀ (n : Nat) (js : List Nat) (xs : List α), Draws n js → n ≤ k → (shuffled n js xs)[k]? = xs[k]?
  | n + 2, j :: js, xs, ⟨hj, hjs⟩, hk => by
      rw [shuffled, getElem?_shuffled_of_le (n + 1) js _ hjs (by omega), getElem?_swap_of_ne (by omega) (by omega)]
  | 0, _, _, _, _ | 1, _, _, _, _ | _ + 2, [], _, _, _ => rfl

/-- **Different draws make different arrangements.** -/
theorem shuffled_inj : ∀ (n : Nat) (js js' : List Nat) (xs : List α), xs.Nodup → n ≤ xs.length → Draws n js → Draws n js' →
    shuffled n js xs = shuffled n js' xs → js = js'
  | n + 2, j :: js, j' :: js', xs, hxs, hn, ⟨hj, hjs⟩, ⟨hj', hjs'⟩, heq => by
      -- the last place holds what was drawn for it first
      have hlast : ∀ {j : Nat} {js : List Nat}, j < n + 2 → Draws (n + 1) js → (shuffled (n + 2) (j :: js) xs)[n + 1]? = xs[j]? := by
        intro j js hj hjs
        rw [shuffled, getElem?_shuffled_of_le (n + 1) js _ hjs (Nat.le_refl _), getElem?_swap_left (by omega) (by omega)]
      have hsame : xs[j]? = xs[j']? := by rw [← hlast hj hjs, heq, hlast hj' hjs']
      obtain rfl : j = j' := by
        rw [List.getElem?_eq_getElem (by omega), List.getElem?_eq_getElem (by omega), Option.some_inj] at hsame
        exact (List.Nodup.getElem_inj_iff hxs).mp hsame
      have hrest := shuffled_inj (n + 1) js js' (swap xs (n + 1) j) ((swap_perm xs (n + 1) j).nodup_iff.mpr hxs)
        (by rw [length_swap]; omega) hjs hjs' heq
      rw [hrest]
  | 0, _, _, _, _, _, hjs, hjs', _ | 1, _, _, _, _, _, hjs, hjs', _ => Eq.trans hjs (Eq.symm hjs')
  | _ + 2, [], _, _, _, _, hjs, _, _ => hjs.elim
  | _ + 2, _ :: _, [], _, _, _, _, hjs', _ => hjs'.elim

end Aipl.Lib.Swaps
