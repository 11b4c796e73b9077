import Mathlib.Data.List.Nodup
import Mathlib.Data.List.Perm.Subperm
import Mathlib.Data.Set.Basic
import Mathlib.Logic.Function.Basic
import Mathlib.Logic.Relation

/-! # Library — a worklist

What is reached from roots along a relation, by a queue and marks.

* `Explored` — the invariant of the loop that takes the queue's entries one after another.
* `Explored.visit` — a round keeps it.
* `Explored.seen_iff` — when the queue has been gone through, what is marked is what is reached.
-/

namespace Aipl.Lib

open Relation

variable {α : Type} {E : α → α → Prop} {R : α → Prop}

/-- What the roots lead to. -/
def Reached (E : α → α → Prop) (R : α → Prop) (x : α) : Prop := ∃ r, R r ∧ ReflTransGen E r x

theorem Reached.root {r : α} (h : R r) : Reached E R r := ⟨r, h, .refl⟩

theorem Reached.tail {x y : α} (h : Reached E R x) (hxy : E x y) : Reached E R y := by
  obtain ⟨r, hr, hrx⟩ := h
  exact ⟨r, hr, hrx.tail hxy⟩

/-- What has the roots and is closed has all they lead to. -/
theorem Reached.closed {S : α → Prop} (hroots : ∀ r, R r → S r) (hclosed : ∀ x y, S x → E x y → S y) {x : α} (h : Reached E R x) : S x := by
  obtain ⟨r, hr, hrx⟩ := h
  induction hrx with
  | refl => exact hroots r hr
  | tail _ hxy ih => exact hclosed _ _ ih hxy

structure Worklist (α : Type) where
  seen : α → Bool
  queue : List α

namespace Worklist

def empty : Worklist α := ⟨fun _ => false, []⟩

/-- What is marked is on the queue, once. -/
structure Ok (w : Worklist α) : Prop where
  mem : ∀ x, w.seen x = true ↔ x ∈ w.queue
  nodup : w.queue.Nodup

theorem empty_ok : Ok (empty : Worklist α) := ⟨fun _ => by simp [empty], List.nodup_nil⟩

section

variable [DecidableEq α] {w : Worklist α} {x y : α}

def add (w : Worklist α) (x : α) : Worklist α := ⟨Function.update w.seen x true, w.queue ++ [x]⟩

/-- Put on the queue, unless it has been. -/
def note (w : Worklist α) (x : α) : Worklist α := if w.seen x then w else w.add x

theorem add_seen : (w.add x).seen y = true ↔ y = x ∨ w.seen y = true := by
  rw [add]
  dsimp only
  rcases eq_or_ne y x with rfl | hne
  · simp
  · rw [Function.update_of_ne hne]
    simp [hne]

theorem note_seen : (w.note x).seen y = true ↔ y = x ∨ w.seen y = true := by
  rw [note]
  split
  · rename_i hx
    constructor
    · exact .inr
    · rintro (rfl | hy)
      · exact hx
      · exact hy
  · exact add_seen

theorem Ok.add (h : Ok w) (hx : ¬ w.seen x = true) : Ok (w.add x) := by
  refine ⟨fun y => ?_, ?_⟩
  · rw [add_seen, Worklist.add, List.mem_append, List.mem_singleton, h.mem, or_comm]
  · refine h.nodup.append (List.nodup_singleton x) ?_
    rw [List.disjoint_singleton]
    exact fun hmem => hx ((h.mem x).mpr hmem)

theorem Ok.note (h : Ok w) (x : α) : Ok (w.note x) := by
  rw [Worklist.note]
  split
  · exact h
  · rename_i hx
    exact h.add hx

theorem queue_prefix_note : w.queue <+: (w.note x).queue := by
  rw [note]
  split
  · exact List.prefix_rfl
  · exact List.prefix_append _ _

/-- All of `l` noted. -/
def noteAll (w : Worklist α) (l : List α) : Worklist α := l.foldl note w

theorem noteAll_seen : ∀ (l : List α) (w : Worklist α), (w.noteAll l).seen y = true ↔ y ∈ l ∨ w.seen y = true
  | [], w => by simp [noteAll]
  | x :: l, w => by
      rw [noteAll, List.foldl_cons, ← noteAll, noteAll_seen l, note_seen, List.mem_cons]
      tauto

theorem Ok.noteAll : ∀ (l : List α) {w : Worklist α}, Ok w → Ok (w.noteAll l)
  | [], _, h => h
  | x :: l, _, h => Ok.noteAll l (h.note x)

theorem queue_prefix_noteAll : ∀ (l : List α) (w : Worklist α), w.queue <+: (w.noteAll l).queue
  | [], _ => List.prefix_rfl
  | _ :: l, w => queue_prefix_note.trans (queue_prefix_noteAll l (w.note _))

end

variable {w : Worklist α} {x : α} {head : Nat}

/-- **The invariant**: only what is reached is marked, and the successors of the first `head` entries are. -/
structure Explored (E : α → α → Prop) (R : α → Prop) (w : Worklist α) (head : Nat) : Prop extends Ok w where
  roots : ∀ r, R r → w.seen r = true
  reached : ∀ x, w.seen x = true → Reached E R x
  visited : ∀ x ∈ w.queue.take head, ∀ y, E x y → w.seen y = true

theorem Explored.start (hok : Ok w) (h : ∀ x, w.seen x = true ↔ R x) : Explored E R w 0 :=
  { hok with
    roots := fun r hr => (h r).mpr hr
    reached := fun x hx => .root ((h x).mp hx)
    visited := fun x hx => by simp at hx }

/-- **A round** notes the successors of the entry at the head. -/
theorem Explored.visit [DecidableEq α] (h : Explored E R w head) (hx : w.queue[head]? = some x) {l : List α} (hl : ∀ y, y ∈ l ↔ E x y) :
    Explored E R (w.noteAll l) (head + 1) := by
  have hprefix := queue_prefix_noteAll l w
  have hmem : x ∈ w.queue := List.mem_of_getElem? hx
  have hseen : w.seen x = true := (h.mem x).mpr hmem
  have hlt : head < w.queue.length := (List.getElem?_eq_some_iff.mp hx).1
  refine { h.toOk.noteAll l with roots := fun r hr => ?_, reached := fun y hy => ?_, visited := fun y hy z hyz => ?_ }
  · exact (noteAll_seen l w).mpr (.inr (h.roots r hr))
  · rcases (noteAll_seen l w).mp hy with hy | hy
    · exact (h.reached x hseen).tail ((hl y).mp hy)
    · exact h.reached y hy
  · have htake : (w.noteAll l).queue.take (head + 1) = w.queue.take head ++ [x] := by
      obtain ⟨rest, hrest⟩ := hprefix
      rw [← hrest, List.take_append_of_le_length (by omega), List.take_add_one, hx, Option.toList_some]
    rw [htake, List.mem_append, List.mem_singleton] at hy
    rcases hy with hy | rfl
    · exact (noteAll_seen l w).mpr (.inr (h.visited y hy z hyz))
    · exact (noteAll_seen l w).mpr (.inl ((hl z).mpr hyz))

/-- **At the end** what is marked is what is reached. -/
theorem Explored.seen_iff (h : Explored E R w head) (hend : w.queue.length ≤ head) (x : α) : w.seen x = true ↔ Reached E R x := by
  refine ⟨h.reached x, Reached.closed h.roots fun y z hy hyz => ?_⟩
  refine h.visited y ?_ z hyz
  rw [List.take_of_length_le hend]
  exact (h.mem y).mp hy

/-- The queue is no longer than a list of all that is reached. -/
theorem Explored.length_le (h : Explored E R w head) {l : List α} (hl : ∀ x, Reached E R x → x ∈ l) : w.queue.length ≤ l.length :=
  (List.subperm_of_subset h.nodup fun x hx => hl x (h.reached x ((h.mem x).mpr hx))).length_le

end Worklist

end Aipl.Lib
