import Aipl.Std.Text.Model

/-! # The pieces of a text

* `Pieces` — what is between the occurrences of a separator, sought from the left and not overlapping.
* `Pieces.flatten` — with the separator between them, they are the text.
* `Pieces.first` — with the separator after it, a piece has no earlier occurrence of it.
-/

namespace Aipl.StdText

open Aipl.StdStr

/-- `i` is the first place from `start` on at which `sep` occurs. -/
structure First (b sep : Bytes) (start i : Nat) : Prop where
  le : start ≤ i
  occurs : OccursAt b sep i
  none : ∀ j, start ≤ j → j < i → ¬ OccursAt b sep j

/-- **The pieces** of `b` from `start` on, of which the last is what is left from `e` on. -/
inductive Pieces (b sep : Bytes) : Nat → List Bytes → Nat → Prop where
  | last {start : Nat} (h : ∀ j, start ≤ j → ¬ OccursAt b sep j) : Pieces b sep start [b.drop start] start
  | more {start i e : Nat} {l : List Bytes} (h : First b sep start i) (t : Pieces b sep (i + sep.length) l e) :
      Pieces b sep start ((b.drop start).take (i - start) :: l) e

variable {b sep : Bytes} {start i i' e : Nat} {l : List Bytes}

theorem First.unique (h : First b sep start i) (h' : First b sep start i') : i = i' := by
  rcases Nat.lt_trichotomy i i' with hlt | heq | hgt
  · exact absurd h.occurs (h'.none i h.le hlt)
  · exact heq
  · exact absurd h'.occurs (h.none i' h'.le hgt)

/-- What a search finds. -/
theorem isFirst_iff {r : Int} : IsFirst b sep start r ↔ (∃ i : Nat, r = i ∧ First b sep start i) ∨ r = -1 ∧ ∀ j, start ≤ j → ¬ OccursAt b sep j := by
  refine or_congr (exists_congr fun i => and_congr_right fun _ => ?_) Iff.rfl
  exact ⟨fun ⟨hle, hocc, hnone⟩ => ⟨hle, hocc, hnone⟩, fun h => ⟨h.le, h.occurs, h.none⟩⟩

namespace Pieces

theorem ne_nil (h : Pieces b sep start l e) : l ≠ [] := by
  cases h with
  | last => exact List.cons_ne_nil _ _
  | more => exact List.cons_ne_nil _ _

theorem le_length (h : Pieces b sep start l e) (hstart : start ≤ b.length) : e ≤ b.length := by
  induction h with
  | last => exact hstart
  | more h t ih => exact ih h.occurs.1

theorem getLast (h : Pieces b sep start l e) : l = l.dropLast ++ [b.drop e] := by
  induction h with
  | last => rfl
  | more h t ih =>
    rw [List.dropLast_cons_of_ne_nil t.ne_nil, List.cons_append, ← ih]

/-- A text has its pieces. -/
theorem exists_of (hsep : 0 < sep.length) : ∀ (n start : Nat), b.length = start + n → ∃ l e, Pieces b sep start l e := by
  intro n
  induction n using Nat.strong_induction_on with
  | _ n ih =>
    intro start hn
    by_cases hnone : ∀ j, start ≤ j → ¬ OccursAt b sep j
    · exact ⟨_, _, .last hnone⟩
    · push Not at hnone
      classical
      have hfirst := Nat.find_spec hnone
      have hle := hfirst.2.1
      obtain ⟨l, e, t⟩ := ih (b.length - (Nat.find hnone + sep.length)) (by omega) (Nat.find hnone + sep.length) (by omega)
      exact ⟨_, _, .more ⟨hfirst.1, hfirst.2, fun j hj hlt hocc => Nat.find_min hnone hlt ⟨hj, hocc⟩⟩ t⟩

theorem take_append (h : First b sep start i) :
    b.drop start = (b.drop start).take (i - start) ++ (sep ++ b.drop (i + sep.length)) := by
  obtain ⟨r, hr⟩ := h.occurs.2
  have hle := h.le
  have hafter : b.drop (i + sep.length) = r := by
    rw [← List.drop_drop, ← hr, List.drop_left]
  have hat : (b.drop start).drop (i - start) = sep ++ r := by
    rw [List.drop_drop, Nat.add_sub_cancel' hle, hr]
  rw [hafter, ← hat, List.take_append_drop]

/-- **The separator put between the pieces** gives the text. -/
theorem flatten (h : Pieces b sep start l e) : (l.intersperse sep).flatten = b.drop start := by
  induction h with
  | last => simp
  | more h t ih =>
    obtain ⟨p, l, rfl⟩ := List.exists_cons_of_ne_nil t.ne_nil
    rw [List.intersperse_cons_cons, List.flatten_cons, List.flatten_cons, ih, ← take_append h]

/-- **A piece but the last** has the separator after it, and no earlier occurrence of it. -/
theorem first (h : Pieces b sep start l e) : ∀ piece ∈ l.dropLast, ∀ k < piece.length, ¬ OccursAt (piece ++ sep) sep k := by
  induction h with
  | last => simp
  | more h t ih =>
    rename_i start i e l
    rw [List.dropLast_cons_of_ne_nil t.ne_nil]
    intro piece hpiece
    rcases List.mem_cons.mp hpiece with rfl | hpiece
    · intro k hk hocc
      rw [List.length_take, List.length_drop] at hk
      have hle := h.le
      refine h.none (start + k) (by omega) (by omega) ?_
      -- an occurrence in the piece is one in the text
      have hsplit := take_append h
      rw [← List.append_assoc] at hsplit
      have hlen := congrArg List.length hsplit
      rw [List.length_append, List.length_drop, List.length_drop] at hlen
      have hend := hocc.1
      have hin := h.occurs.1
      refine ⟨by omega, ?_⟩
      obtain ⟨r, hr⟩ := hocc.2
      rw [← List.drop_drop, hsplit, List.drop_append_of_le_length (by omega), ← hr, List.append_assoc]
      exact List.prefix_append _ _
    · exact ih piece hpiece

theorem length_le (h : Pieces b sep start l e) : ∀ piece ∈ l, piece.length ≤ b.length := by
  induction h with
  | last =>
    intro piece hpiece
    rw [List.mem_singleton.mp hpiece, List.length_drop]
    omega
  | more h t ih =>
    intro piece hpiece
    rcases List.mem_cons.mp hpiece with rfl | hpiece
    · rw [List.length_take, List.length_drop]
      omega
    · exact ih piece hpiece

/-- There is a piece for each byte at most, and one more. -/
theorem count_le (h : Pieces b sep start l e) (hsep : 0 < sep.length) (hstart : start ≤ b.length) : l.length + start ≤ b.length + 1 := by
  induction h with
  | last =>
    rw [List.length_singleton]
    omega
  | more h t ih =>
    have hle := h.le
    have hrest := ih h.occurs.1
    rw [List.length_cons]
    omega

end Pieces

/-! ### A text between texts -/

variable {x : Bytes}

theorem intersperse_concat : ∀ l : List Bytes, (l ++ [x]).intersperse sep = l.flatMap (fun p => [p, sep]) ++ [x]
  | [] => rfl
  | [p] => rfl
  | p :: q :: l => by
      rw [List.cons_append, List.cons_append, List.intersperse_cons_cons, ← List.cons_append, intersperse_concat (q :: l)]
      rfl

theorem mem_intersperse : ∀ {l : List Bytes}, x ∈ l.intersperse sep → x = sep ∨ x ∈ l
  | [], h => .inr h
  | [p], h => .inr h
  | p :: q :: l, h => by
      rw [List.intersperse_cons_cons] at h
      rcases List.mem_cons.mp h with rfl | h
      · exact .inr List.mem_cons_self
      · rcases List.mem_cons.mp h with rfl | h
        · exact .inl rfl
        · exact (mem_intersperse h).imp_right (List.mem_cons_of_mem _)

end Aipl.StdText
