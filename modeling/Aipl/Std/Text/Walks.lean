import Aipl.Std.Text.Pieces

/-! # The walks over the occurrences

* `find_first`, `find_none`, `find_past` — one search.
* `each_eq`, `count_eq` — the loops, when the last search stays in reach: what they do is done for each piece.
* `each_past` — when it does not, they return nothing.
-/

namespace Aipl.StdText

open Aipl.Lib Aipl.Lib.Outcome Aipl.Std Aipl.StdBytes Aipl.StdStr

/-- A search for what does not occur from `e` on stays in reach: a long separator is looked for below `2 ^ 31`. -/
def InReach (b sep : Bytes) (e : Nat) : Prop := 64 < sep.length → Fits b sep false e

variable {fuel : Nat} {b sep : Bytes} {start i e : Nat} {l : List Bytes}

/-! ### One search -/

theorem find_first (h : First b sep start i) (hb : b.length < 2 ^ 31) (hsep : sep.length < 2 ^ 31)
    (hfuel : b.length + 2 * sep.length + 1 < fuel) : findFrom fuel b sep start = done (i : Int) := by
  have hin := h.occurs.1
  have hle := h.le
  have hfits : 64 < sep.length → Fits b sep false start := fun _ =>
    fits_of_occurs hb (by omega) hle hin ((occurs_iff hin).mpr h.occurs)
  obtain ⟨r, hr, hfirst⟩ := ((findFrom_iff hb hsep (by omega) hfuel).mpr hfits).exists
  rcases isFirst_iff.mp hfirst with ⟨i', rfl, hi'⟩ | ⟨-, hnone⟩
  · rw [hr, h.unique hi']
  · exact absurd h.occurs (hnone i hle)

theorem find_none (h : ∀ j, start ≤ j → ¬ OccursAt b sep j) (hreach : InReach b sep start) (hstart : start ≤ b.length)
    (hb : b.length < 2 ^ 31) (hsep : sep.length < 2 ^ 31) (hfuel : b.length + 2 * sep.length + 1 < fuel) :
    findFrom fuel b sep start = done (-1) := by
  obtain ⟨r, hr, hfirst⟩ := ((findFrom_iff hb hsep hstart hfuel).mpr hreach).exists
  rcases isFirst_iff.mp hfirst with ⟨i', rfl, hi'⟩ | ⟨rfl, -⟩
  · exact absurd hi'.occurs (h i' hi'.le)
  · exact hr

theorem find_past (hreach : ¬ InReach b sep start) (hstart : start ≤ b.length) (hb : b.length < 2 ^ 31)
    (hsep : sep.length < 2 ^ 31) (hfuel : b.length + 2 * sep.length + 1 < fuel) :
    Returns (fun _ => False) (findFrom fuel b sep start) := by
  rw [InReach] at hreach
  push Not at hreach
  obtain ⟨hlong, hfits⟩ := hreach
  rw [findFrom_long hlong (Int.natCast_nonneg start) (Int.ofNat_le.mpr hstart)]
  exact twoWay_returns (by omega) hsep hb hstart hfits (by omega)

/-! ### The loops -/

variable {α : Type} {body : α → Bytes → Outcome α}

theorem slice_piece (h : First b sep start i) : slice b start ((i : Int).toNat - start) = done ((b.drop start).take (i - start)) := by
  have hin := h.occurs.1
  have hle := h.le
  rw [Int.toNat_natCast, slice_eq (by omega)]

variable (hb : b.length < 2 ^ 31) (hsep : sep.length < 2 ^ 31) (hfuel : b.length + 2 * sep.length + 1 < fuel)

include hb hsep hfuel

variable (body) in
/-- **The loop** does its work for each piece but the last. -/
theorem each_eq (h : Pieces b sep start l e) (hreach : InReach b sep e) (hstart : start ≤ b.length) (acc : α) {m : Nat} (hm : l.length ≤ m) :
    (findFrom fuel b sep start >>= fun i => iterate (eachRound fuel b sep body) m (acc, start, i)) =
      foldAll body acc l.dropLast >>= fun acc => done (acc, e) := by
  induction h generalizing acc m with
  | last hnone =>
    obtain ⟨m, rfl⟩ : ∃ n, m = n + 1 := ⟨m - 1, by simp only [List.length_singleton] at hm; omega⟩
    rw [find_none hnone hreach hstart hb hsep hfuel, done_bind, iterate]
    rfl
  | more h t ih =>
    obtain ⟨m, rfl⟩ : ∃ n, m = n + 1 := ⟨m - 1, by rw [List.length_cons] at hm; omega⟩
    have hle := h.occurs.1
    rw [find_first h hb hsep hfuel, done_bind, iterate, eachRound]
    dsimp only
    rw [if_pos (Int.natCast_nonneg _), slice_piece h, done_bind, List.dropLast_cons_of_ne_nil t.ne_nil, foldAll, bind_assoc]
    cases body acc ((b.drop _).take _) with
    | done acc' =>
      have hrest := ih hreach hle acc' (m := m) (by rw [List.length_cons] at hm; omega)
      rw [done_bind, done_bind, Int.toNat_natCast, ← hrest, bind_assoc]
      rfl
    | stop => rfl
    | outOfFuel => rfl

variable (body) in
theorem each_past (h : Pieces b sep start l e) (hreach : ¬ InReach b sep e) (hstart : start ≤ b.length) (acc : α) {m : Nat} :
    Returns (fun _ => False) (findFrom fuel b sep start >>= fun i => iterate (eachRound fuel b sep body) m (acc, start, i)) := by
  induction h generalizing acc m with
  | last hnone => exact returns_bind (find_past hreach hstart hb hsep hfuel) fun _ hfalse => hfalse.elim
  | more h t ih =>
    have hle := h.occurs.1
    rw [find_first h hb hsep hfuel, done_bind]
    cases m with
    | zero => exact trivial
    | succ m =>
      rw [iterate, eachRound]
      dsimp only
      rw [if_pos (Int.natCast_nonneg _), slice_piece h, done_bind, bind_assoc]
      refine returns_bind_any fun acc' => ?_
      have hrest := ih hreach hle acc' (m := m)
      rw [Int.toNat_natCast, bind_assoc]
      exact hrest

/-- **Counting** counts the pieces but the last. -/
theorem count_eq (h : Pieces b sep start l e) (hreach : InReach b sep e) (hstart : start ≤ b.length) (k : Nat) {m : Nat} (hm : l.length ≤ m) :
    (findFrom fuel b sep start >>= fun i => iterate (countRound fuel b sep) m (k, i)) = done (k + l.dropLast.length) := by
  induction h generalizing k m with
  | last hnone =>
    obtain ⟨m, rfl⟩ : ∃ n, m = n + 1 := ⟨m - 1, by simp only [List.length_singleton] at hm; omega⟩
    rw [find_none hnone hreach hstart hb hsep hfuel, done_bind, iterate]
    rfl
  | more h t ih =>
    obtain ⟨m, rfl⟩ : ∃ n, m = n + 1 := ⟨m - 1, by rw [List.length_cons] at hm; omega⟩
    have hle := h.occurs.1
    have hrest := ih hreach hle (k + 1) (m := m) (by rw [List.length_cons] at hm; omega)
    rw [find_first h hb hsep hfuel, done_bind, iterate, countRound]
    dsimp only
    rw [if_pos (Int.natCast_nonneg _), Int.toNat_natCast, if_pos hle, bind_assoc, List.dropLast_cons_of_ne_nil t.ne_nil, List.length_cons]
    refine hrest.trans (congrArg done ?_)
    omega

end Aipl.StdText
