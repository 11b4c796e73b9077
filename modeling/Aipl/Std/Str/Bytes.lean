import Aipl.Lib.Outcome

/-! # `str.Bytes`

A view is the list of its bytes, of which there are fewer than memory has: a place in one, and what is a few
bytes on, is a number that does not wrap. -/

namespace Aipl.StdBytes

open Aipl.Lib Aipl.Lib.Outcome

/-- `str.byte_at`. -/
def byteAt (x : List (BitVec 8)) (i : Nat) : Outcome Nat := ofOption (x[i]?.map BitVec.toNat)

/-- `str.slice`. -/
def slice (x : List (BitVec 8)) (start len : Nat) : Outcome (List (BitVec 8)) :=
  if start + len ≤ x.length then pure ((x.drop start).take len) else stop

variable {x rest : List (BitVec 8)} {i : Nat} {c : BitVec 8}

theorem byteAt_eq (h : x[i]? = some c) : byteAt x i = done c.toNat := by
  rw [byteAt, h]
  rfl

/-- The byte that a rest of the view begins with. -/
theorem getElem?_of_drop (h : x.drop i = c :: rest) : x[i]? = some c := by
  have hget : (x.drop i)[0]? = some c := by rw [h]; rfl
  rwa [List.getElem?_drop, Nat.add_zero] at hget

theorem byteAt_drop (h : x.drop i = c :: rest) : byteAt x i = done c.toNat := byteAt_eq (getElem?_of_drop h)

theorem drop_succ (h : x.drop i = c :: rest) : x.drop (i + 1) = rest := by
  rw [← List.drop_drop, h]
  rfl

theorem lt_of_drop (h : x.drop i = c :: rest) : i < x.length := by
  by_contra hge
  rw [List.drop_eq_nil_of_le (Nat.le_of_not_lt hge)] at h
  cases h

/-- The rest of a view from a place in it. -/
theorem exists_cons (h : i < x.length) : ∃ c rest, x.drop i = c :: rest :=
  ⟨_, _, List.drop_eq_getElem_cons h⟩

theorem slice_eq {start len : Nat} (h : start + len ≤ x.length) : slice x start len = done ((x.drop start).take len) := if_pos h

/-- Where a text is cut before the first of some bytes, it is cut one way. -/
theorem cut_unique {P : BitVec 8 → Prop} {a a' b b' : List (BitVec 8)} (heq : a ++ b = a' ++ b') (ha : ∀ c ∈ a, ¬ P c)
    (ha' : ∀ c ∈ a', ¬ P c) (hb : ∀ c r, b = c :: r → P c) (hb' : ∀ c r, b' = c :: r → P c) : a = a' ∧ b = b' := by
  rcases List.append_eq_append_iff.mp heq with ⟨e, rfl, rfl⟩ | ⟨e, rfl, rfl⟩
  · cases e with
    | nil => simp
    | cons c e => exact absurd (hb c _ rfl) (ha' c (by simp))
  · cases e with
    | nil => simp
    | cons c e => exact absurd (hb' c _ rfl) (ha c (by simp))

end Aipl.StdBytes
