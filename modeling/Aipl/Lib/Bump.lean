import Mathlib.Data.List.Basic

/-! # Library — stretches of memory filled from the low end up

Memory comes in stretches, one of which is being filled; blocks are placed in it one after the other,
each taking up some room.  Nothing here names a program.

* `Bump.Ok` — the invariant: the used part is within its stretch, each block lies in its stretch, below
  the used mark of the one being filled, and beyond those placed there before it.
* `Ok.beyond` — what is placed next lies beyond every block of its stretch.
* `Ok.place`, `Ok.append`, `Ok.next`, `Ok.clear` — placing a block, taking a new stretch, going on to the
  next one, and starting over.
* `Ok.forget`, `Ok.rewind` — giving a block back, with or without its room.
-/

namespace Aipl.Lib

/-- A stretch of memory. -/
structure Extent where
  base : Nat
  cap : Nat

/-- A block of `size` bytes at `addr`; it takes up `room` bytes of stretch `extent`. -/
structure Placed where
  extent : Nat
  addr : Nat
  size : Nat
  room : Nat
deriving DecidableEq

/-- The stretches, the one being filled, how much of it is used, and the blocks, the newest first. -/
structure Bump where
  extents : List Extent
  current : Nat
  used : Nat
  placed : List Placed

namespace Bump

/-- A block lies in its stretch, below the used mark if that is the one being filled. -/
structure Holds (b : Bump) (p : Placed) : Prop where
  size_le : p.size ≤ p.room
  room_pos : 0 < p.room
  le_current : p.extent ≤ b.current
  inside : ∃ e, b.extents[p.extent]? = some e ∧ e.base ≤ p.addr ∧ p.addr + p.room ≤ e.base + e.cap ∧
    (p.extent = b.current → p.addr + p.room ≤ e.base + b.used)

/-- Blocks of one stretch, the newest first, come one beyond the other. -/
def Stacked (placed : List Placed) : Prop :=
  placed.Pairwise fun p q => q.extent = p.extent → q.addr + q.room ≤ p.addr

/-- **The invariant.** -/
structure Ok (b : Bump) : Prop where
  current : ∃ e, b.extents[b.current]? = some e ∧ b.used ≤ e.cap
  holds : ∀ p ∈ b.placed, b.Holds p
  stacked : Stacked b.placed

variable {b : Bump} {e : Extent}

theorem Ok.used_le (h : b.Ok) (he : b.extents[b.current]? = some e) : b.used ≤ e.cap := by
  obtain ⟨e', he', hle⟩ := h.current
  cases he.symm.trans he'
  exact hle

theorem Ok.lt_length (h : b.Ok) : b.current < b.extents.length := by
  obtain ⟨e, he, -⟩ := h.current
  exact (List.getElem?_eq_some_iff.mp he).1

/-- The used mark lies beyond every block of the stretch being filled. -/
theorem Ok.beyond (h : b.Ok) (he : b.extents[b.current]? = some e) {p : Placed} (hp : p ∈ b.placed)
    (hcur : p.extent = b.current) : p.addr + p.room ≤ e.base + b.used := by
  obtain ⟨e', he', -, -, hle⟩ := (h.holds p hp).inside
  rw [hcur] at he'
  cases he.symm.trans he'
  exact hle hcur

/-- A block of `size` bytes is placed behind `header` bytes. -/
theorem Ok.place {size room : Nat} (h : b.Ok) (header : Nat) (he : b.extents[b.current]? = some e)
    (hsize : size ≤ room) (hroom : 0 < room) (hfit : b.used + header + room ≤ e.cap) :
    Ok { b with used := b.used + header + room
                placed := ⟨b.current, e.base + b.used + header, size, room⟩ :: b.placed } := by
  refine ⟨⟨e, he, hfit⟩, ?_, ?_⟩
  · intro p hp
    rcases List.mem_cons.mp hp with rfl | hp
    · exact ⟨hsize, hroom, Nat.le_refl _, e, he, by dsimp only; omega, by dsimp only; omega,
        fun _ => by dsimp only; omega⟩
    · obtain ⟨hsize', hroom', hle, e', he', hlo, hhi, -⟩ := h.holds p hp
      refine ⟨hsize', hroom', hle, e', he', hlo, hhi, ?_⟩
      intro hcur
      have hbeyond := h.beyond he hp hcur
      dsimp only at hcur
      rw [hcur] at he'
      cases he.symm.trans he'
      dsimp only
      omega
  · refine List.pairwise_cons.mpr ⟨?_, h.stacked⟩
    intro q hq hcur
    have hbeyond := h.beyond he hq hcur
    dsimp only
    omega

/-- A new stretch at the end. -/
theorem Ok.append (h : b.Ok) (e : Extent) : Ok { b with extents := b.extents ++ [e] } := by
  have hget : ∀ {i : Nat} {e' : Extent}, b.extents[i]? = some e' → (b.extents ++ [e])[i]? = some e' := by
    intro i e' hi
    rwa [List.getElem?_append_left (List.getElem?_eq_some_iff.mp hi).1]
  obtain ⟨e', he', hle⟩ := h.current
  refine ⟨⟨e', hget he', hle⟩, ?_, h.stacked⟩
  intro p hp
  obtain ⟨hsize, hroom, hcur, e', he', hin⟩ := h.holds p hp
  exact ⟨hsize, hroom, hcur, e', hget he', hin⟩

/-- On to the next stretch, of which nothing is used. -/
theorem Ok.next (h : b.Ok) (hlt : b.current + 1 < b.extents.length) :
    Ok { b with current := b.current + 1, used := 0 } := by
  refine ⟨⟨_, List.getElem?_eq_getElem hlt, Nat.zero_le _⟩, ?_, h.stacked⟩
  intro p hp
  obtain ⟨hsize, hroom, hcur, e, he, hlo, hhi, -⟩ := h.holds p hp
  refine ⟨hsize, hroom, Nat.le_succ_of_le hcur, e, he, hlo, hhi, ?_⟩
  intro heq
  dsimp only at heq
  omega

/-- Starting over in the first stretch. -/
theorem Ok.clear (h : b.Ok) : Ok { b with current := 0, used := 0, placed := [] } := by
  have hpos : 0 < b.extents.length := Nat.zero_lt_of_lt h.lt_length
  exact ⟨⟨_, List.getElem?_eq_getElem hpos, Nat.zero_le _⟩, fun p hp => absurd hp List.not_mem_nil, .nil⟩

/-- A block is given back, its room is not. -/
theorem Ok.forget {placed : List Placed} (h : b.Ok) (hsub : placed.Sublist b.placed) :
    Ok { b with placed := placed } := by
  refine ⟨h.current, ?_, h.stacked.sublist hsub⟩
  intro p hp
  obtain ⟨hsize, hroom, hcur, hin⟩ := h.holds p (hsub.mem hp)
  exact ⟨hsize, hroom, hcur, hin⟩

/-- **The last block** of the stretch being filled is given back with its room. -/
theorem Ok.rewind {l l' : List Placed} {p : Placed} (h : b.Ok) (hplaced : b.placed = l ++ p :: l')
    (he : b.extents[b.current]? = some e) (hcur : p.extent = b.current)
    (hlast : p.addr + p.room = e.base + b.used) :
    Ok { b with used := b.used - p.room, placed := l ++ l' } := by
  have hp : p ∈ b.placed := by
    rw [hplaced]
    simp
  obtain ⟨e', he', hlo, -, -⟩ := (h.holds p hp).inside
  rw [hcur] at he'
  cases he.symm.trans he'
  have hsub : (l ++ l').Sublist b.placed := by
    rw [hplaced]
    exact List.Sublist.append_left (List.sublist_cons_self p l') l
  have hle := h.used_le he
  refine ⟨⟨e, he, by dsimp only; omega⟩, ?_, h.stacked.sublist hsub⟩
  intro q hq
  obtain ⟨hsize, hroom, hqcur, e', he', hqlo, hqhi, -⟩ := h.holds q (hsub.mem hq)
  refine ⟨hsize, hroom, hqcur, e', he', hqlo, hqhi, ?_⟩
  intro heq
  have hbeyond := h.beyond he (hsub.mem hq) heq
  dsimp only at heq
  rw [heq] at he'
  cases he.symm.trans he'
  have hstacked := h.stacked
  rw [hplaced, Stacked, List.pairwise_append] at hstacked
  obtain ⟨-, hcons, hcross⟩ := hstacked
  dsimp only
  rcases List.mem_append.mp hq with hq | hq
  · -- a newer block would lie beyond the last one
    have := hcross q hq p List.mem_cons_self (hcur.trans heq.symm)
    omega
  · have := (List.pairwise_cons.mp hcons).1 q hq (heq.trans hcur.symm)
    omega

end Bump

end Aipl.Lib
