import Aipl.Std.Map.Model
import Aipl.Lib.Probing
import Aipl.Lib.Bits

/-! # The map's table as a probing table

The three arrays of a map read as one array of cells, so that the library's invariant of linear
probing speaks about the map.

* `cell` — what slot `i` of a map holds.
* `Inv` — the map's invariant: a power of two of slots, the counters, under three quarters of the
  slots ever used, and every entry where a probe finds it.
* `slotFor_sat` — what a probe returns, in a table with an empty slot.
-/

namespace Aipl.StdMap

open Aipl.Lib Aipl.Lib.Outcome Aipl.Lib.Probing Aipl.Std

variable {K V σ : Type}

/-! ### Keys up to `same` -/

/-- Keys that `same` takes for equal. -/
def Hash.setoid (H : Hash K) : Setoid K where
  r a b := H.same a b = true
  iseqv := ⟨H.same_refl, H.same_symm _ _, H.same_trans _ _ _⟩

/-- A key, up to `same`. -/
def Hash.Key (H : Hash K) : Type := Quotient H.setoid

/-- The class of a key. -/
def Hash.cls (H : Hash K) (k : K) : H.Key := Quotient.mk H.setoid k

instance (H : Hash K) : DecidableEq H.Key :=
  fun a b => Quotient.recOnSubsingleton₂ a b fun a b =>
    decidable_of_iff (H.same a b = true)
      ⟨fun h => Quotient.sound h, fun h => Quotient.exact h⟩

theorem Hash.cls_eq_iff (H : Hash K) {a b : K} : H.cls a = H.cls b ↔ H.same a b = true :=
  ⟨fun h => Quotient.exact h, fun h => Quotient.sound h⟩

/-- Where the probe path of a key starts. -/
def Hash.home (H : Hash K) : H.Key → Nat :=
  Quotient.lift (fun k => (H.hash k).toNat) fun a b h => by rw [H.hash_eq a b h]

@[simp] theorem Hash.home_cls (H : Hash K) (k : K) : H.home (H.cls k) = (H.hash k).toNat := rfl

/-! ### The cells of a map -/

/-- What slot `i` holds, by its state word. -/
def cell (m : Map K V σ) (i : Nat) : Cell K V :=
  match m.states[i]?, m.keys[i]?, m.vals[i]? with
  | some st, some k, some v =>
    if st = 0#32 then .empty else if st = 1#32 then .live k v else .dead
  | _, _, _ => .empty

/-- The three arrays have one length. -/
structure Shape (m : Map K V σ) (n : Nat) : Prop where
  keys : m.keys.length = n
  vals : m.vals.length = n
  states : m.states.length = n

theorem Shape.cell_eq {m : Map K V σ} {n i : Nat} (hs : Shape m n) (hi : i < n) :
    ∃ st k v, m.states[i]? = some st ∧ m.keys[i]? = some k ∧ m.vals[i]? = some v ∧
      cell m i = if st = 0#32 then .empty else if st = 1#32 then .live k v else .dead := by
  have h1 := List.getElem?_eq_getElem (l := m.states) (i := i) (by rw [hs.states]; exact hi)
  have h2 := List.getElem?_eq_getElem (l := m.keys) (i := i) (by rw [hs.keys]; exact hi)
  have h3 := List.getElem?_eq_getElem (l := m.vals) (i := i) (by rw [hs.vals]; exact hi)
  exact ⟨_, _, _, h1, h2, h3, by rw [cell, h1, h2, h3]⟩

/-- **The map's invariant**, over its key hash `H`. -/
structure Inv (H : Hash K) (m : Map K V σ) : Prop where
  shape : Shape m m.keys.length
  size : ∃ j, 3 ≤ j ∧ j ≤ 28 ∧ m.keys.length = 2 ^ j
  count : m.count.toNat = entries m.keys.length (cell m)
  used : m.used.toNat = occupied m.keys.length (cell m)
  load : 4 * m.used.toNat < 3 * m.keys.length
  placed : WellPlaced H.cls H.home m.keys.length (cell m)

/-- What a probe for `k` returns: the slot of `k`, or else a slot that `k` may take. -/
inductive Found (H : Hash K) (m : Map K V σ) (k : K) (i : Nat) : Prop where
  | hit {k' : K} {v : V} (h : cell m i = .live k' v) (hk : H.cls k' = H.cls k)
  | free (hfree : ∀ k' v, cell m i ≠ .live k' v)
      (habsent : Absent H.cls m.keys.length (cell m) (H.cls k))
      (hreach : Reaches (cell m) m.keys.length (H.home (H.cls k)) i)

/-! ### Probing -/

section Probe

variable (P : Params K V σ) {m : Map K V σ} {n j : Nat} {k : K} {t₀ : Nat}

/-- The loop of `slot_for`, at step `t` of the path, with an empty slot still ahead at step `t₀`.
No cell passed so far is empty or holds `k`; the tombstone kept is one of them. -/
theorem slotForLoop_sat (hs : Shape m n) (hj : j < 32) (hn : n = 2 ^ j) (ht₀ : t₀ < n)
    (hw : WellPlaced P.key.cls P.key.home n (cell m))
    (hempty : cell m (slot n (P.key.hash k).toNat t₀) = .empty) :
    ∀ (fuel t : Nat) (i tomb : BitVec 32), t ≤ t₀ → t₀ < fuel + t →
      i.toNat = slot n (P.key.hash k).toNat t →
      (∀ s < t, cell m (slot n (P.key.hash k).toNat s) ≠ .empty ∧
        ∀ k' v, cell m (slot n (P.key.hash k).toNat s) = .live k' v →
          P.key.cls k' ≠ P.key.cls k) →
      (tomb = -1#32 ∨ ∃ s < t, tomb.toNat = slot n (P.key.hash k).toNat s ∧
        cell m tomb.toNat = .dead) →
      Sat (fun i => i.toNat < n ∧ Found P.key m k i.toNat)
        (slotForLoop P m k (BitVec.ofNat 32 (2 ^ j) - 1#32) fuel i tomb)
  | 0, t, _, _, htt, hfuel, _, _, _ => by omega
  | fuel + 1, t, i, tomb, htt, hfuel, hi, hpast, htomb => by
      have hpos : 0 < n := by omega
      have hin : i.toNat < n := by
        rw [hi]
        exact slot_lt hpos
      have hkeys : m.keys.length = n := hs.keys
      obtain ⟨st, k', v, hst, hk', hv, hcell⟩ := hs.cell_eq hin
      have hnext : ((i + 1#32) &&& (BitVec.ofNat 32 (2 ^ j) - 1#32)).toNat
          = slot n (P.key.hash k).toNat (t + 1) := by
        rw [toNat_succ_and_sub_one hj, ← hn, hi, slot_succ]
      have hmask : cell m (slot n (P.key.hash k).toNat t) = cell m i.toNat := by rw [hi]
      -- every step further needs that this cell is neither empty nor the key's
      have hpast' : cell m i.toNat ≠ .empty →
          (∀ k' v, cell m i.toNat = .live k' v → P.key.cls k' ≠ P.key.cls k) →
          ∀ s < t + 1, cell m (slot n (P.key.hash k).toNat s) ≠ .empty ∧
            ∀ k' v, cell m (slot n (P.key.hash k).toNat s) = .live k' v →
              P.key.cls k' ≠ P.key.cls k := by
        intro h1 h2 s hst
        rcases Nat.lt_succ_iff_lt_or_eq.mp hst with hlt | rfl
        · exact hpast s hlt
        · rw [hmask]
          exact ⟨h1, h2⟩
      have hahead : cell m i.toNat ≠ .empty → t + 1 ≤ t₀ := by
        intro hne
        rcases Nat.lt_or_ge t t₀ with hlt | hge
        · exact hlt
        · obtain rfl : t = t₀ := Nat.le_antisymm htt hge
          exact absurd (hmask ▸ hempty) hne
      rw [slotForLoop, arrGet_eq hst, done_bind]
      by_cases h0 : st = 0#32
      · -- an empty slot: the key is absent, and the first tombstone is taken if there was one
        rw [if_pos h0, pure_eq, sat_done]
        rw [if_pos h0] at hcell
        have habsent : Absent P.key.cls m.keys.length (cell m) (P.key.cls k) := by
          rw [hkeys]
          exact hw.absent_of_empty (t := t) (by rw [P.key.home_cls, hmask, hcell])
            (fun s hs => (hpast s hs).2)
        by_cases hm : tomb = -1#32
        · rw [if_neg (by simp [hm])]
          refine ⟨hin, .free (fun k' v h => by rw [hcell] at h; cases h) habsent ?_⟩
          rw [hkeys]
          exact ⟨t, by omega, hi.symm, fun s hst => (hpast s hst).1⟩
        · rw [if_pos hm]
          obtain ⟨s, hst', hslot, hdead⟩ := htomb.resolve_left hm
          have htn : tomb.toNat < n := by
            rw [hslot]
            exact slot_lt hpos
          refine ⟨htn, .free (fun k' v h => by rw [hdead] at h; cases h) habsent ?_⟩
          rw [hkeys]
          exact ⟨s, by omega, hslot.symm, fun u hu => (hpast u (by omega)).1⟩
      · rw [if_neg h0] at hcell ⊢
        by_cases h1 : st = 1#32
        · rw [if_pos h1] at hcell
          rw [if_pos h1, arrGet_eq hk', done_bind]
          by_cases hsame : P.key.same k' k = true
          · rw [if_pos hsame]
            exact ⟨hin, .hit hcell (P.key.cls_eq_iff.mpr hsame)⟩
          · rw [if_neg hsame]
            have hne : cell m i.toNat ≠ .empty := by simp [hcell]
            refine slotForLoop_sat hs hj hn ht₀ hw hempty fuel (t + 1) _ tomb (hahead hne)
              (by omega) hnext (hpast' hne ?_) ?_
            · intro k'' v' h heq
              rw [hcell] at h
              injection h with hk
              exact hsame (P.key.cls_eq_iff.mp (hk ▸ heq))
            · exact htomb.imp_right fun ⟨s, hs, h⟩ => ⟨s, by omega, h⟩
        · rw [if_neg h1] at hcell ⊢
          have hne : cell m i.toNat ≠ .empty := by simp [hcell]
          have hpast'' := hpast' hne fun k'' v' h => by rw [hcell] at h; cases h
          by_cases hm : tomb = -1#32
          · rw [if_pos hm]
            exact slotForLoop_sat hs hj hn ht₀ hw hempty fuel (t + 1) _ i (hahead hne)
              (by omega) hnext hpast'' (.inr ⟨t, by omega, hi, hcell⟩)
          · rw [if_neg hm]
            exact slotForLoop_sat hs hj hn ht₀ hw hempty fuel (t + 1) _ tomb (hahead hne)
              (by omega) hnext hpast'' (htomb.imp_right fun ⟨s, hs, h⟩ => ⟨s, by omega, h⟩)

/-- **A probe ends**, in a slot that holds the key or that the key may take. -/
theorem slotFor_sat (h : Inv P.key m) :
    Sat (fun i => i.toNat < m.keys.length ∧ Found P.key m k i.toNat) (slotFor P m k) := by
  obtain ⟨j, hj3, hj28, hn⟩ := h.size
  have hlen : m.keys.length ≤ 2 ^ 28 := by
    rw [hn]
    exact Nat.pow_le_pow_right (by decide) hj28
  have hfull : occupied m.keys.length (cell m) < m.keys.length := by
    have := h.used
    have := h.load
    omega
  obtain ⟨t₀, ht₀, hempty⟩ :=
    exists_empty_on_path (P.key.hash k).toNat (exists_empty_of_occupied_lt hfull)
  have hmask : capacity m - 1#32 = BitVec.ofNat 32 (2 ^ j) - 1#32 := by
    rw [capacity, arrLen, hn]
  rw [slotFor, hmask, h.shape.states]
  refine slotForLoop_sat P h.shape (by omega) hn ht₀ h.placed hempty _ 0 _ _ (Nat.zero_le _)
    (by omega) ?_ (fun s hs => absurd hs (Nat.not_lt_zero s)) (.inl rfl)
  rw [toNat_and_sub_one (by omega), ← hn]
  rfl

end Probe

end Aipl.StdMap
