import Aipl.Std.Map.Invariant

/-! # What a claim, a store and a removal do to the table

Each store the map makes replaces one cell.  These lemmas say which cell becomes what, that the
invariant stays, and what finite map the table holds afterwards.

* `claimSlot_sat` — a claim in a table with room: the key's slot, added if it was absent.
* `setVal_sat` — a store of a value in a key's slot.
* `remove_sat` — a removal.
-/

namespace Aipl.StdMap

open Aipl.Lib Aipl.Lib.Outcome Aipl.Lib.Probing Aipl.Std

variable {K V σ : Type} {H : Hash K}

/-- The finite maps a map stands for: from keys up to `same`, to values. -/
abbrev Hash.Model (H : Hash K) (V : Type) := Finmap fun _ : H.Key => V

/-- `m` holds exactly the entries of `F`. -/
def Holds (H : Hash K) (m : Map K V σ) (F : H.Model V) : Prop :=
  Represents H.cls m.keys.length (cell m) F

/-! ### Stores as updates of one cell -/

theorem cell_put {m m' : Map K V σ} {n i : Nat} {k : K} {v : V} (hs : Shape m n) (hi : i < n)
    (hstates : m'.states = m.states.set i 1#32) (hkeys : m'.keys = m.keys.set i k)
    (hvals : m'.vals = m.vals.set i v) : cell m' = Function.update (cell m) i (.live k v) := by
  funext j
  by_cases hj : j = i
  · subst hj
    rw [Function.update_self, cell, hstates, hkeys, hvals, List.getElem?_set_self (by
      rw [hs.states]; exact hi), List.getElem?_set_self (by rw [hs.keys]; exact hi),
      List.getElem?_set_self (by rw [hs.vals]; exact hi)]
    simp
  · rw [Function.update_of_ne hj, cell, cell, hstates, hkeys, hvals,
      List.getElem?_set_ne (Ne.symm hj), List.getElem?_set_ne (Ne.symm hj),
      List.getElem?_set_ne (Ne.symm hj)]

theorem cell_setVal {m m' : Map K V σ} {n i : Nat} {k : K} {v v' : V} (hs : Shape m n)
    (hi : i < n) (hc : cell m i = .live k v) (hstates : m'.states = m.states)
    (hkeys : m'.keys = m.keys) (hvals : m'.vals = m.vals.set i v') :
    cell m' = Function.update (cell m) i (.live k v') := by
  funext j
  by_cases hj : j = i
  · subst hj
    obtain ⟨st, k', w, h1, h2, h3, hcell⟩ := hs.cell_eq hi
    rw [hc] at hcell
    rw [Function.update_self, cell, hstates, hkeys, hvals, h1, h2,
      List.getElem?_set_self (by rw [hs.vals]; exact hi)]
    by_cases h0 : st = 0#32
    · rw [if_pos h0] at hcell
      cases hcell
    · rw [if_neg h0] at hcell
      by_cases h1' : st = 1#32
      · rw [if_pos h1'] at hcell
        injection hcell with hk
        simp [h1', hk]
      · rw [if_neg h1'] at hcell
        cases hcell
  · rw [Function.update_of_ne hj, cell, cell, hstates, hkeys, hvals,
      List.getElem?_set_ne (Ne.symm hj)]

theorem cell_kill {m m' : Map K V σ} {n i : Nat} (hs : Shape m n) (hi : i < n)
    (hstates : m'.states = m.states.set i 2#32) (hkeys : m'.keys = m.keys)
    (hvals : m'.vals = m.vals) : cell m' = Function.update (cell m) i .dead := by
  funext j
  by_cases hj : j = i
  · subst hj
    obtain ⟨st, k', w, h1, h2, h3, -⟩ := hs.cell_eq hi
    rw [Function.update_self, cell, hstates, hkeys, hvals, h2, h3,
      List.getElem?_set_self (by rw [hs.states]; exact hi)]
    simp
  · rw [Function.update_of_ne hj, cell, cell, hstates, hkeys, hvals,
      List.getElem?_set_ne (Ne.symm hj)]

/-- The invariant of a map one of whose cells was replaced, with the counters moved to match. -/
theorem Inv.of_update {m m' : Map K V σ} {i : Nat} {x : Cell K V} (h : Inv H m)
    (hi : i < m.keys.length) (hshape : Shape m' m.keys.length)
    (hcell : cell m' = Function.update (cell m) i x)
    (hplaced : WellPlaced H.cls H.home m.keys.length (Function.update (cell m) i x))
    (hcount : m'.count.toNat + (cell m i).liveBit = m.count.toNat + x.liveBit)
    (hused : m'.used.toNat + (cell m i).usedBit = m.used.toNat + x.usedBit)
    (hload : 4 * m'.used.toNat < 3 * m.keys.length) : Inv H m' where
  shape := by rw [hshape.keys]; exact hshape
  size := by rw [hshape.keys]; exact h.size
  count := by
    have := entries_update (cell m) x hi
    have := h.count
    rw [hshape.keys, hcell]
    omega
  used := by
    have := occupied_update (cell m) x hi
    have := h.used
    rw [hshape.keys, hcell]
    omega
  load := by rw [hshape.keys]; exact hload
  placed := by rw [hshape.keys, hcell]; exact hplaced

/-! ### The invariant's arithmetic -/

theorem Inv.length_le {m : Map K V σ} (h : Inv H m) : m.keys.length ≤ 2 ^ 28 := by
  obtain ⟨j, -, hj, hn⟩ := h.size
  rw [hn]
  exact Nat.pow_le_pow_right (by decide) hj

theorem Inv.eight_le {m : Map K V σ} (h : Inv H m) : 8 ≤ m.keys.length := by
  obtain ⟨j, hj, -, hn⟩ := h.size
  rw [hn]
  exact Nat.pow_le_pow_right (n := 2) (by decide) hj

theorem Inv.count_le_used {m : Map K V σ} (h : Inv H m) : m.count.toNat ≤ m.used.toNat := by
  rw [h.count, h.used]
  exact entries_le_occupied _ _

theorem Inv.toNat_capacity {m : Map K V σ} (h : Inv H m) :
    (capacity m).toNat = m.keys.length :=
  toNat_arrLen (by have := h.length_le; omega)

theorem toNat_add_one {x : BitVec 32} (h : x.toNat < 2 ^ 28) : (x + 1#32).toNat = x.toNat + 1 := by
  rw [BitVec.toNat_add]
  have : (1#32).toNat = 1 := rfl
  omega

/-! ### Claims -/

/-- What a claim of `k` leaves: `k`'s slot `i` in a map that holds `F` with `k ↦ v`. -/
structure Claimed (H : Hash K) (F : H.Model V) (k : K) (v : V) (m : Map K V σ) (i : BitVec 32) :
    Prop where
  inv : Inv H m
  lt : i.toNat < m.keys.length
  live : ∃ k', cell m i.toNat = .live k' v ∧ H.cls k' = H.cls k
  holds : Holds H m (F.insert (H.cls k) v)

/-- What a key's slot holds when it is claimed: its value, else the fresh one. -/
def claimed (H : Hash K) (F : H.Model V) (k : K) (fresh : V) : V :=
  (F.lookup (H.cls k)).getD fresh

/-- **A claim in a table with room.** -/
theorem claimSlot_sat (P : Params K V σ) {m : Map K V σ} {F : P.key.Model V} {k : K} {fresh : V}
    (h : Inv P.key m) (hF : Holds P.key m F)
    (hroom : 4 * (m.used.toNat + 1) < 3 * m.keys.length) :
    Sat (fun r => Claimed P.key F k (claimed P.key F k fresh) r.1 r.2 ∧
        r.1.keys.length = m.keys.length ∧
        ((∀ i < m.keys.length, cell m i ≠ .dead) → ∀ i < m.keys.length, cell r.1 i ≠ .dead) ∧
        r.1.count.toNat = m.count.toNat + if F.lookup (P.key.cls k) = none then 1 else 0)
      (claimSlot P m k fresh) := by
  have hlen := h.length_le
  rw [claimSlot]
  refine sat_bind (slotFor_sat P h) fun i hi => ?_
  obtain ⟨hin, hfound⟩ := hi
  obtain ⟨st, k₀, v₀, hst, -, -, hcell⟩ := h.shape.cell_eq hin
  rw [arrGet_eq hst, done_bind]
  cases hfound with
  | @hit k' v hlive hk =>
    have hone : st = 1#32 := by
      rw [hlive] at hcell
      by_contra hne
      rw [if_neg hne] at hcell
      split at hcell <;> cases hcell
    have hlook : F.lookup (P.key.cls k) = some v := hk ▸ hF.lookup_live hin hlive
    have hval : claimed P.key F k fresh = v := by rw [claimed, hlook]; rfl
    have hset : ¬ st ≠ 1#32 := not_not.mpr hone
    rw [if_neg hset, pure_eq, sat_done, hval]
    refine ⟨⟨h, hin, ⟨k', hlive, hk⟩, ?_⟩, rfl, id, by rw [hlook]; simp⟩
    intro q w
    rw [← hF q w]
    by_cases hq : q = P.key.cls k
    · subst hq
      rw [Finmap.lookup_insert, hlook]
    · rw [Finmap.lookup_insert_of_ne _ hq]
  | free hfree habsent hreach =>
    have hne : st ≠ 1#32 := by
      rintro rfl
      exact hfree k₀ v₀ (by rw [hcell]; simp)
    have hlook : F.lookup (P.key.cls k) = none := hF.lookup_absent habsent
    have hval : claimed P.key F k fresh = fresh := by rw [claimed, hlook]; rfl
    have hkeys : i.toNat < m.keys.length := hin
    have hvals : i.toNat < m.vals.length := by rw [h.shape.vals]; exact hin
    have hstates : i.toNat < m.states.length := by rw [h.shape.states]; exact hin
    have hcountlt : m.count.toNat < 2 ^ 28 := by have := h.count_le_used; omega
    rw [if_pos hne, arrSet_eq hstates, done_bind, arrSet_eq hkeys, done_bind, arrSet_eq hvals,
      done_bind, pure_eq, sat_done, hval]
    -- the map after the stores
    generalize hm' : ({ keys := m.keys.set i.toNat k, vals := m.vals.set i.toNat fresh,
                        states := m.states.set i.toNat 1#32, count := m.count + 1#32,
                        used := if st = 0#32 then m.used + 1#32 else m.used,
                        allocator := m.allocator } : Map K V σ) = m'
    have hcell' : cell m' = Function.update (cell m) i.toNat (.live k fresh) :=
      cell_put h.shape hin (by rw [← hm']) (by rw [← hm']) (by rw [← hm'])
    have hshape : Shape m' m.keys.length := by
      rw [← hm']
      exact ⟨List.length_set, List.length_set.trans h.shape.vals,
        List.length_set.trans h.shape.states⟩
    have hplaced : WellPlaced P.key.cls P.key.home m.keys.length
        (Function.update (cell m) i.toNat (.live k fresh)) :=
      h.placed.put hreach fun j hj _ k' v' hc => habsent j hj k' v' hc
    have hcount : m'.count.toNat = m.count.toNat + 1 := by
      rw [← hm']
      exact toNat_add_one hcountlt
    have hused : m'.used.toNat + (cell m i.toNat).usedBit = m.used.toNat + 1 := by
      rw [← hm', hcell]
      by_cases h0 : st = 0#32
      · simp only [if_pos h0, Cell.usedBit]
        exact toNat_add_one (by omega)
      · simp only [if_neg h0, if_neg hne, Cell.usedBit]
    have hlive0 : (cell m i.toNat).liveBit = 0 := by
      cases hc : cell m i.toNat with
      | live k' v' => exact absurd hc (hfree k' v')
      | _ => rfl
    have hinv : Inv P.key m' := by
      refine h.of_update hin hshape hcell' hplaced ?_ ?_ ?_
      · rw [hcount, hlive0]
        rfl
      · exact hused
      · omega
    have hrest : ∀ j < m.keys.length, j ≠ i.toNat → ∀ k' v', cell m j = .live k' v' →
        P.key.cls k' ≠ P.key.cls k := fun j hj _ k' v' hc => habsent j hj k' v' hc
    refine ⟨⟨hinv, by rw [hshape.keys]; exact hin, ⟨k, ?_, rfl⟩, ?_⟩, hshape.keys, ?_, ?_⟩
    · rw [hcell', Function.update_self]
    · have := Represents.insert (v := fresh) hF hin
        (fun k' v' hc => absurd hc (hfree k' v')) hrest
      rw [Holds, hshape.keys, hcell']
      exact this
    · intro hclean j hj
      rw [hcell']
      by_cases hji : j = i.toNat
      · rw [hji, Function.update_self]
        simp
      · rw [Function.update_of_ne hji]
        exact hclean j hj
    · rw [hcount, hlook]
      rfl

/-- **A store of a value in a claimed slot.** -/
theorem setVal_sat {F : H.Model V} {k : K} {v w : V} {m : Map K V σ} {i : BitVec 32}
    (h : Claimed H F k v m i) :
    Sat (fun vals => Inv H { m with vals := vals } ∧
        Holds H { m with vals := vals } (F.insert (H.cls k) w) ∧
        ∀ j, cell { m with vals := vals } j = .dead → cell m j = .dead)
      (arrSet m.vals i w) := by
  obtain ⟨k', hlive, hk⟩ := h.live
  have hvals : i.toNat < m.vals.length := by rw [h.inv.shape.vals]; exact h.lt
  rw [arrSet_eq hvals, sat_done]
  generalize hm' : ({ m with vals := m.vals.set i.toNat w } : Map K V σ) = m'
  have hcell' : cell m' = Function.update (cell m) i.toNat (.live k' w) :=
    cell_setVal h.inv.shape h.lt hlive (by rw [← hm']) (by rw [← hm']) (by rw [← hm'])
  have hshape : Shape m' m.keys.length := by
    rw [← hm']
    exact ⟨rfl, List.length_set.trans h.inv.shape.vals, h.inv.shape.states⟩
  have hrest : ∀ j < m.keys.length, j ≠ i.toNat → ∀ k'' v', cell m j = .live k'' v' →
      H.cls k'' ≠ H.cls k' := fun j hj hji k'' v' hc heq =>
    hji (h.inv.placed.distinct j hj _ h.lt k'' v' k' v hc hlive heq)
  have hself : ∀ k'' v', cell m i.toNat = .live k'' v' → H.cls k'' = H.cls k' := by
    intro k'' v' hc
    rw [hlive] at hc
    injection hc with hkk
    rw [hkk]
  have hplaced := h.inv.placed.put (v := w)
    (h.inv.placed.reach _ h.lt k' v hlive) hrest
  refine ⟨?_, ?_, ?_⟩
  · refine h.inv.of_update h.lt hshape hcell' hplaced ?_ ?_ ?_
    · rw [← hm', hlive]
      rfl
    · rw [← hm', hlive]
      rfl
    · rw [← hm']
      exact h.inv.load
  · have hins := Represents.insert (v := w) h.holds h.lt hself hrest
    rw [hk, Finmap.insert_insert] at hins
    rw [Holds, hshape.keys, hcell']
    exact hins
  · intro j hj
    rw [hcell'] at hj
    by_cases hji : j = i.toNat
    · rw [hji, Function.update_self] at hj
      cases hj
    · rwa [Function.update_of_ne hji] at hj

/-- **A removal.** -/
theorem remove_sat (P : Params K V σ) {m : Map K V σ} {F : P.key.Model V} {k : K}
    (h : Inv P.key m) (hF : Holds P.key m F) :
    Sat (fun r => Inv P.key r.1 ∧ Holds P.key r.1 (F.erase (P.key.cls k)) ∧
        r.2 = (F.lookup (P.key.cls k)).isSome) (remove P m k) := by
  rw [remove]
  refine sat_bind (slotFor_sat P h) fun i hi => ?_
  obtain ⟨hin, hfound⟩ := hi
  obtain ⟨st, k₀, v₀, hst, -, -, hcell⟩ := h.shape.cell_eq hin
  rw [arrGet_eq hst, done_bind]
  cases hfound with
  | @hit k' v hlive hk =>
    have hone : st = 1#32 := by
      rw [hlive] at hcell
      by_contra hne
      rw [if_neg hne] at hcell
      split at hcell <;> cases hcell
    have hlook : F.lookup (P.key.cls k) = some v := hk ▸ hF.lookup_live hin hlive
    have hstates : i.toNat < m.states.length := by rw [h.shape.states]; exact hin
    have hpos : 0 < m.count.toNat := by
      have h1 := entries_update (cell m) (.dead : Cell K V) hin
      rw [hlive] at h1
      simp only [Cell.liveBit] at h1
      rw [h.count]
      omega
    have hset : ¬ st ≠ 1#32 := not_not.mpr hone
    rw [if_neg hset, arrSet_eq hstates, done_bind, pure_eq, sat_done]
    generalize hm' : ({ m with states := m.states.set i.toNat 2#32, count := m.count - 1#32 } :
      Map K V σ) = m'
    have hcell' : cell m' = Function.update (cell m) i.toNat .dead :=
      cell_kill h.shape hin (by rw [← hm']) (by rw [← hm']) (by rw [← hm'])
    have hshape : Shape m' m.keys.length := by
      rw [← hm']
      exact ⟨rfl, h.shape.vals, List.length_set.trans h.shape.states⟩
    refine ⟨?_, ?_, by rw [hlook]; rfl⟩
    · refine h.of_update hin hshape hcell' h.placed.kill ?_ ?_ ?_
      · rw [← hm', hlive]
        simp only [Cell.liveBit, BitVec.toNat_sub, BitVec.toNat_ofNat]
        omega
      · rw [← hm', hlive]
        rfl
      · rw [← hm']
        exact h.load
    · rw [Holds, hshape.keys, hcell', ← hk]
      exact hF.erase h.placed hin hlive
  | free hfree habsent hreach =>
    have hne : st ≠ 1#32 := by
      rintro rfl
      exact hfree k₀ v₀ (by rw [hcell]; simp)
    have hlook : F.lookup (P.key.cls k) = none := hF.lookup_absent habsent
    rw [if_pos hne, pure_eq, sat_done]
    refine ⟨h, ?_, by rw [hlook]; rfl⟩
    intro q w
    rw [← hF q w]
    by_cases hq : q = P.key.cls k
    · subst hq
      rw [Finmap.lookup_erase, hlook]
    · rw [Finmap.lookup_erase_ne hq]

end Aipl.StdMap
