import Mathlib.Data.Finmap
import Mathlib.Data.Finset.Card
import Mathlib.Algebra.BigOperators.Group.Finset.Basic
import Mathlib.Algebra.BigOperators.Group.Finset.Piecewise
import Mathlib.Algebra.Order.BigOperators.Group.Finset

/-! # Library — open addressing with linear probing

A table of `n` cells, each empty, holding an entry, or dead (an entry that was removed).  A key's
probe path starts at its home and goes round the table one cell at a time.  Keys are equal when
they have one class, and a class has one home.  Nothing here names a program.

* `WellPlaced` — the invariant: an entry is reached from its home without an empty cell between,
  and no two cells hold equal keys.
* `WellPlaced.absent_of_empty` — a probe that meets an empty cell has seen every cell the key
  could be in.
* `WellPlaced.put`, `WellPlaced.kill` — the two updates that keep the invariant.
* `exists_empty_on_path` — a probe path meets every cell.
* `Represents` — the finite map a table holds, on the classes of equal keys; `Represents.insert` and
  `Represents.erase` are the two updates.
-/

namespace Aipl.Lib.Probing

open Finset

/-- A cell of the table. -/
inductive Cell (K V : Type) where
  | empty
  | live (k : K) (v : V)
  | dead

variable {K V : Type}

/-- The cell at step `t` of the probe path from `home`. -/
def slot (n home t : Nat) : Nat := (home + t) % n

theorem slot_lt {n home t : Nat} (hn : 0 < n) : slot n home t < n := Nat.mod_lt _ hn

theorem slot_succ (n home t : Nat) : slot n home (t + 1) = (slot n home t + 1) % n := by
  simp [slot, Nat.add_assoc]

/-- Every cell is on every probe path, within the first `n` steps. -/
theorem exists_slot_eq {n i : Nat} (home : Nat) (hi : i < n) : ∃ t < n, slot n home t = i := by
  have hn : 0 < n := by omega
  have hh : home % n < n := Nat.mod_lt _ hn
  refine ⟨(i + (n - home % n)) % n, Nat.mod_lt _ hn, ?_⟩
  have hsum : home % n + (i + (n - home % n)) = i + n := by omega
  rw [slot, Nat.add_mod_mod, ← Nat.mod_add_mod, hsum, Nat.add_mod_right, Nat.mod_eq_of_lt hi]

/-- Cell `i` is on the path from `home`, with no empty cell before it. -/
def Reaches (c : Nat → Cell K V) (n home i : Nat) : Prop :=
  ∃ t < n, slot n home t = i ∧ ∀ s < t, c (slot n home s) ≠ .empty

theorem Reaches.update {c : Nat → Cell K V} {n home i j : Nat} {x : Cell K V}
    (h : Reaches c n home i) (hx : x ≠ .empty) : Reaches (Function.update c j x) n home i := by
  obtain ⟨t, ht, hti, hs⟩ := h
  refine ⟨t, ht, hti, fun s hst => ?_⟩
  by_cases hj : slot n home s = j
  · rw [hj, Function.update_self]
    exact hx
  · rw [Function.update_of_ne hj]
    exact hs s hst

section Placed

variable {Q : Type} (cls : K → Q) (home : Q → Nat)

/-- **The invariant of the table.** -/
structure WellPlaced (n : Nat) (c : Nat → Cell K V) : Prop where
  reach : ∀ i < n, ∀ k v, c i = .live k v → Reaches c n (home (cls k)) i
  distinct : ∀ i < n, ∀ j < n, ∀ k v k' v', c i = .live k v → c j = .live k' v' →
    cls k = cls k' → i = j

/-- No cell holds a key of class `q`. -/
def Absent (n : Nat) (c : Nat → Cell K V) (q : Q) : Prop :=
  ∀ i < n, ∀ k v, c i = .live k v → cls k ≠ q

variable {cls home}

theorem wellPlaced_empty {n : Nat} {c : Nat → Cell K V} (h : ∀ i < n, c i = .empty) :
    WellPlaced cls home n c where
  reach i hi k v hc := by
    rw [h i hi] at hc
    cases hc
  distinct i hi _ _ k v _ _ hc := by
    rw [h i hi] at hc
    cases hc

/-- A probe for `q` that meets an empty cell, with no cell before it holding a key of `q`, has
shown that `q` is absent. -/
theorem WellPlaced.absent_of_empty {n t : Nat} {c : Nat → Cell K V} {q : Q}
    (hw : WellPlaced cls home n c) (hempty : c (slot n (home q) t) = .empty)
    (hno : ∀ s < t, ∀ k v, c (slot n (home q) s) = .live k v → cls k ≠ q) :
    Absent cls n c q := by
  intro i hi k v hc heq
  obtain ⟨u, -, hui, hbefore⟩ := hw.reach i hi k v hc
  rw [heq] at hui hbefore
  rcases Nat.lt_trichotomy u t with hut | rfl | htu
  · exact hno u hut k v (hui ▸ hc) heq
  · rw [hui, hc] at hempty
    cases hempty
  · exact hbefore t htu hempty

/-- Putting an entry in a cell its key's path reaches keeps the invariant, if no other cell holds
that key. -/
theorem WellPlaced.put {n i : Nat} {c : Nat → Cell K V} {k : K} {v : V}
    (hw : WellPlaced cls home n c) (hreach : Reaches c n (home (cls k)) i)
    (hfree : ∀ j < n, j ≠ i → ∀ k' v', c j = .live k' v' → cls k' ≠ cls k) :
    WellPlaced cls home n (Function.update c i (.live k v)) where
  reach j hj k' v' hc := by
    by_cases hji : j = i
    · subst hji
      rw [Function.update_self] at hc
      injection hc with hk
      subst hk
      exact hreach.update (by simp)
    · rw [Function.update_of_ne hji] at hc
      exact (hw.reach j hj k' v' hc).update (by simp)
  distinct a ha b hb ka va kb vb hca hcb hab := by
    by_cases hai : a = i
    · by_cases hbi : b = i
      · rw [hai, hbi]
      · subst hai
        rw [Function.update_self] at hca
        rw [Function.update_of_ne hbi] at hcb
        injection hca with hk
        subst hk
        exact absurd hab.symm (hfree b hb hbi kb vb hcb)
    · rw [Function.update_of_ne hai] at hca
      by_cases hbi : b = i
      · subst hbi
        rw [Function.update_self] at hcb
        injection hcb with hk
        subst hk
        exact absurd hab (hfree a ha hai ka va hca)
      · rw [Function.update_of_ne hbi] at hcb
        exact hw.distinct a ha b hb ka va kb vb hca hcb hab

/-- Killing a cell keeps the invariant: a dead cell is still not an empty one. -/
theorem WellPlaced.kill {n i : Nat} {c : Nat → Cell K V} (hw : WellPlaced cls home n c) :
    WellPlaced cls home n (Function.update c i .dead) where
  reach j hj k v hc := by
    by_cases hji : j = i
    · rw [hji, Function.update_self] at hc
      cases hc
    · rw [Function.update_of_ne hji] at hc
      exact (hw.reach j hj k v hc).update (by simp)
  distinct a ha b hb ka va kb vb hca hcb := by
    by_cases hai : a = i
    · rw [hai, Function.update_self] at hca
      cases hca
    · by_cases hbi : b = i
      · rw [hbi, Function.update_self] at hcb
        cases hcb
      · rw [Function.update_of_ne hai] at hca
        rw [Function.update_of_ne hbi] at hcb
        exact hw.distinct a ha b hb ka va kb vb hca hcb

/-- **The first `n` cells hold exactly the entries of `F`**, each under its key's class. -/
def Represents (cls : K → Q) (n : Nat) (c : Nat → Cell K V) (F : Finmap fun _ : Q => V)
    [DecidableEq Q] : Prop :=
  ∀ q v, F.lookup q = some v ↔ ∃ i < n, ∃ k, c i = .live k v ∧ cls k = q

variable [DecidableEq Q]

theorem represents_empty {n : Nat} {c : Nat → Cell K V} (h : ∀ i < n, ∀ k v, c i ≠ .live k v) :
    Represents cls n c ∅ := by
  intro q v
  rw [Finmap.lookup_empty]
  constructor
  · intro hq
    cases hq
  · rintro ⟨i, hi, k, hc, -⟩
    exact absurd hc (h i hi k v)

theorem Represents.lookup_live {n i : Nat} {c : Nat → Cell K V} {F : Finmap fun _ : Q => V}
    {k : K} {v : V} (hF : Represents cls n c F) (hi : i < n) (hc : c i = .live k v) :
    F.lookup (cls k) = some v :=
  (hF _ _).mpr ⟨i, hi, k, hc, rfl⟩

theorem Represents.lookup_absent {n : Nat} {c : Nat → Cell K V} {F : Finmap fun _ : Q => V}
    {q : Q} (hF : Represents cls n c F) (h : Absent cls n c q) : F.lookup q = none := by
  cases hl : F.lookup q with
  | none => rfl
  | some v =>
    obtain ⟨i, hi, k, hc, hk⟩ := (hF q v).mp hl
    exact absurd hk (h i hi k v hc)

/-- Putting `k ↦ v` in a cell inserts it in the map, if no other cell holds that key and the cell
held no other. -/
theorem Represents.insert {n i : Nat} {c : Nat → Cell K V} {F : Finmap fun _ : Q => V} {k : K}
    {v : V} (hF : Represents cls n c F) (hi : i < n)
    (hself : ∀ k' v', c i = .live k' v' → cls k' = cls k)
    (hfree : ∀ j < n, j ≠ i → ∀ k' v', c j = .live k' v' → cls k' ≠ cls k) :
    Represents cls n (Function.update c i (.live k v)) (F.insert (cls k) v) := by
  intro q w
  by_cases hq : q = cls k
  · subst hq
    rw [Finmap.lookup_insert]
    constructor
    · intro h
      injection h with h
      subst h
      exact ⟨i, hi, k, Function.update_self .., rfl⟩
    · rintro ⟨j, hj, k', hc, hk⟩
      by_cases hji : j = i
      · rw [hji, Function.update_self] at hc
        injection hc with _ hv
        rw [hv]
      · rw [Function.update_of_ne hji] at hc
        exact absurd hk (hfree j hj hji k' w hc)
  · rw [Finmap.lookup_insert_of_ne _ hq, hF q w]
    constructor
    · rintro ⟨j, hj, k', hc, hk⟩
      have hji : j ≠ i := by
        rintro rfl
        exact hq (hk ▸ hself k' w hc)
      exact ⟨j, hj, k', by rw [Function.update_of_ne hji]; exact hc, hk⟩
    · rintro ⟨j, hj, k', hc, hk⟩
      by_cases hji : j = i
      · rw [hji, Function.update_self] at hc
        injection hc with hk'
        exact absurd (hk'.symm ▸ hk).symm hq
      · rw [Function.update_of_ne hji] at hc
        exact ⟨j, hj, k', hc, hk⟩

/-- Killing the cell of `k` erases it from the map. -/
theorem Represents.erase {n i : Nat} {c : Nat → Cell K V} {F : Finmap fun _ : Q => V} {k : K}
    {v : V} (hF : Represents cls n c F) (hw : WellPlaced cls home n c) (hi : i < n)
    (hc : c i = .live k v) :
    Represents cls n (Function.update c i .dead) (F.erase (cls k)) := by
  intro q w
  by_cases hq : q = cls k
  · subst hq
    rw [Finmap.lookup_erase]
    constructor
    · intro h
      cases h
    · rintro ⟨j, hj, k', hc', hk⟩
      by_cases hji : j = i
      · rw [hji, Function.update_self] at hc'
        cases hc'
      · rw [Function.update_of_ne hji] at hc'
        exact absurd (hw.distinct j hj i hi k' w k v hc' hc hk) hji
  · rw [Finmap.lookup_erase_ne hq, hF q w]
    constructor
    · rintro ⟨j, hj, k', hc', hk⟩
      have hji : j ≠ i := by
        rintro rfl
        rw [hc] at hc'
        injection hc' with hk'
        exact hq (hk'.symm ▸ hk).symm
      exact ⟨j, hj, k', by rw [Function.update_of_ne hji]; exact hc', hk⟩
    · rintro ⟨j, hj, k', hc', hk⟩
      by_cases hji : j = i
      · rw [hji, Function.update_self] at hc'
        cases hc'
      · rw [Function.update_of_ne hji] at hc'
        exact ⟨j, hj, k', hc', hk⟩

/-- A table holds one finite map. -/
theorem Represents.unique {n : Nat} {c : Nat → Cell K V} {F G : Finmap fun _ : Q => V}
    (hF : Represents cls n c F) (hG : Represents cls n c G) : F = G := by
  refine Finmap.ext_lookup fun q => ?_
  refine Option.ext fun v => ?_
  rw [hF q v, hG q v]

/-- One more cell, which holds no entry. -/
theorem Represents.succ_skip {n : Nat} {c : Nat → Cell K V} {F : Finmap fun _ : Q => V}
    (hF : Represents cls n c F) (hc : ∀ k v, c n ≠ .live k v) : Represents cls (n + 1) c F := by
  intro q v
  rw [hF q v]
  constructor
  · rintro ⟨i, hi, k, h⟩
    exact ⟨i, by omega, k, h⟩
  · rintro ⟨i, hi, k, h, hk⟩
    rcases Nat.lt_succ_iff_lt_or_eq.mp hi with hlt | rfl
    · exact ⟨i, hlt, k, h, hk⟩
    · exact absurd h (hc k v)

/-- One more cell, which holds an entry whose key no earlier cell holds. -/
theorem Represents.succ_live {n : Nat} {c : Nat → Cell K V} {F : Finmap fun _ : Q => V} {k : K}
    {v : V} (hF : Represents cls n c F) (hc : c n = .live k v)
    (habsent : Absent cls n c (cls k)) : Represents cls (n + 1) c (F.insert (cls k) v) := by
  intro q w
  by_cases hq : q = cls k
  · subst hq
    rw [Finmap.lookup_insert]
    constructor
    · intro h
      injection h with h
      exact ⟨n, by omega, k, h ▸ hc, rfl⟩
    · rintro ⟨i, hi, k', h, hk⟩
      rcases Nat.lt_succ_iff_lt_or_eq.mp hi with hlt | rfl
      · exact absurd hk (habsent i hlt k' w h)
      · rw [hc] at h
        injection h with _ hv
        rw [hv]
  · rw [Finmap.lookup_insert_of_ne _ hq, hF q w]
    constructor
    · rintro ⟨i, hi, k', h⟩
      exact ⟨i, by omega, k', h⟩
    · rintro ⟨i, hi, k', h, hk⟩
      rcases Nat.lt_succ_iff_lt_or_eq.mp hi with hlt | rfl
      · exact ⟨i, hlt, k', h, hk⟩
      · rw [hc] at h
        injection h with hkk
        exact absurd (hkk ▸ hk).symm hq

end Placed

/-! ### Counting cells -/

/-- 1 for a cell that is not empty. -/
def Cell.usedBit : Cell K V → Nat
  | .empty => 0
  | _ => 1

/-- 1 for a cell that holds an entry. -/
def Cell.liveBit : Cell K V → Nat
  | .live _ _ => 1
  | _ => 0

/-- The number of cells that are not empty. -/
def occupied (n : Nat) (c : Nat → Cell K V) : Nat := ∑ i ∈ range n, (c i).usedBit

/-- The number of cells that hold an entry. -/
def entries (n : Nat) (c : Nat → Cell K V) : Nat := ∑ i ∈ range n, (c i).liveBit

/-- A sum over the cells, after one of them is replaced. -/
theorem sum_update {n i : Nat} (f : Cell K V → Nat) (c : Nat → Cell K V) (x : Cell K V)
    (hi : i < n) :
    (∑ j ∈ range n, f (Function.update c i x j)) + f (c i) = (∑ j ∈ range n, f (c j)) + f x := by
  have hmem : i ∈ range n := mem_range.mpr hi
  have hrest : ∑ j ∈ (range n).erase i, f (Function.update c i x j)
      = ∑ j ∈ (range n).erase i, f (c j) :=
    sum_congr rfl fun j hj => by rw [Function.update_of_ne (ne_of_mem_erase hj)]
  rw [← add_sum_erase _ _ hmem, ← add_sum_erase (range n) (fun j => f (c j)) hmem, hrest,
    Function.update_self]
  omega

theorem occupied_update {n i : Nat} (c : Nat → Cell K V) (x : Cell K V) (hi : i < n) :
    occupied n (Function.update c i x) + (c i).usedBit = occupied n c + x.usedBit :=
  sum_update Cell.usedBit c x hi

theorem entries_update {n i : Nat} (c : Nat → Cell K V) (x : Cell K V) (hi : i < n) :
    entries n (Function.update c i x) + (c i).liveBit = entries n c + x.liveBit :=
  sum_update Cell.liveBit c x hi

theorem entries_le_occupied (n : Nat) (c : Nat → Cell K V) : entries n c ≤ occupied n c :=
  sum_le_sum fun i _ => by cases c i <;> simp [Cell.liveBit, Cell.usedBit]

/-- Without dead cells, the occupied cells are the entries. -/
theorem entries_eq_occupied {n : Nat} {c : Nat → Cell K V} (h : ∀ i < n, c i ≠ .dead) :
    entries n c = occupied n c := by
  refine sum_congr rfl fun i hi => ?_
  have := h i (mem_range.mp hi)
  cases hc : c i with
  | dead => exact absurd hc this
  | _ => rfl

theorem entries_succ (n : Nat) (c : Nat → Cell K V) :
    entries (n + 1) c = entries n c + (c n).liveBit := sum_range_succ _ _

theorem entries_mono {t n : Nat} (c : Nat → Cell K V) (h : t ≤ n) : entries t c ≤ entries n c :=
  sum_le_sum_of_subset (range_mono h)

theorem entries_eq_zero {n : Nat} {c : Nat → Cell K V} (h : ∀ i < n, c i = .empty) :
    entries n c = 0 :=
  sum_eq_zero fun i hi => by rw [h i (mem_range.mp hi)]; rfl

theorem occupied_eq_zero {n : Nat} {c : Nat → Cell K V} (h : ∀ i < n, c i = .empty) :
    occupied n c = 0 :=
  sum_eq_zero fun i hi => by rw [h i (mem_range.mp hi)]; rfl

/-- A table with fewer occupied cells than cells has an empty one. -/
theorem exists_empty_of_occupied_lt {n : Nat} {c : Nat → Cell K V} (h : occupied n c < n) :
    ∃ i < n, c i = .empty := by
  by_contra hno
  push Not at hno
  have hall : occupied n c = ∑ _i ∈ range n, 1 :=
    sum_congr rfl fun i hi => by
      cases hc : c i with
      | empty => exact absurd hc (hno i (mem_range.mp hi))
      | _ => rfl
  simp at hall
  omega

/-- **Probes end.**  With an empty cell in the table, every path meets an empty cell. -/
theorem exists_empty_on_path {n : Nat} {c : Nat → Cell K V} (home : Nat)
    (h : ∃ i < n, c i = .empty) : ∃ t < n, c (slot n home t) = .empty := by
  obtain ⟨i, hi, hc⟩ := h
  obtain ⟨t, ht, hti⟩ := exists_slot_eq home hi
  exact ⟨t, ht, by rw [hti, hc]⟩

/-- The class of the key a cell holds. -/
def Cell.class? {Q : Type} (cls : K → Q) : Cell K V → Option Q
  | .live k _ => some (cls k)
  | _ => none

theorem entries_eq_card {Q : Type} (cls : K → Q) (n : Nat) (c : Nat → Cell K V) :
    entries n c = ((range n).filter fun i => ((c i).class? cls).isSome).card := by
  rw [card_filter]
  refine sum_congr rfl fun i _ => ?_
  cases c i <;> rfl

/-- **The number of entries is the size of the map.** -/
theorem Represents.card_keys {Q : Type} [DecidableEq Q] {cls : K → Q} {home : Q → Nat} {n : Nat}
    {c : Nat → Cell K V} {F : Finmap fun _ : Q => V} (hF : Represents cls n c F)
    (hw : WellPlaced cls home n c) : F.keys.card = entries n c := by
  rw [entries_eq_card cls, ← card_image_of_injective F.keys (Option.some_injective Q)]
  -- each live cell stands for the class of its key, and no two for one class
  have hinj : Set.InjOn (fun i => (c i).class? cls)
      ((range n).filter fun i => ((c i).class? cls).isSome) := by
    intro a ha b hb hab
    rw [mem_coe, mem_filter, mem_range] at ha hb
    change (c a).class? cls = (c b).class? cls at hab
    cases hca : c a with
    | live k v =>
      cases hcb : c b with
      | live k' v' =>
        rw [hca, hcb] at hab
        exact hw.distinct a ha.1 b hb.1 k v k' v' hca hcb (Option.some_injective Q hab)
      | empty => simp [hcb, Cell.class?] at hb
      | dead => simp [hcb, Cell.class?] at hb
    | empty => simp [hca, Cell.class?] at ha
    | dead => simp [hca, Cell.class?] at ha
  rw [← card_image_of_injOn hinj]
  congr 1
  ext q
  simp only [mem_image, mem_filter, mem_range, Finmap.mem_keys]
  constructor
  · rintro ⟨q, hq, rfl⟩
    obtain ⟨v, hv⟩ := Option.isSome_iff_exists.mp (Finmap.lookup_isSome.mpr hq)
    obtain ⟨i, hi, k, hc, hk⟩ := (hF q v).mp hv
    exact ⟨i, ⟨hi, by rw [hc]; rfl⟩, by rw [hc, ← hk]; rfl⟩
  · rintro ⟨i, ⟨hi, hsome⟩, rfl⟩
    cases hc : c i with
    | live k v => exact ⟨cls k, Finmap.lookup_isSome.mp (by rw [hF.lookup_live hi hc]; rfl), rfl⟩
    | empty => simp [hc, Cell.class?] at hsome
    | dead => simp [hc, Cell.class?] at hsome

end Aipl.Lib.Probing
