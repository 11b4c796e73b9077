import Aipl.Std.Gen
import Mathlib.Data.List.Nodup

/-! # Generations over whole runs

Threads take generations while objects are retired and memory is used otherwise.  Adding to the counter is
one step of a thread, and returning what is made of its old value another.

* `Counted` — the old values threads got are the numbers up to the counter, each once.
* `generation_injective` — the old values below the first one whose generation is patched.
* `generations_distinct` — up to that one the generations of a run differ, and from it on two are equal;
  none is reserved.
-/

namespace Aipl.Std.Gen

open Aipl.Lib Aipl.Lib.Outcome Aipl.Std

/-- What `fresh` makes of the counter's old value. -/
def generation (old : BitVec 32) : BitVec 32 :=
  let g := (old + 1#32) * -1640531535#32
  if g = 0#32 ∨ g = -1#32 ∨ g = DEAD then 1#32 else g

/-- The memory, the threads that have added to the counter and not returned yet, each with the old value,
and the generations returned and taken so far. -/
structure State where
  mem : Mem
  pending : List (Nat × BitVec 32)
  returned : List (BitVec 32)
  taken : Nat

/-- One atomic step. -/
inductive Step (R : Runtime) : State → State → Prop where
  | add {s : State} {thread : Nat} {old : BitVec 32} {m : Mem} (hidle : ∀ p ∈ s.pending, p.1 ≠ thread)
      (h : atomicAdd R s.mem COUNTER 1#32 = done (old, m)) :
      Step R s { s with mem := m, pending := (thread, old) :: s.pending, taken := s.taken + 1 }
  | ret {s : State} {thread : Nat} {old : BitVec 32} {ps qs : List (Nat × BitVec 32)}
      (h : s.pending = ps ++ (thread, old) :: qs) :
      Step R s { s with pending := ps ++ qs, returned := generation old :: s.returned }
  /-- An object's word, above the runtime's cells, becomes `DEAD`. -/
  | retire {s : State} {base : BitVec 32} {m : Mem} (hbase : 60 ≤ base.toNat)
      (h : kill R s.mem base = done m) : Step R s { s with mem := m }
  /-- Anything that leaves the counter alone. -/
  | other {s : State} {m : Mem} (h : m.word32 56 = s.mem.word32 56) : Step R s { s with mem := m }

/-- The states of a program's runs. -/
inductive Reached (R : Runtime) : State → Prop where
  | start {m : Mem} (h : m.word32 56 = 0#32) : Reached R ⟨m, [], [], 0⟩
  | step {s s' : State} (h : Reached R s) (hs : Step R s s') : Reached R s'

/-! ### The counter -/

/-- The old values that threads got, each once: `olds` has been returned. -/
structure Counted (s : State) (olds : List (BitVec 32)) : Prop where
  counter : s.mem.word32 56 = BitVec.ofNat 32 s.taken
  returned : s.returned = olds.map generation
  values : (olds ++ s.pending.map Prod.snd).Perm ((List.range s.taken).map (BitVec.ofNat 32))

variable {R : Runtime} {s s' : State} {olds : List (BitVec 32)}

theorem atomicAdd_counter {m m' : Mem} {old : BitVec 32}
    (h : atomicAdd R m COUNTER 1#32 = done (old, m')) :
    old = m.word32 56 ∧ m'.word32 56 = m.word32 56 + 1#32 := by
  rw [atomicAdd] at h
  obtain ⟨-, -, h⟩ := bind_eq_done h
  obtain ⟨-, -, h⟩ := bind_eq_done h
  have hcell : COUNTER.toNat = 56 := rfl
  split at h
  · injection h with h
    obtain ⟨rfl, rfl⟩ := Prod.mk.inj h
    rw [hcell]
    exact ⟨rfl, Mem.word32_setWord32_self ..⟩
  · cases h

/-- **Each step** keeps the count. -/
theorem Counted.step (h : Counted s olds) (hs : Step R s s') : ∃ olds', Counted s' olds' := by
  obtain ⟨hcounter, hreturned, hvalues⟩ := h
  cases hs with
  | @add thread old m _ hadd =>
    obtain ⟨rfl, hnext⟩ := atomicAdd_counter hadd
    refine ⟨olds, ?_, hreturned, ?_⟩
    · change m.word32 56 = BitVec.ofNat 32 (s.taken + 1)
      rw [hnext, hcounter, BitVec.ofNat_add]
    · rw [List.range_succ, List.map_append, List.map_cons, hcounter]
      have hfront : (olds ++ BitVec.ofNat 32 s.taken :: s.pending.map Prod.snd).Perm
          ([BitVec.ofNat 32 s.taken] ++ (olds ++ s.pending.map Prod.snd)) := List.perm_middle
      exact (hfront.trans List.perm_append_comm).trans (hvalues.append_right _)
  | @ret thread old ps qs hpending =>
    refine ⟨old :: olds, hcounter, ?_, ?_⟩
    · rw [List.map_cons, ← hreturned]
    · rw [hpending, List.map_append, List.map_cons] at hvalues
      rw [List.map_append]
      have hmove : (olds ++ (ps.map Prod.snd ++ old :: qs.map Prod.snd)).Perm
          (old :: (olds ++ (ps.map Prod.snd ++ qs.map Prod.snd))) := by
        rw [← List.append_assoc, ← List.append_assoc]
        exact List.perm_middle
      exact hmove.symm.trans hvalues
  | @retire base m hbase hkill =>
    have hsame : m.word32 56 = s.mem.word32 56 := by
      have hm := (store32_sat R s.mem base DEAD).of_eq_done hkill
      rw [hm.2]
      exact Mem.word32_write_disjoint (.inl hbase)
    exact ⟨olds, hsame.trans hcounter, hreturned, hvalues⟩
  | other hsame => exact ⟨olds, hsame.trans hcounter, hreturned, hvalues⟩

theorem Reached.counted (h : Reached R s) : ∃ olds, Counted s olds := by
  induction h with
  | start h => exact ⟨[], h, rfl, .refl _⟩
  | step _ hs ih =>
    obtain ⟨olds, hcounted⟩ := ih
    exact hcounted.step hs

/-! ### What is made of it -/

theorem generation_reserved (old : BitVec 32) :
    generation old ≠ 0#32 ∧ generation old ≠ -1#32 ∧ generation old ≠ DEAD := by
  rw [generation]
  split
  · decide
  · rename_i h
    simpa only [not_or] using h

/-- The multiplier is odd, so it has an inverse. -/
theorem eq_of_mul_eq {x g : BitVec 32} (h : x * -1640531535#32 = g) : x = g * 244002641#32 := by
  have hinv : -1640531535#32 * 244002641#32 = 1#32 := by decide
  rw [← h, BitVec.mul_assoc, hinv, BitVec.mul_one]

/-- How many generations are taken when the first is patched: its old value is one less. -/
def PATCHED : Nat := 3806962014

theorem generation_eq {n : Nat} (hn : n + 1 < PATCHED) :
    generation (BitVec.ofNat 32 n) = BitVec.ofNat 32 (n + 1) * -1640531535#32 := by
  rw [PATCHED] at hn
  have hne : ∀ g : BitVec 32, (g * 244002641#32).toNat = 0 ∨ PATCHED ≤ (g * 244002641#32).toNat →
      BitVec.ofNat 32 (n + 1) * -1640531535#32 ≠ g := by
    intro g hg heq
    have hnat : n + 1 = (g * 244002641#32).toNat := by
      rw [← eq_of_mul_eq heq, BitVec.toNat_ofNat, Nat.mod_eq_of_lt (by omega)]
    rw [PATCHED] at hg
    omega
  have hsucc : BitVec.ofNat 32 n + 1#32 = BitVec.ofNat 32 (n + 1) := by rw [BitVec.ofNat_add]
  rw [generation, hsucc, if_neg]
  simp only [not_or]
  exact ⟨hne _ (.inl (by decide)), hne _ (.inr (by decide)), hne _ (.inr (by decide))⟩

theorem generation_injective {n k : Nat} (hn : n + 1 < PATCHED) (hk : k + 1 < PATCHED)
    (h : generation (BitVec.ofNat 32 n) = generation (BitVec.ofNat 32 k)) : n = k := by
  rw [generation_eq hn, generation_eq hk] at h
  have hword : BitVec.ofNat 32 (n + 1) = BitVec.ofNat 32 (k + 1) :=
    (eq_of_mul_eq h).trans (eq_of_mul_eq rfl).symm
  have hnat := congrArg BitVec.toNat hword
  rw [PATCHED] at hn hk
  rw [BitVec.toNat_ofNat, BitVec.toNat_ofNat, Nat.mod_eq_of_lt (by omega), Nat.mod_eq_of_lt (by omega)] at hnat
  omega

/-- The patched generation is that of an earlier old value. -/
theorem generation_patched : generation 3806962013#32 = generation 244002640#32 := by
  decide

/-! ### Whole runs -/

theorem Counted.nodup (h : Counted s olds) (hs : s.taken < PATCHED) : s.returned.Nodup := by
  have hall : (((List.range s.taken).map (BitVec.ofNat 32)).map generation).Nodup := by
    rw [List.map_map]
    refine List.Nodup.map_on (fun n hn k hk heq => ?_) List.nodup_range
    rw [List.mem_range] at hn hk
    rw [Function.comp_apply, Function.comp_apply] at heq
    exact generation_injective (Nat.lt_of_le_of_lt hn hs) (Nat.lt_of_le_of_lt hk hs) heq
  have hperm := h.values.map generation
  rw [List.map_append, ← h.returned] at hperm
  exact (List.nodup_append.mp (hperm.nodup_iff.mpr hall)).1

/-- Once the patched generation has been returned, with all before it. -/
theorem Counted.not_nodup (h : Counted s olds) (hpending : s.pending = []) (hs : PATCHED ≤ s.taken) :
    ¬ s.returned.Nodup := by
  intro hnodup
  have hperm := h.values.map generation
  rw [hpending, List.map_nil, List.append_nil, ← h.returned, List.map_map] at hperm
  have hall := List.inj_on_of_nodup_map (hperm.nodup_iff.mp hnodup)
  rw [PATCHED] at hs
  have hmem : ∀ n, n < 3806962014 → n ∈ List.range s.taken := fun n hn =>
    List.mem_range.mpr (Nat.lt_of_lt_of_le hn hs)
  have heq := hall (hmem 3806962013 (by omega)) (hmem 244002640 (by omega)) generation_patched
  omega

/-- **Generations over a run.**  None is reserved; up to the patched one no two are equal, and once that one
and all before it are returned, two are. -/
theorem generations_distinct (h : Reached R s) :
    (∀ g ∈ s.returned, g ≠ 0#32 ∧ g ≠ -1#32 ∧ g ≠ DEAD) ∧
    (s.taken < PATCHED → s.returned.Nodup) ∧
    (s.pending = [] → PATCHED ≤ s.taken → ¬ s.returned.Nodup) := by
  obtain ⟨olds, hcounted⟩ := h.counted
  refine ⟨fun g hg => ?_, hcounted.nodup, hcounted.not_nodup⟩
  rw [hcounted.returned] at hg
  obtain ⟨old, -, rfl⟩ := List.mem_map.mp hg
  exact generation_reserved old

/-! ### One thread alone -/

/-- A page of zeros, and nothing more to be had. -/
def onePage : Mem := Mem.ofPages 1 fun _ => 0#8

def plainRuntime : Runtime where
  host := ⟨1, fun _ _ => none, fun h => by cases h⟩
  heapStart := 64#32

/-- A thread can take as many generations as it likes. -/
theorem alone (n : Nat) : ∃ s, Reached plainRuntime s ∧ s.pending = [] ∧ s.taken = n ∧ s.mem.size = 65536 := by
  induction n with
  | zero => exact ⟨⟨onePage, [], [], 0⟩, .start rfl, rfl, rfl, rfl⟩
  | succ n ih =>
    obtain ⟨s, hreached, hpending, rfl, hsize⟩ := ih
    have hadd : atomicAdd plainRuntime s.mem COUNTER 1#32
        = done (s.mem.word32 56, s.mem.setWord32 56 (s.mem.word32 56 + 1#32)) := by
      have hfits : COUNTER.toNat + 4 ≤ s.mem.size := by
        rw [hsize]
        decide
      rw [atomicAdd, if_pos hfits]
      rfl
    have htook := hreached.step (@Step.add plainRuntime s 0 _ _ (by simp [hpending]) hadd)
    rw [hpending] at htook
    exact ⟨_, htook.step (@Step.ret plainRuntime _ 0 _ [] [] rfl), rfl, rfl, hsize⟩

theorem generations_alone : ∃ s, Reached plainRuntime s ∧ s.taken = 2 ∧ s.returned.Nodup := by
  obtain ⟨s, hreached, -, htaken, -⟩ := alone 2
  exact ⟨s, hreached, htaken, (generations_distinct hreached).2.1 (by rw [htaken, PATCHED]; omega)⟩

/-- Two generations of a run that takes fewer than `2 ^ 32 - 1` can be equal. -/
theorem not_always_distinct :
    ¬ ∀ R s, Reached R s → s.taken < 2 ^ 32 - 1 → s.returned.Nodup := by
  intro hall
  obtain ⟨s, hreached, hpending, htaken, -⟩ := alone PATCHED
  obtain ⟨olds, hcounted⟩ := hreached.counted
  exact hcounted.not_nodup hpending htaken.ge (hall _ s hreached (by rw [htaken, PATCHED]; omega))

end Aipl.Std.Gen
