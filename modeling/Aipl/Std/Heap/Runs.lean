import Aipl.Std.Heap.Calls
import Mathlib.Algebra.Order.BigOperators.Group.List

/-! # Runs of a heap

A run starts with `make` and is made of calls of `raw` and `free_raw` that return, with whatever else
the program does in between.  The blocks ever handed out are recorded beside the heap.

* `Good` — the invariant of runs: `Core`, and the counters.
* `Good.raw`, `Good.free`, `Good.other` — one step keeps it.
* `reach_good` — so it holds of every state a run reaches.
* `reach_sound` — what that says of blocks, free lists and counters.
-/

namespace Aipl.StdHeap

open Aipl.Lib Aipl.Lib.Outcome Aipl.Std Aipl.Compiler.Alloc

variable {R : Runtime}

/-- A heap, memory, and the blocks handed out so far, live or freed. -/
structure St where
  heap : Heap
  mem : Mem
  blocks : List Blk

/-- What else a program does: it writes anything but headers and freed blocks, and memory it asks
for does not move the cursor back. -/
structure Elsewhere (R : Runtime) (s : St) (m : Mem) : Prop where
  cursorOk : CursorOk R.host m
  cursor : (cursor s.mem).toNat ≤ (Compiler.Alloc.cursor m).toNat
  bytes : ∀ b ∈ s.blocks, ∀ x, b.lo ≤ x → x < b.guard → m.byte x = s.mem.byte x

/-- The states a heap reaches from `make`. -/
inductive Reach (R : Runtime) : St → Prop where
  | make {m : Mem} (addr : BitVec 32) (hc : CursorOk R.host m) : Reach R ⟨make addr, m, []⟩
  | raw {s : St} {fuel : Nat} {n p c : BitVec 32} {h : Heap} {m : Mem} (hs : Reach R s)
      (hr : raw R fuel s.heap s.mem n = done (p, h, m)) (hc : HasClass n c) :
      Reach R ⟨h, m, ⟨p, n, c, true⟩ :: others s.blocks p⟩
  | free {s : St} {fuel : Nat} {b : Blk} {h : Heap} {m : Mem} (hs : Reach R s)
      (hb : b ∈ s.blocks) (hlive : b.live = true)
      (hr : freeRaw R fuel s.heap s.mem b.p b.n = done (h, m)) :
      Reach R ⟨h, m, { b with live := false } :: others s.blocks b.p⟩
  | other {s : St} {m : Mem} (hs : Reach R s) (hm : Elsewhere R s m) : Reach R ⟨s.heap, m, s.blocks⟩

/-- The live blocks. -/
def lives (blocks : List Blk) : List Blk := blocks.filter Blk.live

/-- The total size asked for in the live blocks. -/
def liveSize (blocks : List Blk) : Nat := ((lives blocks).map fun b => b.n.toNat).sum

/-- **The invariant of runs.** -/
structure Good (R : Runtime) (s : St) : Prop where
  core : Core R s.heap s.mem s.blocks
  nlive : s.heap.nlive = BitVec.ofNat 32 (lives s.blocks).length
  liveBytes : s.heap.liveBytes = BitVec.ofNat 32 (liveSize s.blocks)

theorem good_make {m : Mem} (addr : BitVec 32) (hc : CursorOk R.host m) :
    Good R ⟨make addr, m, []⟩ := by
  have hroom : (make addr).room = 0 := by simp [Heap.room, make]
  have hcur : (make addr).cur.toNat = 0 := rfl
  refine ⟨⟨hc, ⟨0, rfl⟩, .inr hroom, ?_, ?_, ?_, List.nodup_nil, List.length_replicate, ?_⟩, rfl, rfl⟩
  · rw [hroom, hcur]
    exact Nat.zero_le _
  · exact fun b hb => absurd hb List.not_mem_nil
  · exact fun b hb => absurd hb List.not_mem_nil
  · intro c hlt
    refine ⟨0#32, [], ?_, rfl, List.nodup_nil, fun q => ?_⟩
    · exact List.getElem?_replicate_of_lt hlt
    · simp

/-! ### The counters -/

/-- Taking out a block that is not live does not change the live blocks. -/
theorem lives_others {blocks : List Blk} {p : BitVec 32}
    (h : ∀ b ∈ blocks, b.p = p → b.live = false) : lives (others blocks p) = lives blocks := by
  rw [lives, lives, others, List.filter_filter]
  refine List.filter_congr fun b hb => ?_
  by_cases hp : b.p = p
  · rw [h b hb hp]
    rfl
  · simp [hp]

theorem perm_others {blocks : List Blk} {b : Blk} (hnodup : (blocks.map Blk.p).Nodup)
    (hb : b ∈ blocks) : (b :: others blocks b.p).Perm blocks := by
  induction blocks with
  | nil => cases hb
  | cons a l ih =>
    rw [List.map_cons, List.nodup_cons] at hnodup
    obtain ⟨ha, hl⟩ := hnodup
    rcases List.mem_cons.mp hb with rfl | hb
    · have hothers : others (b :: l) b.p = l := by
        rw [others, List.filter_cons_of_neg (by simp), List.filter_eq_self]
        intro x hx
        have : x.p ≠ b.p := fun h => ha (h ▸ List.mem_map_of_mem hx)
        simpa using this
      rw [hothers]
    · have hne : a.p ≠ b.p := fun h => ha (h ▸ List.mem_map_of_mem hb)
      have hothers : others (a :: l) b.p = a :: others l b.p := by
        rw [others, List.filter_cons_of_pos (by simpa using hne)]
        rfl
      rw [hothers]
      exact (List.Perm.swap a b _).trans ((ih hl hb).cons a)

theorem lives_perm {blocks : List Blk} {b : Blk} (hnodup : (blocks.map Blk.p).Nodup)
    (hb : b ∈ blocks) (hlive : b.live = true) :
    (lives blocks).Perm (b :: lives (others blocks b.p)) := by
  have h := ((perm_others hnodup hb).filter Blk.live).symm
  rwa [List.filter_cons_of_pos hlive] at h

theorem ofNat_succ_sub (k j : Nat) :
    BitVec.ofNat 32 (j + k) - BitVec.ofNat 32 j = BitVec.ofNat 32 k := by
  rw [BitVec.ofNat_add, add_sub_cancel_left]

/-! ### One step -/

theorem Good.raw {s : St} {fuel : Nat} {n p c : BitVec 32} {h : Heap} {m : Mem} (hs : Good R s)
    (hr : raw R fuel s.heap s.mem n = done (p, h, m)) (hc : HasClass n c) :
    Good R ⟨h, m, ⟨p, n, c, true⟩ :: others s.blocks p⟩ := by
  obtain ⟨hfresh, c', hserved⟩ := (raw_returns hs.core fuel n).of_eq_done hr
  obtain rfl : c' = c := hserved.cls.unique hc
  have hlives : lives (⟨p, n, c', true⟩ :: others s.blocks p)
      = ⟨p, n, c', true⟩ :: lives s.blocks := by
    rw [← lives_others hfresh]
    rfl
  refine ⟨hserved.core, ?_, ?_⟩
  · rw [hlives, List.length_cons, BitVec.ofNat_add, ← hs.nlive]
    exact hserved.nlive
  · have hsize : liveSize (⟨p, n, c', true⟩ :: others s.blocks p)
        = liveSize s.blocks + n.toNat := by
      rw [liveSize, hlives, List.map_cons, List.sum_cons, Nat.add_comm]
      rfl
    rw [hsize, BitVec.ofNat_add, ← hs.liveBytes, BitVec.ofNat_toNat, BitVec.setWidth_eq]
    exact hserved.liveBytes

theorem Good.free {s : St} {fuel : Nat} {b : Blk} {h : Heap} {m : Mem} (hs : Good R s)
    (hb : b ∈ s.blocks) (hlive : b.live = true)
    (hr : freeRaw R fuel s.heap s.mem b.p b.n = done (h, m)) :
    Good R ⟨h, m, { b with live := false } :: others s.blocks b.p⟩ := by
  have hreleased := (freeRaw_returns hs.core hb hlive fuel).of_eq_done hr
  have hperm := lives_perm hs.core.nodup hb hlive
  have hlives : lives ({ b with live := false } :: others s.blocks b.p)
      = lives (others s.blocks b.p) := rfl
  refine ⟨hreleased.core, ?_, ?_⟩
  · have hlen := hperm.length_eq
    rw [List.length_cons, Nat.add_comm] at hlen
    refine hreleased.nlive.trans ?_
    rw [hs.nlive, hlen, hlives]
    exact ofNat_succ_sub _ 1
  · have hsum := (hperm.map fun b => b.n.toNat).sum_eq
    rw [List.map_cons, List.sum_cons] at hsum
    have hb32 : b.n = BitVec.ofNat 32 b.n.toNat := by simp
    refine hreleased.liveBytes.trans ?_
    rw [hs.liveBytes, liveSize, hsum, liveSize, hlives]
    nth_rewrite 2 [hb32]
    exact ofNat_succ_sub _ _

theorem Good.other {s : St} {m : Mem} (hs : Good R s) (hm : Elsewhere R s m) :
    Good R ⟨s.heap, m, s.blocks⟩ :=
  ⟨hs.core.frame hm.cursorOk hm.cursor hm.bytes, hs.nlive, hs.liveBytes⟩

/-- **The invariant holds in every state reached.** -/
theorem reach_good {s : St} (h : Reach R s) : Good R s := by
  induction h with
  | make addr hc => exact good_make addr hc
  | raw _ hr hc ih => exact ih.raw hr hc
  | free _ hb hlive hr ih => exact ih.free hb hlive hr
  | other _ hm ih => exact ih.other hm

/-! ### What the invariant says -/

/-- The live blocks take no more than memory has, so the counters do not wrap. -/
theorem Core.liveSize_lt {h : Heap} {m : Mem} {blocks : List Blk} (hcore : Core R h m blocks) :
    (lives blocks).length ≤ liveSize blocks ∧ liveSize blocks ≤ 2 ^ 31 := by
  have hmem : ∀ b ∈ lives blocks, Placed h m b :=
    fun b hb => hcore.placed b (List.mem_of_mem_filter hb)
  have hdisj : (lives blocks).Pairwise fun b b' => b.hi ≤ b'.lo ∨ b'.hi ≤ b.lo := by
    refine List.Pairwise.filter Blk.live ?_
    exact (List.pairwise_map.mp hcore.nodup).imp_of_mem fun hb hb' hne =>
      hcore.apart _ hb _ hb' hne
  have hsum := sum_length_le hdisj fun b hb => (hmem b hb).hi_le hcore.cursorOk
  constructor
  · rw [liveSize, ← List.length_map (f := fun b : Blk => b.n.toNat)]
    refine List.length_le_sum_of_one_le _ fun k hk => ?_
    obtain ⟨b, hb, rfl⟩ := List.mem_map.mp hk
    exact (hmem b hb).pos
  · refine le_trans (List.sum_le_sum fun b hb => ?_) hsum
    have hp := hmem b hb
    have hfit := hp.fits.le
    have hround := toNat_round8 (n := b.n) (by have := hp.le; omega)
    rw [Blk.hi, Blk.lo]
    omega

/-- The bytes `[lo, hi)` and `[lo', hi')` are disjoint. -/
def Disjoint (lo hi lo' hi' : Nat) : Prop := ∀ x, lo ≤ x → x < hi → ¬ (lo' ≤ x ∧ x < hi')

/-- **A heap in order**: each free list holds the freed blocks of its class, each once, and the
counters are exact. -/
structure Sound (s : St) : Prop where
  lists : ∀ c < NCLASSES, ∃ head l, s.heap.heads[c]? = some head ∧ s.mem.Chain head l ∧ l.Nodup ∧
    ∀ q, q ∈ l ↔ ∃ b ∈ s.blocks, b.p = q ∧ b.live = false ∧ HasClass b.n (BitVec.ofNat 32 c)
  nlive : s.heap.nlive.toNat = (lives s.blocks).length
  liveBytes : s.heap.liveBytes.toNat = liveSize s.blocks

/-- **What a call of `raw` hands out**: aligned, zero, inside memory, and apart from every live block
and every block's header. -/
structure Fresh (s : St) (n p : BitVec 32) (m : Mem) : Prop where
  dvd : 8 ∣ p.toNat
  inside : p.toNat + n.toNat ≤ m.size
  zero : ∀ x, p.toNat ≤ x → x < p.toNat + n.toNat → m.byte x = 0#8
  live : ∀ b ∈ lives s.blocks,
    Disjoint p.toNat (p.toNat + n.toNat) b.p.toNat (b.p.toNat + b.n.toNat)
  header : ∀ b ∈ s.blocks, Disjoint p.toNat (p.toNat + n.toNat) (b.p.toNat - 8) b.p.toNat

theorem Good.sound {s : St} (h : Good R s) : Sound s := by
  obtain ⟨hcount, hsize⟩ := h.core.liveSize_lt
  refine ⟨fun c hlt => ?_, ?_, ?_⟩
  · obtain ⟨head, l, hhead, hchain, hnodup, hmem⟩ := h.core.listed c hlt
    refine ⟨head, l, hhead, hchain, hnodup, fun q => (hmem q).trans ?_⟩
    have hc32 : (BitVec.ofNat 32 c).toNat = c := by
      rw [NCLASSES] at hlt
      rw [BitVec.toNat_ofNat]
      omega
    constructor
    · rintro ⟨b, hb, hq, hfree, rfl⟩
      refine ⟨b, hb, hq, hfree, ?_⟩
      rw [BitVec.ofNat_toNat, BitVec.setWidth_eq]
      exact (h.core.placed b hb).cls
    · rintro ⟨b, hb, hq, hfree, hcls⟩
      refine ⟨b, hb, hq, hfree, ?_⟩
      rw [(h.core.placed b hb).cls.unique hcls, hc32]
  · rw [h.nlive, BitVec.toNat_ofNat]
    omega
  · rw [h.liveBytes, BitVec.toNat_ofNat]
    omega

theorem Good.fresh {s : St} {fuel : Nat} {n p : BitVec 32} {h : Heap} {m : Mem} (hs : Good R s)
    (hr : StdHeap.raw R fuel s.heap s.mem n = done (p, h, m)) : Fresh s n p m := by
  obtain ⟨hfresh, c, hserved⟩ := (raw_returns hs.core fuel n).of_eq_done hr
  have hcore := hserved.core
  dsimp only at hfresh hcore
  have hnew := hcore.placed _ List.mem_cons_self
  have hge := hnew.ge
  have hfit : p.toNat + n.toNat ≤ p.toNat + (classSize c).toNat := by
    have hle := hnew.fits.le
    have hround := toNat_round8 (n := n) (by have := hnew.le; dsimp only at this; omega)
    dsimp only at hle
    omega
  have hhi := hnew.inside
  have hin := hcore.cursorOk.inside
  -- a block elsewhere shares no byte with the new one
  have hother : ∀ b ∈ s.blocks, b.p ≠ p →
      Apart ⟨p, n, c, true⟩ b ∧ Placed h m b := by
    intro b hb hne
    have hmem : b ∈ ⟨p, n, c, true⟩ :: others s.blocks p :=
      List.mem_cons_of_mem _ (mem_others.mpr ⟨hb, hne⟩)
    exact ⟨hcore.apart _ List.mem_cons_self b hmem (Ne.symm hne), hcore.placed b hmem⟩
  rw [Blk.hi] at hhi
  dsimp only at hge hhi
  refine ⟨hnew.dvd, by omega, hserved.zero, fun b hb x h₁ h₂ => ?_, fun b hb x h₁ h₂ => ?_⟩
  · obtain ⟨hmem, hlive⟩ := List.mem_filter.mp hb
    have hne : b.p ≠ p := by
      intro heq
      rw [hfresh b hmem heq] at hlive
      cases hlive
    obtain ⟨hapart, hp⟩ := hother b hmem hne
    have hlo := hp.lo_lt_p
    have hle := hp.fits.le
    have hround := toNat_round8 (n := b.n) (by have := hp.le; omega)
    simp only [Apart, Blk.hi, Blk.lo] at hapart
    omega
  · by_cases heq : b.p = p
    · rw [heq]
      omega
    · obtain ⟨hapart, hp⟩ := hother b hb heq
      have hlo := hp.lo_lt_p
      have hhi' := hp.hi_ge
      simp only [Apart, Blk.hi, Blk.lo] at hapart
      simp only [Blk.hi] at hhi'
      omega

/-- **A heap is in order in every state reached**, and every call of `raw` that returns hands out a
block apart from all that is live. -/
theorem reach_sound {s : St} (h : Reach R s) :
    Sound s ∧ ∀ (fuel : Nat) (n p : BitVec 32) (h' : Heap) (m' : Mem),
      StdHeap.raw R fuel s.heap s.mem n = done (p, h', m') → Fresh s n p m' := by
  have hgood := reach_good h
  exact ⟨hgood.sound, fun _ _ _ _ _ hr => hgood.fresh hr⟩

/-! ### A run: a block is handed out, freed and handed out again -/

def runtimeAll : Runtime := ⟨hostAll, 1024#32⟩

/-- The heap after `raw` of 8 bytes, in a fresh module. -/
def servedHeap : Heap :=
  { make 64#32 with cur := 1040#32, end_ := 66560#32, nlive := 1#32, liveBytes := 8#32,
                    reserved := 65536#32 }

def servedMem : Mem :=
  (((freshMem.setWord32 0 (1024#32 + round8 65536#32)).setWord32 1024 (64#32 ^^^ LIVE)).setWord32
    1028 8#32).setWord64 1032 0#64

/-- The heap after the block is freed. -/
def freedHeap : Heap :=
  { servedHeap with heads := servedHeap.heads.set 0 1032#32, nlive := 0#32, liveBytes := 0#32 }

def freedMem : Mem :=
  ((servedMem.setWord32 1024 (64#32 ^^^ FREED)).setWord32 1032 0#32).setWord32 1036 0#32

theorem raw_fresh : raw runtimeAll 0 (make 64#32) freshMem 8#32
    = done (1032#32, servedHeap, servedMem) := rfl

theorem freeRaw_served : freeRaw runtimeAll 1 servedHeap servedMem 1032#32 8#32
    = done (freedHeap, freedMem) := rfl

theorem reach_freed : Reach runtimeAll ⟨freedHeap, freedMem, [⟨1032#32, 8#32, 0#32, false⟩]⟩ := by
  have h₀ : Reach runtimeAll ⟨make 64#32, freshMem, []⟩ :=
    .make 64#32 (good_start start_freshMem).cursorOk
  have h₁ : Reach runtimeAll ⟨servedHeap, servedMem, [⟨1032#32, 8#32, 0#32, true⟩]⟩ :=
    h₀.raw raw_fresh ⟨0, rfl⟩
  exact h₁.free (b := ⟨1032#32, 8#32, 0#32, true⟩) List.mem_cons_self rfl freeRaw_served

theorem reach_sound_freed :
    Sound ⟨freedHeap, freedMem, [⟨1032#32, 8#32, 0#32, false⟩]⟩ ∧
      ∃ h m, StdHeap.raw runtimeAll 1 freedHeap freedMem 5#32 = done (1032#32, h, m) ∧
        Fresh ⟨freedHeap, freedMem, [⟨1032#32, 8#32, 0#32, false⟩]⟩ 5#32 1032#32 m := by
  obtain ⟨hsound, hfresh⟩ := reach_sound reach_freed
  obtain ⟨h, m, hr⟩ : ∃ h m, StdHeap.raw runtimeAll 1 freedHeap freedMem 5#32
      = done (1032#32, h, m) := ⟨_, _, rfl⟩
  exact ⟨hsound, h, m, hr, hfresh 1 _ _ h m hr⟩

end Aipl.StdHeap
