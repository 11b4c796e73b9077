import Aipl.Std.Region.Calls
import Aipl.Std.Arena.Runs

/-! # Runs of an arena, a fast arena or a fixed buffer

A run makes a region, asks it for bytes, gives some back, and starts it over, with whatever else the
program does in between.

* `reach_inv` — while no size wraps when it is rounded up, the region stays `Filled`.
* `reach_served` — so its used mark stays within what it fills, and every request that returns is handed
  out there, beyond what was handed out before.
* `not_every_request_served` — without that, an arena hands out a block that ends past its chunk.
-/

namespace Aipl.StdRegion

open Aipl.Lib Aipl.Lib.Outcome Aipl.Std Aipl.Compiler.Alloc

open Aipl.StdArena (Arena ChunkSizeOk)

variable {R : Runtime}

/-- A region, memory, and the blocks handed out since the region was last reset, the newest first; a
fixed buffer's less those it took back. -/
structure St where
  region : Region
  mem : Mem
  placed : List Placed

/-- The blocks after one of them is given back: an arena hands out none of it again before its reset. -/
def Region.remaining (r : Region) (placed : List Placed) (p : Placed) : List Placed :=
  match r with
  | fixed _ => placed.erase p
  | _ => placed

/-- The states a region reaches, with requests that satisfy `sizes` and chunk sizes that satisfy `chunks`.
The buffer of a fixed one is memory that was handed out. -/
inductive Reach (R : Runtime) (sizes : Region → BitVec 32 → Prop) (chunks : BitVec 32 → Prop) : St → Prop where
  | arena {m m' : Mem} {chunkSize : BitVec 32} {a : Arena} (hc : CursorOk R.host m)
      (hlow : 1024 ≤ (cursor m).toNat) (hchunk : chunks chunkSize)
      (hr : StdArena.make R m chunkSize = done (a, m')) : Reach R sizes chunks ⟨.arena a, m', []⟩
  | fastArena {m m' : Mem} {chunkSize : BitVec 32} {f : Fast} (hc : CursorOk R.host m)
      (hlow : 1024 ≤ (cursor m).toNat) (hchunk : chunks chunkSize)
      (hr : makeFast R m chunkSize = done (f, m')) : Reach R sizes chunks ⟨.fastArena f, m', []⟩
  | fixed {m m' : Mem} {base len : BitVec 32} {f : Fixed} (hc : CursorOk R.host m)
      (hlow : 1024 ≤ base.toNat) (hbuffer : base.toNat + len.toNat ≤ (cursor m).toNat)
      (hr : StdRegion.fixed R m base len = done (f, m')) : Reach R sizes chunks ⟨.fixed f, m', []⟩
  | raw {s : St} {fuel : Nat} {n p : BitVec 32} {r : Region} {m : Mem} (hs : Reach R sizes chunks s)
      (hsize : sizes s.region n) (hr : s.region.raw R fuel s.mem n = done (p, r, m)) :
      Reach R sizes chunks ⟨r, m, blockOf r p n :: s.placed⟩
  | freeRaw {s : St} {p : Placed} (hs : Reach R sizes chunks s) (hp : p ∈ s.placed) :
      Reach R sizes chunks ⟨s.region.freeRaw (BitVec.ofNat 32 p.addr) (BitVec.ofNat 32 p.size), s.mem,
        s.region.remaining s.placed p⟩
  | reset {s : St} {fuel : Nat} {r : Region} {m : Mem} (hs : Reach R sizes chunks s)
      (hr : s.region.reset R fuel s.mem = done (r, m)) : Reach R sizes chunks ⟨r, m, []⟩
  | other {s : St} {m : Mem} (hs : Reach R sizes chunks s) (hc : CursorOk R.host m)
      (hcur : (cursor s.mem).toNat ≤ (cursor m).toNat) : Reach R sizes chunks ⟨s.region, m, s.placed⟩

/-- The requests whose sizes do not wrap when they are rounded up and, in an arena, given a header. -/
def SizeOk : Region → BitVec 32 → Prop
  | .arena _, n => n.toInt ≤ 2147483632
  | .fastArena _, n => n.toInt ≤ 2147483640
  | .fixed _, n => n.toInt ≤ 2147483640

/-- **The invariant of a run.** -/
structure Inv (R : Runtime) (s : St) : Prop where
  filled : Filled R s.mem (s.region.bump s.placed)
  chunked : s.region.Chunked
  rooms : ∀ p ∈ s.placed, (round8 (BitVec.ofNat 32 p.size)).toNat = p.room

/-- What the region fills is used between its ends. -/
def Within (r : Region) : Prop := ∃ c, r.filling = some c ∧ 0 ≤ r.used.toInt ∧ r.used.toInt ≤ c.cap.toInt

theorem Filled.within {m : Mem} {r : Region} {placed : List Placed} (h : Filled R m (r.bump placed)) :
    Within r := by
  obtain ⟨e, he, -⟩ := h.ok.current
  have hext : r.extents[r.current]? = some e := he
  rw [Region.extents_filling] at hext
  obtain ⟨c, hc, rfl⟩ := Option.map_eq_some_iff.mp hext
  obtain ⟨hused, hbase, hcap⟩ : r.used.toNat ≤ c.cap.toNat ∧ 1024 ≤ c.base.toNat ∧
      c.base.toNat + c.cap.toNat ≤ 2 ^ 31 := h.bounds he
  refine ⟨c, hc, ?_, ?_⟩
  · rw [toInt_eq_toNat (by omega)]
    exact Int.natCast_nonneg _
  · rw [toInt_eq_toNat (by omega), toInt_eq_toNat (by omega)]
    exact Int.ofNat_le.mpr hused

/-- What both kinds of arena are made of: a first chunk, and a generation. -/
theorem made_returns {α : Type} {Q : α × Mem → Prop} {m : Mem} {chunkSize : BitVec 32}
    (hc : CursorOk R.host m) (hlow : 1024 ≤ (cursor m).toNat) (hchunk : ChunkSizeOk chunkSize)
    (f : StdArena.Chunk → BitVec 32 → α)
    (hQ : ∀ first g m', Filled R m' ⟨[extentOf first], 0, 0, []⟩ → 8 ∣ (round8 chunkSize).toNat →
      (round8 chunkSize).toNat < 2 ^ 31 → Q (f first g, m')) :
    Returns Q (do
      require ((0#32).slt chunkSize)
      let m ← Gen.forever R m 32#32
      let (first, m) ← StdArena.newChunk R m (round8 chunkSize)
      let (gen, m) ← Gen.fresh R m
      pure (f first gen, m)) := by
  rw [ChunkSizeOk] at hchunk
  refine returns_bind (Q := fun _ => (0#32).slt chunkSize = true) (returns_require fun h => h)
    fun _ hpos => ?_
  rw [BitVec.slt_eq_decide, decide_eq_true_eq, BitVec.toInt_zero] at hpos
  obtain ⟨heq, -⟩ := toInt_of_nonneg hpos.le
  have hround := toNat_round8 (n := chunkSize) (by omega)
  have hdvd := dvd_toNat_round8 chunkSize
  refine returns_bind (StdArena.forever_keeps hc hlow (by decide) (by decide)) fun m₁ hm₁ => ?_
  obtain ⟨hc₁, hup₁, -⟩ := hm₁
  refine returns_bind (StdArena.newChunk_returns hc₁ (by omega) (by omega) hdvd) fun r hr => ?_
  obtain ⟨first, m₂⟩ := r
  obtain ⟨ht, -, -, hbase, hc₂, -⟩ := hr
  refine returns_bind (Q := fun r => Gen.fresh R m₂ = done r) (returns_iff.mpr fun _ h => h)
    fun r hr => ?_
  obtain ⟨g, m₃⟩ := r
  obtain ⟨-, hc₃, hcur₃, -⟩ := StdArena.fresh_keeps hc₂ hr
  refine hQ first g m₃ ⟨hc₃, ?_, ?_, ?_⟩ hdvd (by omega)
  · have hin := ht.inside
    dsimp only at hin hbase hcur₃
    rw [hcur₃]
    omega
  · intro e he
    rw [List.mem_singleton.mp he]
    refine ⟨ht.ge, ?_⟩
    rw [hcur₃]
    exact ht.inside
  · exact ⟨⟨_, rfl, Nat.zero_le _⟩, fun p hp => absurd hp List.not_mem_nil, .nil⟩

theorem makeArena_returns {m : Mem} {chunkSize : BitVec 32} (hc : CursorOk R.host m)
    (hlow : 1024 ≤ (cursor m).toNat) (hchunk : ChunkSizeOk chunkSize) :
    Returns (fun r => Inv R ⟨.arena r.1, r.2, []⟩) (StdArena.make R m chunkSize) := by
  rw [StdArena.make]
  refine made_returns hc hlow hchunk (fun first g => (⟨[first], 0, 0#32, round8 chunkSize, g⟩ : Arena)) ?_
  intro first g m' hfilled hdvd hlt
  exact ⟨hfilled, ⟨hdvd, hlt⟩, fun _ hp => absurd hp List.not_mem_nil⟩

theorem makeFast_returns {m : Mem} {chunkSize : BitVec 32} (hc : CursorOk R.host m)
    (hlow : 1024 ≤ (cursor m).toNat) (hchunk : ChunkSizeOk chunkSize) :
    Returns (fun r => Inv R ⟨.fastArena r.1, r.2, []⟩) (makeFast R m chunkSize) := by
  rw [makeFast]
  refine made_returns hc hlow hchunk (fun first g => (⟨[first], 0, 0#32, round8 chunkSize, g⟩ : Fast)) ?_
  intro first g m' hfilled hdvd hlt
  exact ⟨hfilled, ⟨hdvd, hlt⟩, fun _ hp => absurd hp List.not_mem_nil⟩

theorem fixed_returns {m : Mem} {base len : BitVec 32} (hc : CursorOk R.host m)
    (hlow : 1024 ≤ base.toNat) (hbuffer : base.toNat + len.toNat ≤ (cursor m).toNat) :
    Returns (fun r => Inv R ⟨.fixed r.1, r.2, []⟩) (fixed R m base len) := by
  rw [fixed]
  refine returns_bind (Q := fun _ => True) (returns_require fun _ => trivial) fun _ _ => ?_
  refine returns_bind (StdArena.forever_keeps hc (by omega) (by decide) (by decide)) fun m₁ hm₁ => ?_
  obtain ⟨hc₁, hup₁, -⟩ := hm₁
  refine ⟨⟨hc₁, by dsimp only; omega, ?_, ?_⟩, trivial, fun p hp => absurd hp List.not_mem_nil⟩
  · intro e he
    rw [List.mem_singleton.mp he]
    exact ⟨hlow, hbuffer.trans hup₁⟩
  · exact ⟨⟨_, rfl, Nat.zero_le _⟩, fun p hp => absurd hp List.not_mem_nil, .nil⟩

/-- **A request** whose size does not wrap is served. -/
theorem raw_returns {s : St} (h : Inv R s) (n : BitVec 32) (hok : SizeOk s.region n) (fuel : Nat) :
    Returns (fun r => Served R s.placed n r.1 r.2.1 r.2.2) (s.region.raw R fuel s.mem n) := by
  obtain ⟨r, m, placed⟩ := s
  obtain ⟨hfilled, hchunked, -⟩ := h
  unfold Region.raw
  refine returns_bind (Q := fun _ => (0#32).slt n = true) (returns_require fun h => h) fun _ hpos => ?_
  have hnat : ∀ k : Nat, k < 2 ^ 31 → n.toInt ≤ k → 0 < n.toNat ∧ n.toNat ≤ k := by
    intro k hk hle
    rw [BitVec.slt_eq_decide, decide_eq_true_eq, BitVec.toInt_zero] at hpos
    obtain ⟨heq, -⟩ := toInt_of_nonneg hpos.le
    omega
  cases r with
  | arena a =>
    obtain ⟨hn, hle⟩ := hnat 2147483632 (by decide) hok
    refine returns_bind (arenaRaw_returns hfilled hchunked hn hle fuel) fun r hr => ?_
    exact hr
  | fastArena f =>
    obtain ⟨hn, hle⟩ := hnat 2147483640 (by decide) hok
    refine returns_bind (fastRaw_returns hfilled hchunked hn hle fuel) fun r hr => ?_
    exact hr
  | fixed f =>
    obtain ⟨hn, hle⟩ := hnat 2147483640 (by decide) hok
    refine returns_bind (fixedRaw_returns hfilled hn hle) fun r hr => ?_
    exact hr

/-- **The invariant holds in every state reached.** -/
theorem reach_inv {s : St} (h : Reach R SizeOk ChunkSizeOk s) : Inv R s := by
  induction h with
  | arena hc hlow hchunk hr => exact (makeArena_returns hc hlow hchunk).of_eq_done hr
  | fastArena hc hlow hchunk hr => exact (makeFast_returns hc hlow hchunk).of_eq_done hr
  | fixed hc hlow hbuffer hr => exact (fixed_returns hc hlow hbuffer).of_eq_done hr
  | raw hs hsize hr ih =>
    have hserved := (raw_returns ih _ hsize _).of_eq_done hr
    refine ⟨hserved.filled, hserved.chunked, ?_⟩
    intro p hp
    rcases List.mem_cons.mp hp with rfl | hp
    · simp [blockOf]
    · exact ih.rooms p hp
  | @freeRaw s p hs hp ih =>
    obtain ⟨r, m, placed⟩ := s
    cases r with
    | arena a => exact ih
    | fastArena f => exact ih
    | fixed f =>
      exact ⟨fixedFree_filled ih.filled hp (ih.rooms p hp), trivial,
        fun q hq => ih.rooms q (List.mem_of_mem_erase hq)⟩
  | @reset s fuel r m hs hr ih =>
    obtain ⟨r₀, m₀, placed⟩ := s
    cases r₀ with
    | arena a =>
      obtain ⟨⟨a', m', walks⟩, hreset, hr⟩ := bind_eq_done hr
      cases hr
      obtain ⟨hfilled, hsame⟩ := (arenaReset_returns ih.filled fuel).of_eq_done hreset
      have hchunked : (Region.arena a').Chunked := by
        rw [Region.Chunked, hsame]
        exact ih.chunked
      exact ⟨hfilled, hchunked, fun p hp => absurd hp List.not_mem_nil⟩
    | fastArena f =>
      obtain ⟨⟨f', m'⟩, hreset, hr⟩ := bind_eq_done hr
      cases hr
      obtain ⟨hfilled, hsame⟩ := (fastReset_returns ih.filled).of_eq_done hreset
      have hchunked : (Region.fastArena f').Chunked := by
        rw [Region.Chunked, hsame]
        exact ih.chunked
      exact ⟨hfilled, hchunked, fun p hp => absurd hp List.not_mem_nil⟩
    | fixed f => cases hr
  | other hs hc hcur ih => exact ⟨ih.filled.frame hc hcur, ih.chunked, ih.rooms⟩

/-- **A request** whose size wraps, and that returns, leaves the used mark negative. -/
theorem raw_wraps {s : St} (h : Inv R s) (n : BitVec 32) (hok : ¬ SizeOk s.region n) (fuel : Nat) :
    Returns (fun r => ¬ Within r.2.1) (s.region.raw R fuel s.mem n) := by
  obtain ⟨r, m, placed⟩ := s
  have hneg : ∀ {r : Region}, r.used.toInt < 0 → ¬ Within r := by
    rintro r hlt ⟨c, -, hle, -⟩
    omega
  unfold Region.raw
  refine returns_bind (Q := fun _ => (0#32).slt n = true) (returns_require fun h => h) fun _ hpos => ?_
  rw [BitVec.slt_eq_decide, decide_eq_true_eq, BitVec.toInt_zero] at hpos
  obtain ⟨heq, hlt⟩ := toInt_of_nonneg hpos.le
  have hround := toNat_round8 (n := n) (by omega)
  cases r with
  | arena a =>
    replace hok : ¬ n.toInt ≤ 2147483632 := hok
    have h8 : (8#32).toNat = 8 := rfl
    have hsize := toNat_add_of_lt (x := round8 n) (y := 8#32) (by omega)
    refine returns_bind (arenaRaw_wraps h.filled (by omega) (by omega) fuel) fun r hr => ?_
    exact hneg (r := .arena r.2.1) hr
  | fastArena f =>
    replace hok : ¬ n.toInt ≤ 2147483640 := hok
    refine returns_bind (fastRaw_wraps h.filled (by omega) fuel) fun r hr => ?_
    exact hneg (r := .fastArena r.2.1) hr
  | fixed f =>
    replace hok : ¬ n.toInt ≤ 2147483640 := hok
    refine returns_bind (fixedRaw_wraps h.filled (by omega)) fun r hr => ?_
    exact hneg (r := .fixed r.2.1) hr

/-- **Blocks stay inside their memory.**  In every state reached by requests whose sizes do not wrap, the
region's used mark lies within what it fills.  A request there that returns is handed out inside that,
beyond the blocks handed out before, and leaves the mark within, exactly when its own size does not
wrap. -/
theorem reach_served {s : St} (h : Reach R SizeOk ChunkSizeOk s) :
    Within s.region ∧ ∀ (fuel : Nat) (n p : BitVec 32) (r : Region) (m : Mem),
      s.region.raw R fuel s.mem n = done (p, r, m) →
        (HandedOut s.placed r p n ∧ Within r ↔ SizeOk s.region n) := by
  have hinv := reach_inv h
  refine ⟨hinv.filled.within, ?_⟩
  intro fuel n p r m hr
  constructor
  · rintro ⟨-, hwithin⟩
    by_contra hok
    exact (raw_wraps hinv n hok fuel).of_eq_done hr hwithin
  · intro hsize
    have hserved := (raw_returns hinv n hsize fuel).of_eq_done hr
    exact ⟨hserved.handedOut, hserved.filled.within⟩

/-! ### Two runs of an arena: one request each -/

/-- An arena with chunks of 64 bytes is made in a fresh module, and asked for `n` bytes. -/
def ask (n : BitVec 32) : Outcome (Arena × Mem × BitVec 32 × Region × Mem) := do
  let R : Runtime := ⟨hostAll, 1024#32⟩
  let (a, m) ← StdArena.make R freshMem 64#32
  let (p, r, m') ← (Region.arena a).raw R 2 m n
  pure (a, m, p, r, m')

theorem reach_ask (sizes : Region → BitVec 32 → Prop) (chunks : BitVec 32 → Prop) {n p : BitVec 32}
    {a : Arena} {m m' : Mem} {r : Region} (hchunk : chunks 64#32) (hr : ask n = done (a, m, p, r, m')) :
    Reach ⟨hostAll, 1024#32⟩ sizes chunks ⟨.arena a, m, []⟩ ∧
      (Region.arena a).raw ⟨hostAll, 1024#32⟩ 2 m n = done (p, r, m') := by
  rw [ask] at hr
  obtain ⟨⟨a₀, m₀⟩, h₀, hr⟩ := bind_eq_done hr
  obtain ⟨⟨p₁, r₁, m₁⟩, h₁, hr⟩ := bind_eq_done hr
  cases hr
  exact ⟨.arena (good_start start_freshMem).cursorOk (by decide) hchunk h₀, h₁⟩

/-- 48 bytes are handed out inside the chunk. -/
theorem reach_served_ask : ∃ a m p r m', ask 48#32 = done (a, m, p, r, m') ∧ HandedOut [] r p 48#32 ∧ Within r := by
  obtain ⟨a, m, p, r, m', hr⟩ : ∃ a m p r m', ask 48#32 = done (a, m, p, r, m') := ⟨_, _, _, _, _, rfl⟩
  have hchunk : ChunkSizeOk 64#32 := by
    rw [ChunkSizeOk]
    decide
  obtain ⟨hreach, hraw⟩ := reach_ask SizeOk ChunkSizeOk hchunk hr
  have hsize : SizeOk (.arena a) 48#32 := by
    rw [SizeOk]
    decide
  exact ⟨a, m, p, r, m', hr, ((reach_served hreach).2 2 48#32 p r m' hraw).mpr hsize⟩

/-- 2147483647 bytes are handed out of a chunk of 64, and leave its used mark negative. -/
theorem ask_wraps : ∃ a m p r m', ask 2147483647#32 = done (a, m, p, r, m') ∧ r.used.toInt < 0 := by
  refine ⟨_, _, _, _, _, rfl, ?_⟩
  decide

/-- Without a bound on the sizes, a request leaves its chunk. -/
theorem not_every_request_served :
    ¬ ∀ (R : Runtime) (s : St), Reach R (fun _ _ => True) (fun _ => True) s →
      Within s.region ∧ ∀ (fuel : Nat) (n p : BitVec 32) (r : Region) (m : Mem),
        s.region.raw R fuel s.mem n = done (p, r, m) → HandedOut s.placed r p n ∧ Within r := by
  intro h
  obtain ⟨a, m, p, r, m', hr, hneg⟩ := ask_wraps
  obtain ⟨hreach, hraw⟩ := reach_ask (fun _ _ => True) (fun _ => True) trivial hr
  obtain ⟨-, c, -, hle, -⟩ := (h _ _ hreach).2 2 _ p r m' hraw
  omega

end Aipl.StdRegion
