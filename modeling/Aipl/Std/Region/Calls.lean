import Aipl.Std.Region.Model
import Aipl.Std.Arena.Calls

/-! # What one call does to a region

* `Filled` — the invariant: the region is a `Bump` in memory that was handed out.
* `Served` — what a call of `raw` is to do: hand out a block inside the chunk being filled, beyond the
  blocks handed out of it before.
* `arenaRaw_returns`, `fastRaw_returns`, `fixedRaw_returns` — requests whose sizes do not wrap are served.
* `arenaReset_returns`, `fastReset_returns`, `fixedFree_filled` — starting over, and giving a block back.
* `arenaRaw_wraps`, `fastRaw_wraps`, `fixedRaw_wraps` — the others leave the used mark negative.
-/

namespace Aipl.StdRegion

open Aipl.Lib Aipl.Lib.Outcome Aipl.Std Aipl.Compiler.Alloc

open Aipl.StdArena (Arena Chunk newChunk newChunk_returns fits_of_sle)

def extentOf (c : Chunk) : Extent := ⟨c.base.toNat, c.cap.toNat⟩

namespace Region

def extents : Region → List Extent
  | arena a => a.chunks.map extentOf
  | fastArena f => f.chunks.map extentOf
  | fixed f => [⟨f.base.toNat, f.len.toNat⟩]

/-- The region with the blocks it handed out. -/
def bump (r : Region) (placed : List Placed) : Bump := ⟨r.extents, r.current, r.used.toNat, placed⟩

/-- The size of a new chunk is a multiple of 8 that does not wrap. -/
def Chunked : Region → Prop
  | arena a => 8 ∣ a.chunkSize.toNat ∧ a.chunkSize.toNat < 2 ^ 31
  | fastArena f => 8 ∣ f.chunkSize.toNat ∧ f.chunkSize.toNat < 2 ^ 31
  | fixed _ => True

theorem extents_filling {r : Region} : r.extents[r.current]? = r.filling.map extentOf := by
  cases r with
  | arena a => exact List.getElem?_map
  | fastArena f => exact List.getElem?_map
  | fixed f => rfl

end Region

/-- A stretch lies above the runtime's own words, in memory that was handed out. -/
structure Lies (m : Mem) (e : Extent) : Prop where
  ge : 1024 ≤ e.base
  inside : e.base + e.cap ≤ (cursor m).toNat

/-- **The invariant.** -/
structure Filled (R : Runtime) (m : Mem) (b : Bump) : Prop where
  cursorOk : CursorOk R.host m
  low : 1024 ≤ (cursor m).toNat
  lies : ∀ e ∈ b.extents, Lies m e
  ok : b.Ok

variable {R : Runtime} {m : Mem} {b : Bump} {r : Region} {placed : List Placed} {n : BitVec 32}

theorem Filled.frame {m' : Mem} (h : Filled R m b) (hc : CursorOk R.host m')
    (hcur : (cursor m).toNat ≤ (cursor m').toNat) : Filled R m' b := by
  refine ⟨hc, h.low.trans hcur, ?_, h.ok⟩
  intro e he
  exact ⟨(h.lies e he).ge, (h.lies e he).inside.trans hcur⟩

theorem Filled.bounds {e : Extent} (h : Filled R m b) (he : b.extents[b.current]? = some e) :
    b.used ≤ e.cap ∧ 1024 ≤ e.base ∧ e.base + e.cap ≤ 2 ^ 31 := by
  have hlies := h.lies e (List.mem_of_getElem? he)
  obtain ⟨hcur, hsize⟩ := CursorOk.toNat_le h.cursorOk
  exact ⟨h.ok.used_le he, hlies.ge, hlies.inside.trans (hcur.trans hsize)⟩

theorem Filled.append {c : Chunk} {m' : Mem} (h : Filled R m b) (ht : StdArena.Taken m' c)
    (hbase : (cursor m).toNat ≤ c.base.toNat) (hc : CursorOk R.host m') :
    Filled R m' { b with extents := b.extents ++ [extentOf c] } := by
  have hcur : (cursor m).toNat ≤ (cursor m').toNat :=
    hbase.trans ((Nat.le_add_right _ _).trans ht.inside)
  have hframe := h.frame hc hcur
  refine ⟨hc, hframe.low, ?_, h.ok.append (extentOf c)⟩
  intro e he
  rcases List.mem_append.mp he with he | he
  · exact hframe.lies e he
  · rw [List.mem_singleton.mp he]
    exact ⟨ht.ge, ht.inside⟩

theorem Filled.next (h : Filled R m b) (hlt : b.current + 1 < b.extents.length) :
    Filled R m { b with current := b.current + 1, used := 0 } :=
  ⟨h.cursorOk, h.low, h.lies, h.ok.next hlt⟩

/-- A chunk's extent does not change with its mark. -/
theorem map_extentOf_set {chunks : List Chunk} {i : Nat} {c : Chunk} (used : BitVec 32)
    (hc : chunks[i]? = some c) :
    (chunks.set i { c with used := used }).map extentOf = chunks.map extentOf := by
  rw [List.map_set]
  refine List.ext_getElem? fun j => ?_
  by_cases hj : i = j
  · subst hj
    have hlt : i < (chunks.map extentOf).length := by
      rw [List.length_map]
      exact (List.getElem?_eq_some_iff.mp hc).1
    rw [List.getElem?_set_self hlt, List.getElem?_map, hc]
    rfl
  · rw [List.getElem?_set_ne hj]

/-! ### Stores -/

/-- A store leaves the heap cursor alone. -/
theorem store32_keeps (hc : CursorOk R.host m) (a v : BitVec 32) :
    Returns (fun m' => CursorOk R.host m' ∧ cursor m' = cursor m) (store32 R m a v) := by
  rw [store32]
  refine returns_bind (Q := fun _ => R.writable a = true) (returns_require fun h => h) fun _ hw => ?_
  have ha : 4 ≤ a.toNat := by
    rw [Runtime.writable, Bool.and_eq_true, Bool.not_eq_true'] at hw
    have hult := hw.1
    rw [BitVec.ult_eq_decide, decide_eq_false_iff_not] at hult
    exact Nat.not_lt.mp hult
  split
  · exact CursorOk.sameOutside hc (Mem.sameOutside_write le_rfl le_rfl) ha
  · trivial

/-- Zeroing words leaves the heap cursor alone, and returns only where they lie in memory. -/
theorem zero_returns {p words : BitVec 32} (hc : CursorOk R.host m) (hp : 4 ≤ p.toNat)
    (hw : words.toNat < 2 ^ 28) (hfit : p.toNat + 8 * words.toNat < 2 ^ 32) :
    Returns (fun m' => CursorOk R.host m' ∧ cursor m' = cursor m ∧
      (0 < words.toNat → p.toNat + 8 * words.toNat ≤ 2 ^ 31)) (zero R m p words) := by
  refine (zeroLoop_returns hw hfit).mono fun m' hm' => ?_
  obtain ⟨hsame, -, hin⟩ := hm'
  obtain ⟨hc', hcur⟩ := CursorOk.sameOutside hc hsame hp
  refine ⟨hc', hcur, fun hpos => (hin hpos).trans (CursorOk.toNat_le hc).2⟩

/-! ### Handing out -/

/-- `p` is the address of `n` bytes inside what the region fills, beyond its other blocks. -/
def HandedOut (placed : List Placed) (r : Region) (p n : BitVec 32) : Prop :=
  ∃ c, r.filling = some c ∧ c.base.toNat ≤ p.toNat ∧
    p.toNat + n.toNat ≤ c.base.toNat + c.cap.toNat ∧
    ∀ b ∈ placed, b.extent = r.current → b.addr + b.size ≤ p.toNat

/-- The block of a request, as it is kept beside the region. -/
def blockOf (r : Region) (p n : BitVec 32) : Placed := ⟨r.current, p.toNat, n.toNat, (round8 n).toNat⟩

/-- The request was served. -/
structure Served (R : Runtime) (placed : List Placed) (n p : BitVec 32) (r : Region) (m : Mem) : Prop where
  filled : Filled R m (r.bump (blockOf r p n :: placed))
  chunked : r.Chunked
  handedOut : HandedOut placed r p n

/-- A request's room: its size, rounded up. -/
theorem toNat_room (hpos : 0 < n.toNat) (hle : n.toNat ≤ 2147483640) :
    n.toNat ≤ (round8 n).toNat ∧ (round8 n).toNat ≤ 2147483640 ∧ 8 ∣ (round8 n).toNat := by
  have hround := toNat_round8 (n := n) (by omega)
  refine ⟨by omega, by omega, dvd_toNat_round8 n⟩

/-- A request is served by a block behind `header` bytes. -/
theorem Filled.serve {c : Chunk} {r' : Region} {p : BitVec 32} {m' : Mem}
    (h : Filled R m (r.bump placed)) (header : Nat) (hc : r.filling = some c) (hpos : 0 < n.toNat)
    (hle : n.toNat ≤ 2147483640) (hfit : r.used.toNat + header + (round8 n).toNat ≤ c.cap.toNat)
    (hp : p.toNat = c.base.toNat + r.used.toNat + header) (hextents : r'.extents = r.extents)
    (hfilling : ∃ c', r'.filling = some c' ∧ extentOf c' = extentOf c) (hcurrent : r'.current = r.current)
    (hused : r'.used.toNat = r.used.toNat + header + (round8 n).toNat) (hchunked : r'.Chunked)
    (hc' : CursorOk R.host m') (hcur : cursor m' = cursor m) : Served R placed n p r' m' := by
  obtain ⟨hroom, -, -⟩ := toNat_room hpos hle
  have he : (r.bump placed).extents[(r.bump placed).current]? = some (extentOf c) := by
    change r.extents[r.current]? = _
    rw [Region.extents_filling, hc]
    rfl
  have hplace := h.ok.place header he hroom (by omega) hfit
  have hframe := h.frame hc' (Nat.le_of_eq (congrArg BitVec.toNat hcur.symm))
  refine ⟨?_, hchunked, ?_⟩
  · have hbump : r'.bump (blockOf r' p n :: placed) =
        { r.bump placed with
          used := r.used.toNat + header + (round8 n).toNat
          placed := ⟨r.current, c.base.toNat + r.used.toNat + header, n.toNat, (round8 n).toNat⟩ ::
            placed } := by
      simp only [Region.bump, blockOf, hextents, hcurrent, hused, hp]
    rw [hbump]
    exact ⟨hc', hframe.low, hframe.lies, hplace⟩
  · obtain ⟨c', hc'', hsame⟩ := hfilling
    injection hsame with hbase hcap
    refine ⟨c', hc'', by omega, by omega, ?_⟩
    intro b hb hbcur
    have hbeyond := h.ok.beyond he hb (hbcur.trans hcurrent)
    have hsize := (h.ok.holds b hb).size_le
    change b.addr + b.room ≤ c.base.toNat + r.used.toNat at hbeyond
    omega

/-! ### Fixed buffers -/

theorem fixedRaw_returns {f : Fixed} (h : Filled R m ((Region.fixed f).bump placed)) (hpos : 0 < n.toNat)
    (hle : n.toNat ≤ 2147483640) :
    Returns (fun r => Served R placed n r.1 (.fixed r.2.1) r.2.2) (fixedRaw R f m n) := by
  obtain ⟨hroom, hroom_le, hdvd⟩ := toNat_room hpos hle
  obtain ⟨hused, hbase, hcap⟩ : f.used.toNat ≤ f.len.toNat ∧ 1024 ≤ f.base.toNat ∧
      f.base.toNat + f.len.toNat ≤ 2 ^ 31 := h.bounds (e := ⟨f.base.toNat, f.len.toNat⟩) rfl
  rw [fixedRaw]
  refine returns_bind (Q := fun _ => fits f n = true) (returns_require fun hfits => hfits)
    fun _ hfits => ?_
  have hsub := toNat_sub_of_le (x := f.len) (y := f.used) hused
  rw [fits, sle_iff (by omega) (by omega), hsub] at hfits
  have hp := toNat_add_of_lt (x := f.base) (y := f.used) (by omega)
  have h8 : (8#32).toNat = 8 := rfl
  have hwords : ((round8 n).sdiv 8#32).toNat = (round8 n).toNat / 8 := by
    rw [toNat_sdiv (by omega) (by decide), h8]
  dsimp only
  refine returns_bind (zero_returns h.cursorOk (by omega) (by omega) (by omega)) fun m' hm' => ?_
  obtain ⟨hc', hcur, -⟩ := hm'
  have hadd := toNat_add_of_lt (x := f.used) (y := round8 n) (by omega)
  exact h.serve 0 rfl hpos hle (by dsimp only [Region.used]; omega) hp rfl ⟨_, rfl, rfl⟩ rfl hadd
    trivial hc' hcur

/-- **Giving a block back** to a fixed buffer. -/
theorem fixedFree_filled {f : Fixed} {bs : List Placed} {p : Placed}
    (h : Filled R m ((Region.fixed f).bump bs)) (hp : p ∈ bs)
    (hroom : (round8 (BitVec.ofNat 32 p.size)).toNat = p.room) :
    Filled R m ((Region.fixed (fixedFree f (BitVec.ofNat 32 p.addr) (BitVec.ofNat 32 p.size))).bump
      (bs.erase p)) := by
  obtain ⟨hused, hbase, hcap⟩ : f.used.toNat ≤ f.len.toNat ∧ 1024 ≤ f.base.toNat ∧
      f.base.toNat + f.len.toNat ≤ 2 ^ 31 := h.bounds (e := ⟨f.base.toNat, f.len.toNat⟩) rfl
  obtain ⟨l, l', -, hbs, herase⟩ := List.exists_erase_eq hp
  obtain ⟨hsize, hpos, hcur, e, he, hlo, hhi, hmark⟩ := h.ok.holds p hp
  have hcur0 : p.extent = 0 := Nat.le_zero.mp hcur
  rw [hcur0] at he
  obtain rfl : (⟨f.base.toNat, f.len.toNat⟩ : Extent) = e := Option.some_injective _ he
  replace hmark : p.addr + p.room ≤ f.base.toNat + f.used.toNat := hmark hcur0
  have haddr : (BitVec.ofNat 32 p.addr + round8 (BitVec.ofNat 32 p.size)).toNat = p.addr + p.room := by
    rw [BitVec.toNat_add, hroom, BitVec.toNat_ofNat]
    omega
  have hend := toNat_add_of_lt (x := f.base) (y := f.used) (by omega)
  rw [fixedFree]
  by_cases hlast : BitVec.ofNat 32 p.addr + round8 (BitVec.ofNat 32 p.size) = f.base + f.used
  · rw [if_pos hlast]
    have hlast' : p.addr + p.room = f.base.toNat + f.used.toNat := by
      rw [← haddr, hlast, hend]
    have hsub : (f.used - round8 (BitVec.ofNat 32 p.size)).toNat = f.used.toNat - p.room := by
      rw [toNat_sub_of_le (by rw [hroom]; dsimp only at hlo; omega), hroom]
    have hrewind := h.ok.rewind (e := ⟨f.base.toNat, f.len.toNat⟩) hbs rfl hcur0 hlast'
    refine ⟨h.cursorOk, h.low, h.lies, ?_⟩
    rw [herase, Region.bump, Region.used, hsub]
    exact hrewind
  · rw [if_neg hlast]
    exact ⟨h.cursorOk, h.low, h.lies, h.ok.forget List.erase_sublist⟩

/-! ### Fast arenas -/

/-- The loop of `fast_raw` after it found a block: the chunk had room for it, or the sum wrapped. -/
structure FastFound (R : Runtime) (placed : List Placed) (size : BitVec 32) (s : FastState) : Prop where
  found : s.found ≠ -1#32
  from_ : ∃ f c, Filled R s.mem ((Region.fastArena f).bump placed) ∧ (Region.fastArena f).Chunked ∧
    f.chunks[f.current]? = some c ∧ s.found.toNat = c.base.toNat + f.used.toNat ∧
    (f.used + size).sle c.cap = true ∧ s.fast = { f with used := f.used + size }

theorem fastLoop_returns {size : BitVec 32} (hlt : size.toNat < 2 ^ 31) (hdvd : 8 ∣ size.toNat)
    (fuel : Nat) {f : Fast} (hfilled : Filled R m ((Region.fastArena f).bump placed))
    (hchunked : (Region.fastArena f).Chunked) :
    Returns (FastFound R placed size) (iterate (fastRound R size) fuel ⟨-1#32, f, m⟩) := by
  refine iterate_returns
    (fun s => (s.found = -1#32 ∧ Filled R s.mem ((Region.fastArena s.fast).bump placed) ∧
      (Region.fastArena s.fast).Chunked) ∨ FastFound R placed size s) _ ?_ fuel _
    (.inl ⟨rfl, hfilled, hchunked⟩)
  rintro ⟨found, f, m⟩ (⟨rfl, h, hchunked⟩ | hfound)
  · dsimp only at h hchunked
    have hcurrent := h.ok.lt_length
    simp only [Region.bump, Region.extents, Region.current, List.length_map] at hcurrent
    obtain ⟨c, hc⟩ : ∃ c, f.chunks[f.current]? = some c := ⟨_, List.getElem?_eq_getElem hcurrent⟩
    have he : ((Region.fastArena f).bump placed).extents[f.current]? = some (extentOf c) := by
      change (f.chunks.map extentOf)[f.current]? = _
      rw [List.getElem?_map, hc]
      rfl
    obtain ⟨hused, hbase, hcap⟩ : f.used.toNat ≤ c.cap.toNat ∧ 1024 ≤ c.base.toNat ∧
        c.base.toNat + c.cap.toNat ≤ 2 ^ 31 := h.bounds he
    rw [fastRound, if_pos rfl]
    dsimp only
    rw [hc]
    change Returns _ (if (f.used + size).sle c.cap = true then _ else _)
    split
    · rename_i hroom
      have hat := toNat_add_of_lt (x := c.base) (y := f.used) (by omega)
      refine .inr ⟨fun heq => ?_, f, c, h, hchunked, hc, hat, hroom, rfl⟩
      have hone : (-1#32).toNat = 4294967295 := rfl
      dsimp only at heq
      rw [heq, hone] at hat
      omega
    · -- the arena goes on: the chunk after this one is there, or it is taken now
      split
      · rename_i hlast
        have hsize : (if f.chunkSize.slt size then size else f.chunkSize).toNat < 2 ^ 31 ∧
            8 ∣ (if f.chunkSize.slt size then size else f.chunkSize).toNat := by
          split
          · exact ⟨hlt, hdvd⟩
          · exact ⟨hchunked.2, hchunked.1⟩
        refine returns_bind (newChunk_returns h.cursorOk h.low hsize.1 hsize.2) fun r hr => ?_
        obtain ⟨c', m'⟩ := r
        obtain ⟨ht', -, -, hbase', hc', -⟩ := hr
        have hnext := (h.append ht' hbase' hc').next (by
          simp only [Region.bump, Region.extents, Region.current, List.length_append, List.length_map,
            List.length_singleton]
          omega)
        refine .inl ⟨rfl, ?_, hchunked⟩
        simp only [Region.bump, Region.extents, List.map_append, List.map_singleton]
        exact hnext
      · rename_i hnotLast
        have hnext := h.next (by
          simp only [Region.bump, Region.extents, Region.current, List.length_map]
          omega)
        exact .inl ⟨rfl, hnext, hchunked⟩
  · rw [fastRound, if_neg hfound.found]
    exact hfound

theorem fastRaw_returns {f : Fast} (h : Filled R m ((Region.fastArena f).bump placed))
    (hchunked : (Region.fastArena f).Chunked) (hpos : 0 < n.toNat) (hle : n.toNat ≤ 2147483640)
    (fuel : Nat) :
    Returns (fun r => Served R placed n r.1 (.fastArena r.2.1) r.2.2) (fastRaw R fuel f m n) := by
  obtain ⟨hroom, hroom_le, hdvd⟩ := toNat_room hpos hle
  rw [fastRaw]
  refine returns_bind (Q := fun _ => True) (returns_require fun _ => trivial) fun _ _ => ?_
  dsimp only
  refine returns_bind (fastLoop_returns (by omega) hdvd fuel h hchunked) fun s hs => ?_
  obtain ⟨-, f', c, h', hchunked', hc, hfound, hsle, hfast⟩ := hs
  have he : ((Region.fastArena f').bump placed).extents[f'.current]? = some (extentOf c) := by
    change (f'.chunks.map extentOf)[f'.current]? = _
    rw [List.getElem?_map, hc]
    rfl
  obtain ⟨hused, hbase, hcap⟩ : f'.used.toNat ≤ c.cap.toNat ∧ 1024 ≤ c.base.toNat ∧
      c.base.toNat + c.cap.toNat ≤ 2 ^ 31 := h'.bounds he
  have h8 : (8#32).toNat = 8 := rfl
  have hwords : ((round8 n).sdiv 8#32).toNat = (round8 n).toNat / 8 := by
    rw [toNat_sdiv (by omega) (by decide), h8]
  refine returns_bind (zero_returns h'.cursorOk (by omega) (by omega) (by omega)) fun m' hm' => ?_
  obtain ⟨hc', hcur, hin⟩ := hm'
  have hend := hin (by omega)
  have hfit := fits_of_sle c.base.toNat rfl rfl rfl hsle (by omega) (by omega) (by omega)
  have hadd := toNat_add_of_lt (x := f'.used) (y := round8 n) (by omega)
  have hserved : Served R placed n s.found (.fastArena { f' with used := f'.used + round8 n }) m' :=
    h'.serve 0 hc hpos hle (by dsimp only [Region.used]; omega) hfound rfl ⟨c, hc, rfl⟩ rfl
      hadd hchunked' hc' hcur
  rw [← hfast] at hserved
  exact hserved

theorem fastReset_returns {f : Fast} (h : Filled R m ((Region.fastArena f).bump placed)) :
    Returns (fun r => Filled R r.2 ((Region.fastArena r.1).bump []) ∧ r.1.chunkSize = f.chunkSize)
      (fastReset R f m) := by
  rw [fastReset]
  refine returns_bind (Q := fun r => Gen.fresh R m = done r) (returns_iff.mpr fun _ h => h) fun r hr => ?_
  obtain ⟨g, m'⟩ := r
  obtain ⟨-, hc', hcur, -⟩ := StdArena.fresh_keeps h.cursorOk hr
  have hframe := h.frame hc' (Nat.le_of_eq (congrArg BitVec.toNat hcur.symm))
  exact ⟨⟨hc', hframe.low, hframe.lies, h.ok.clear⟩, rfl⟩

/-! ### Arenas -/

/-- The loop of `raw` after it found a block: the chunk had room for it, or the sum wrapped. -/
structure RawFound (R : Runtime) (placed : List Placed) (size : BitVec 32) (s : StdArena.RawState) :
    Prop where
  found : s.found ≠ -1#32
  from_ : ∃ a c, Filled R s.mem ((Region.arena a).bump placed) ∧ (Region.arena a).Chunked ∧
    a.chunks[a.current]? = some c ∧ s.found.toNat = c.base.toNat + a.used.toNat + 8 ∧
    (a.used + size).sle c.cap = true ∧ s.arena = { a with used := a.used + size }

theorem rawLoop_returns {size : BitVec 32} (hlt : size.toNat < 2 ^ 31) (hdvd : 8 ∣ size.toNat)
    (fuel : Nat) {a : Arena} (hfilled : Filled R m ((Region.arena a).bump placed))
    (hchunked : (Region.arena a).Chunked) :
    Returns (RawFound R placed size) (iterate (StdArena.rawRound R size) fuel ⟨-1#32, a, m⟩) := by
  refine iterate_returns
    (fun s => (s.found = -1#32 ∧ Filled R s.mem ((Region.arena s.arena).bump placed) ∧
      (Region.arena s.arena).Chunked) ∨ RawFound R placed size s) _ ?_ fuel _
    (.inl ⟨rfl, hfilled, hchunked⟩)
  rintro ⟨found, a, m⟩ (⟨rfl, h, hchunked⟩ | hfound)
  · dsimp only at h hchunked
    have hcurrent := h.ok.lt_length
    simp only [Region.bump, Region.extents, Region.current, List.length_map] at hcurrent
    obtain ⟨c, hc⟩ : ∃ c, a.chunks[a.current]? = some c := ⟨_, List.getElem?_eq_getElem hcurrent⟩
    have he : ((Region.arena a).bump placed).extents[a.current]? = some (extentOf c) := by
      change (a.chunks.map extentOf)[a.current]? = _
      rw [List.getElem?_map, hc]
      rfl
    obtain ⟨hused, hbase, hcap⟩ : a.used.toNat ≤ c.cap.toNat ∧ 1024 ≤ c.base.toNat ∧
        c.base.toNat + c.cap.toNat ≤ 2 ^ 31 := h.bounds he
    rw [StdArena.rawRound, if_pos rfl]
    dsimp only
    rw [hc]
    change Returns _ (if (a.used + size).sle c.cap = true then _ else _)
    split
    · rename_i hroom
      have h8 : (8#32).toNat = 8 := rfl
      have hat : (c.base + (a.used + 8#32)).toNat = c.base.toNat + a.used.toNat + 8 := by
        rw [BitVec.toNat_add, BitVec.toNat_add, h8]
        omega
      refine returns_bind (store32_keeps h.cursorOk _ size) fun m' hm' => ?_
      obtain ⟨hc', hcur⟩ := hm'
      have hframe := h.frame hc' (Nat.le_of_eq (congrArg BitVec.toNat hcur.symm))
      refine .inr ⟨fun heq => ?_, a, c, hframe, hchunked, hc, hat, hroom, rfl⟩
      have hone : (-1#32).toNat = 4294967295 := rfl
      dsimp only at heq
      rw [heq, hone] at hat
      omega
    · -- the arena goes on: the chunk after this one is there, or it is taken now
      split
      · rename_i hlast
        have hsize : (if a.chunkSize.slt size then size else a.chunkSize).toNat < 2 ^ 31 ∧
            8 ∣ (if a.chunkSize.slt size then size else a.chunkSize).toNat := by
          split
          · exact ⟨hlt, hdvd⟩
          · exact ⟨hchunked.2, hchunked.1⟩
        refine returns_bind (newChunk_returns h.cursorOk h.low hsize.1 hsize.2) fun r hr => ?_
        obtain ⟨c', m'⟩ := r
        obtain ⟨ht', -, -, hbase', hc', -⟩ := hr
        have hget : (a.chunks ++ [c'])[a.current]? = some c := by
          rw [List.getElem?_append_left hcurrent]
          exact hc
        have hnext := (h.append ht' hbase' hc').next (by
          simp only [Region.bump, Region.extents, Region.current, List.length_append, List.length_map,
            List.length_singleton]
          omega)
        refine .inl ⟨rfl, ?_, hchunked⟩
        simp only [Region.bump, Region.extents]
        rw [map_extentOf_set a.used hget, List.map_append, List.map_singleton]
        exact hnext
      · rename_i hnotLast
        have hnext := h.next (by
          simp only [Region.bump, Region.extents, Region.current, List.length_map]
          omega)
        refine .inl ⟨rfl, ?_, hchunked⟩
        simp only [Region.bump, Region.extents]
        rw [map_extentOf_set a.used hc]
        exact hnext
  · rw [StdArena.rawRound, if_neg hfound.found]
    exact hfound

theorem arenaRaw_returns {a : Arena} (h : Filled R m ((Region.arena a).bump placed))
    (hchunked : (Region.arena a).Chunked) (hpos : 0 < n.toNat) (hle : n.toNat ≤ 2147483632) (fuel : Nat) :
    Returns (fun r => Served R placed n r.1 (.arena r.2.1) r.2.2) (StdArena.raw R fuel a m n) := by
  obtain ⟨hroom, -, hdvd⟩ := toNat_room hpos (by omega)
  have hround := toNat_round8 (n := n) (by omega)
  have h8 : (8#32).toNat = 8 := rfl
  have h1 : (1#32).toNat = 1 := rfl
  have hsize := toNat_add_of_lt (x := round8 n) (y := 8#32) (by omega)
  rw [h8] at hsize
  have hdvd' : 8 ∣ (round8 n + 8#32).toNat := by
    rw [hsize]
    exact Nat.dvd_add hdvd ⟨1, rfl⟩
  rw [StdArena.raw]
  refine returns_bind (Q := fun _ => True) (returns_require fun _ => trivial) fun _ _ => ?_
  dsimp only
  refine returns_bind (rawLoop_returns (by omega) hdvd' fuel h hchunked) fun s hs => ?_
  obtain ⟨-, a', c, h', hchunked', hc, hfound, hsle, harena⟩ := hs
  have he : ((Region.arena a').bump placed).extents[a'.current]? = some (extentOf c) := by
    change (a'.chunks.map extentOf)[a'.current]? = _
    rw [List.getElem?_map, hc]
    rfl
  obtain ⟨hused, hbase, hcap⟩ : a'.used.toNat ≤ c.cap.toNat ∧ 1024 ≤ c.base.toNat ∧
      c.base.toNat + c.cap.toNat ≤ 2 ^ 31 := h'.bounds he
  have hdiv : ((round8 n + 8#32).sdiv 8#32).toNat = (round8 n).toNat / 8 + 1 := by
    rw [toNat_sdiv (by omega) (by decide), h8]
    omega
  have hwords : ((round8 n + 8#32).sdiv 8#32 - 1#32).toNat = (round8 n).toNat / 8 := by
    rw [toNat_sub_of_le (by omega)]
    omega
  refine returns_bind (zero_returns h'.cursorOk (by omega) (by omega) (by omega)) fun m' hm' => ?_
  obtain ⟨hc', hcur, hin⟩ := hm'
  have hend := hin (by omega)
  have hfit := fits_of_sle c.base.toNat rfl hsize rfl hsle (by omega) (by omega) (by omega)
  have hadd := toNat_add_of_lt (x := a'.used) (y := round8 n + 8#32) (by omega)
  have hserved : Served R placed n s.found (.arena { a' with used := a'.used + (round8 n + 8#32) }) m' :=
    h'.serve 8 hc hpos (by omega) (by dsimp only [Region.used]; omega) hfound rfl ⟨c, hc, rfl⟩
      rfl (by dsimp only [Region.used]; omega) hchunked' hc' hcur
  rw [← harena] at hserved
  exact hserved

/-- What a reset keeps of the arena it is in the middle of. -/
structure Kept (R : Runtime) (m : Mem) (extents : List Extent) (chunks : List Chunk) (m' : Mem) : Prop where
  cursorOk : CursorOk R.host m'
  cursor : Compiler.Alloc.cursor m' = Compiler.Alloc.cursor m
  extents : chunks.map extentOf = extents

theorem killBlocks_returns {c : Chunk} (hc : CursorOk R.host m) (fuel : Nat) :
    Returns (fun r => extentOf r.1 = extentOf c ∧ CursorOk R.host r.2.mem ∧ cursor r.2.mem = cursor m)
      (StdArena.killBlocks R fuel m c) := by
  rw [StdArena.killBlocks]
  refine returns_bind (Q := fun w => CursorOk R.host w.mem ∧ cursor w.mem = cursor m)
    (iterate_returns (fun w => CursorOk R.host w.mem ∧ cursor w.mem = cursor m) _ ?_ fuel _ ⟨hc, rfl⟩)
    fun w hw => ⟨rfl, hw⟩
  rintro w ⟨hw, hcur⟩
  rw [StdArena.killRound]
  split
  · refine returns_bind (store32_keeps hw (w.q + 8#32) Gen.DEAD) fun m' hm' => ?_
    obtain ⟨hc', hcur'⟩ := hm'
    refine returns_bind_any fun size => ?_
    exact ⟨hc', hcur'.trans hcur⟩
  · exact ⟨hw, hcur⟩

theorem arenaReset_returns {a : Arena} (h : Filled R m ((Region.arena a).bump placed)) (fuel : Nat) :
    Returns (fun r => Filled R r.2.1 ((Region.arena r.1).bump []) ∧ r.1.chunkSize = a.chunkSize)
      (StdArena.reset R fuel a m) := by
  rw [StdArena.reset]
  refine returns_bind (Q := fun c => a.chunks[a.current]? = some c)
    ((sat_ofOption fun _ h => h).returns) fun c hc => ?_
  dsimp only
  have hround : ∀ s : StdArena.ResetState, Kept R m (a.chunks.map extentOf) s.chunks s.mem →
      Returns (Sum.elim (fun s' => Kept R m (a.chunks.map extentOf) s'.chunks s'.mem)
        fun s' => Kept R m (a.chunks.map extentOf) s'.chunks s'.mem)
        (StdArena.resetRound R fuel a.current s) := by
    rintro s ⟨hc', hcur, hextents⟩
    rw [StdArena.resetRound]
    refine returns_bind (Q := fun c => s.chunks[s.k]? = some c)
      ((sat_ofOption fun _ h => h).returns) fun c hck => ?_
    refine returns_bind (killBlocks_returns hc' fuel) fun r hr => ?_
    obtain ⟨c', w⟩ := r
    obtain ⟨hsame, hc'', hcur'⟩ := hr
    have hkept : Kept R m (a.chunks.map extentOf) (s.chunks.set s.k c') w.mem := by
      refine ⟨hc'', hcur'.trans hcur, ?_⟩
      rw [← hextents, List.map_set, hsame, ← List.map_set]
      exact map_extentOf_set c.used hck
    dsimp only
    split
    · exact hkept
    · exact hkept
  refine returns_bind (iterate_returns _ _ hround fuel _ ⟨h.cursorOk, rfl, map_extentOf_set a.used hc⟩)
    fun s hs => ?_
  obtain ⟨hc', hcur, hextents⟩ := hs
  refine returns_bind (Q := fun r => Gen.fresh R s.mem = done r) (returns_iff.mpr fun _ h => h)
    fun r hr => ?_
  obtain ⟨g, m'⟩ := r
  obtain ⟨-, hc'', hcur', -⟩ := StdArena.fresh_keeps hc' hr
  have hframe := h.frame hc'' (Nat.le_of_eq (congrArg BitVec.toNat (hcur'.trans hcur).symm))
  refine ⟨⟨hc'', hframe.low, ?_, ?_⟩, rfl⟩
  · intro e he
    change e ∈ s.chunks.map extentOf at he
    rw [hextents] at he
    exact hframe.lies e he
  · have hclear := h.ok.clear
    simp only [Region.bump, Region.extents, hextents]
    exact hclear

/-! ### Requests whose sizes wrap -/

/-- A sum with a size that wrapped is negative, and so fits any chunk. -/
theorem sle_of_wrapped (used size cap : BitVec 32) (hsize : 2 ^ 31 ≤ size.toNat)
    (hsum : used.toNat + size.toNat < 2 ^ 32) (hcap : cap.toNat < 2 ^ 31) :
    (used + size).sle cap = true ∧ (used + size).toInt < 0 := by
  have hadd := toNat_add_of_lt hsum
  have hneg : (used + size).toInt < 0 := by
    rw [BitVec.toInt_eq_toNat_cond, if_neg (by omega)]
    omega
  refine ⟨?_, hneg⟩
  rw [BitVec.sle_eq_decide, decide_eq_true_eq, toInt_eq_toNat hcap]
  omega

theorem fixedRaw_wraps {f : Fixed} (h : Filled R m ((Region.fixed f).bump placed))
    (hsize : (round8 n).toNat = 2 ^ 31) :
    Returns (fun r => r.2.1.used.toInt < 0) (fixedRaw R f m n) := by
  obtain ⟨hused, hbase, hcap⟩ : f.used.toNat ≤ f.len.toNat ∧ 1024 ≤ f.base.toNat ∧
      f.base.toNat + f.len.toNat ≤ 2 ^ 31 := h.bounds (e := ⟨f.base.toNat, f.len.toNat⟩) rfl
  rw [fixedRaw]
  refine returns_bind_any fun _ => ?_
  refine returns_bind_any fun m' => ?_
  exact (sle_of_wrapped f.used (round8 n) f.len (by omega) (by omega) (by omega)).2

theorem fastRaw_wraps {f : Fast} (h : Filled R m ((Region.fastArena f).bump placed))
    (hsize : (round8 n).toNat = 2 ^ 31) (fuel : Nat) :
    Returns (fun r => r.2.1.used.toInt < 0) (fastRaw R fuel f m n) := by
  obtain ⟨e, he, -⟩ := h.ok.current
  obtain ⟨c, hc, rfl⟩ : ∃ c, f.chunks[f.current]? = some c ∧ extentOf c = e := by
    have hext : (Region.fastArena f).extents[(Region.fastArena f).current]? = some e := he
    rw [Region.extents_filling] at hext
    exact Option.map_eq_some_iff.mp hext
  obtain ⟨hused, hbase, hcap⟩ : f.used.toNat ≤ c.cap.toNat ∧ 1024 ≤ c.base.toNat ∧
      c.base.toNat + c.cap.toNat ≤ 2 ^ 31 := h.bounds he
  obtain ⟨hsle, hneg⟩ := sle_of_wrapped f.used (round8 n) c.cap (by omega)
    (by omega) (by omega)
  have hat := toNat_add_of_lt (x := c.base) (y := f.used) (by omega)
  have hone : (-1#32).toNat = 4294967295 := rfl
  rw [fastRaw]
  refine returns_bind_any fun _ => ?_
  dsimp only
  refine returns_bind (Q := fun s => s.fast = { f with used := f.used + round8 n })
    (iterate_returns (fun s => (s.found = -1#32 ∧ s.fast = f) ∨
      (s.found ≠ -1#32 ∧ s.fast = { f with used := f.used + round8 n })) _ ?_ fuel _ (.inl ⟨rfl, rfl⟩))
    fun s hs => ?_
  · rintro ⟨found, f', m'⟩ (⟨rfl, rfl⟩ | ⟨hfound, hfast⟩)
    · rw [fastRound, if_pos rfl]
      dsimp only
      rw [hc]
      change Returns _ (if (f'.used + round8 n).sle c.cap = true then _ else _)
      rw [if_pos hsle]
      refine .inr ⟨fun heq => ?_, rfl⟩
      dsimp only at heq
      rw [heq, hone] at hat
      omega
    · rw [fastRound, if_neg hfound]
      exact hfast
  · refine returns_bind_any fun m' => ?_
    rw [pure_eq, returns_done, hs]
    exact hneg

theorem arenaRaw_wraps {a : Arena} (h : Filled R m ((Region.arena a).bump placed))
    (hsize : 2 ^ 31 ≤ (round8 n + 8#32).toNat) (hle : (round8 n + 8#32).toNat ≤ 2 ^ 31 + 8) (fuel : Nat) :
    Returns (fun r => r.2.1.used.toInt < 0) (StdArena.raw R fuel a m n) := by
  obtain ⟨e, he, -⟩ := h.ok.current
  obtain ⟨c, hc, rfl⟩ : ∃ c, a.chunks[a.current]? = some c ∧ extentOf c = e := by
    have hext : (Region.arena a).extents[(Region.arena a).current]? = some e := he
    rw [Region.extents_filling] at hext
    exact Option.map_eq_some_iff.mp hext
  obtain ⟨hused, hbase, hcap⟩ : a.used.toNat ≤ c.cap.toNat ∧ 1024 ≤ c.base.toNat ∧
      c.base.toNat + c.cap.toNat ≤ 2 ^ 31 := h.bounds he
  obtain ⟨hsle, hneg⟩ := sle_of_wrapped a.used (round8 n + 8#32) c.cap hsize
    (by omega) (by omega)
  have h8 : (8#32).toNat = 8 := rfl
  have hat : (c.base + (a.used + 8#32)).toNat = c.base.toNat + a.used.toNat + 8 := by
    rw [BitVec.toNat_add, BitVec.toNat_add, h8]
    omega
  have hone : (-1#32).toNat = 4294967295 := rfl
  rw [StdArena.raw]
  refine returns_bind_any fun _ => ?_
  dsimp only
  refine returns_bind (Q := fun s => s.arena = { a with used := a.used + (round8 n + 8#32) })
    (iterate_returns (fun s => (s.found = -1#32 ∧ s.arena = a) ∨
      (s.found ≠ -1#32 ∧ s.arena = { a with used := a.used + (round8 n + 8#32) })) _ ?_ fuel _
      (.inl ⟨rfl, rfl⟩))
    fun s hs => ?_
  · rintro ⟨found, a', m'⟩ (⟨rfl, rfl⟩ | ⟨hfound, harena⟩)
    · rw [StdArena.rawRound, if_pos rfl]
      dsimp only
      rw [hc]
      change Returns _ (if (a'.used + (round8 n + 8#32)).sle c.cap = true then _ else _)
      rw [if_pos hsle]
      refine returns_bind_any fun m'' => .inr ⟨fun heq => ?_, rfl⟩
      dsimp only at heq
      rw [heq, hone] at hat
      omega
    · rw [StdArena.rawRound, if_neg hfound]
      exact harena
  · refine returns_bind_any fun m' => ?_
    rw [pure_eq, returns_done, hs]
    exact hneg

end Aipl.StdRegion
