import Aipl.Std.Heap.Invariant

/-! # What one call does to the invariant

* `carve_returns` — a new block lies on bytes nothing else uses.
* `zeroBlock_returns`, `poison_returns` — the loops write the block they are given, and no more.
* `raw_returns`, `freeRaw_returns` — the calls keep the invariant of lists, headers and layout.
-/

namespace Aipl.StdHeap

open Aipl.Lib Aipl.Lib.Outcome Aipl.Std Aipl.Compiler.Alloc

variable {R : Runtime}

/-! ### Carving -/

theorem Core.room_le {h : Heap} {m : Mem} {blocks : List Blk} (hcore : Core R h m blocks) :
    h.room < 2 ^ 31 ∧ h.cur.toNat + h.room ≤ 2 ^ 31 := by
  have hle := hcore.inside
  obtain ⟨hcur, hsize⟩ := CursorOk.toNat_le hcore.cursorOk
  have hge := hcore.cur_ge
  omega

/-- A new chunk: the heap leaves what was left of the old one. -/
theorem Core.newChunk {h : Heap} {m m' : Mem} {blocks : List Blk} {chunk cur : BitVec 32}
    (hcore : Core R h m blocks) (reserved : BitVec 32) (hle : chunk.toNat ≤ 2 ^ 30 + 8)
    (ha : memAlloc R m chunk = done (cur, m')) :
    Core R { h with cur := cur, end_ := cur + chunk, reserved := reserved } m' blocks ∧
      cur + chunk - cur = chunk := by
  have hsub : cur + chunk - cur = chunk := add_sub_cancel_left cur chunk
  refine ⟨?_, hsub⟩
  have hc := hcore.cursorOk
  obtain ⟨rfl, hc', hup, hbyte⟩ := (memAlloc_returns hc (by omega)).of_eq_done ha
  dsimp only at hc' hup hbyte
  have hnz := hc.nonzero
  have hal := hc.aligned
  -- the old blocks lie below the cursor, and the chunk starts there
  have hframe : Core R h m' blocks := by
    refine hcore.frame hc' (by omega) fun b hb x hlo _ => hbyte x ?_
    have hp := hcore.placed b hb
    have := hp.ge
    have := hp.lo_lt_p
    omega
  have hroom : (cursor m + chunk - cursor m).toNat = chunk.toNat := by rw [hsub]
  refine ⟨hframe.cursorOk, hal, .inl (by dsimp only; omega), ?_, fun b hb => ?_, hframe.apart,
    hframe.nodup, hframe.heads, hframe.listed⟩
  · rw [Heap.room, hroom]
    dsimp only
    omega
  · have hp := hframe.placed b hb
    exact ⟨hp.ge, hp.dvd, hp.cls, hp.pos, hp.le, hp.inside, .inl (hcore.placed b hb).inside,
      hp.state, hp.size⟩

/-- A block cut from the front of the chunk, where it fits. -/
theorem Core.cut {h : Heap} {m : Mem} {blocks : List Blk} {c : BitVec 32}
    (hcore : Core R h m blocks) (hdvd : 8 ∣ (classSize c).toNat)
    (hfit : (classSize c).toNat + 8 ≤ h.room) :
    Core R { h with cur := h.cur + (classSize c + 8#32) } m blocks ∧
      Unused { h with cur := h.cur + (classSize c + 8#32) } m blocks (h.cur + 8#32) c := by
  obtain ⟨hroom, hsum⟩ := hcore.room_le
  have hge := hcore.cur_ge
  have hcd := hcore.cur_dvd
  have hin := hcore.inside
  have h8 : (8#32).toNat = 8 := rfl
  have hneed : (classSize c + 8#32).toNat = (classSize c).toNat + 8 := by
    rw [BitVec.toNat_add, h8]
    omega
  have hcur : (h.cur + (classSize c + 8#32)).toNat = h.cur.toNat + ((classSize c).toNat + 8) := by
    rw [BitVec.toNat_add, hneed]
    omega
  have hp : (h.cur + 8#32).toNat = h.cur.toNat + 8 := by
    rw [BitVec.toNat_add, h8]
    omega
  have hleft : (h.end_ - (h.cur + (classSize c + 8#32))).toNat
      = h.room - ((classSize c).toNat + 8) := by
    have hr : h.room = (2 ^ 32 - h.cur.toNat + h.end_.toNat) % 2 ^ 32 := BitVec.toNat_sub _ _
    have := h.end_.isLt
    rw [BitVec.toNat_sub, hcur]
    omega
  have hplaced : ∀ b ∈ blocks, b.hi ≤ h.cur.toNat ∨ h.cur.toNat + h.room ≤ b.lo :=
    fun b hb => (hcore.placed b hb).apart
  refine ⟨⟨hcore.cursorOk, ?_, .inl ?_, ?_, fun b hb => ?_, hcore.apart, hcore.nodup, hcore.heads,
    hcore.listed⟩, ?_, ?_, ?_, ?_, fun b hb => ?_⟩
  · dsimp only
    omega
  · dsimp only
    omega
  · rw [Heap.room, hleft]
    dsimp only
    omega
  · have hp := hcore.placed b hb
    refine ⟨hp.ge, hp.dvd, hp.cls, hp.pos, hp.le, hp.inside, ?_, hp.state, hp.size⟩
    rw [Heap.room, hleft]
    dsimp only
    have := hplaced b hb
    omega
  · omega
  · omega
  · omega
  · left
    dsimp only
    omega
  · have := hplaced b hb
    omega

/-- What stays of the heap while a block is looked for. -/
structure Same (h h' : Heap) : Prop where
  addr : h'.addr = h.addr
  nlive : h'.nlive = h.nlive
  liveBytes : h'.liveBytes = h.liveBytes

/-- **A carved block is new.** -/
theorem carve_returns {h : Heap} {m : Mem} {blocks : List Blk} {c : BitVec 32}
    (hcore : Core R h m blocks) (hsize : (classSize c).toNat ≤ 2 ^ 30)
    (hdvd : 8 ∣ (classSize c).toNat) :
    Returns (fun r => Core R r.2.1 r.2.2 blocks ∧ Unused r.2.1 r.2.2 blocks r.1 c ∧ Same h r.2.1)
      (carve R h m (classSize c)) := by
  have h8 : (8#32).toNat = 8 := rfl
  have hneed : (classSize c + 8#32).toNat = (classSize c).toNat + 8 := by
    rw [BitVec.toNat_add, h8]
    omega
  -- once the chunk has room, the block is cut from it
  have hcut : ∀ (h' : Heap) (m' : Mem), Core R h' m' blocks → Same h h' →
      (classSize c).toNat + 8 ≤ h'.room →
      Core R { h' with cur := h'.cur + (classSize c + 8#32) } m' blocks ∧
        Unused { h' with cur := h'.cur + (classSize c + 8#32) } m' blocks (h'.cur + 8#32) c ∧
        Same h { h' with cur := h'.cur + (classSize c + 8#32) } := by
    intro h' m' hcore' hsame hfit
    obtain ⟨hcut, hunused⟩ := hcore'.cut hdvd hfit
    exact ⟨hcut, hunused, hsame.addr, hsame.nlive, hsame.liveBytes⟩
  rw [carve]
  dsimp only
  split
  · have hchunk : (if CHUNK.slt (classSize c + 8#32) then classSize c + 8#32 else CHUNK).toNat
        ≤ 2 ^ 30 + 8 ∧ (classSize c).toNat + 8
        ≤ (if CHUNK.slt (classSize c + 8#32) then classSize c + 8#32 else CHUNK).toNat := by
      have hC : CHUNK.toNat = 65536 := rfl
      split
      · omega
      · rename_i hlt
        rw [slt_iff (by decide) (by omega)] at hlt
        omega
    generalize (if CHUNK.slt (classSize c + 8#32) then classSize c + 8#32 else CHUNK) = chunk
      at hchunk ⊢
    refine returns_bind (Q := fun r => memAlloc R m chunk = done r)
      (returns_iff.mpr fun _ ha => ha) fun r ha => ?_
    obtain ⟨cur, m'⟩ := r
    obtain ⟨hnew, hroom⟩ := hcore.newChunk (h.reserved + chunk) hchunk.1 ha
    refine hcut _ m' hnew ⟨rfl, rfl, rfl⟩ ?_
    rw [Heap.room]
    dsimp only
    rw [hroom]
    exact hchunk.2
  · rename_i hfit
    refine hcut h m hcore ⟨rfl, rfl, rfl⟩ ?_
    rw [slt_iff hcore.room_le.1 (by omega), hneed] at hfit
    exact Nat.le_of_not_lt hfit

/-! ### The loops -/

theorem toNat_sub_of_le {p k : BitVec 32} (h : k.toNat ≤ p.toNat) :
    (p - k).toNat = p.toNat - k.toNat := by
  have := p.isLt
  rw [BitVec.toNat_sub]
  omega

/-- **The loop of `raw` zeroes the block**, rounded up to 8 bytes, and keeps the rest. -/
theorem zeroBlock_returns {m : Mem} {p n : BitVec 32} (hn : n.toNat ≤ 1879048184)
    (hfit : p.toNat + (round8 n).toNat ≤ 2 ^ 31) :
    Returns (fun m' => Mem.SameOutside p.toNat (p.toNat + (round8 n).toNat) m m' ∧
      ∀ x, p.toNat ≤ x → x < p.toNat + (round8 n).toNat → m'.byte x = 0#8)
      (zeroBlock R m p n) := by
  have hround := toNat_round8 (n := n) (by omega)
  have hdvd := dvd_toNat_round8 n
  have h8 : (8#32).toNat = 8 := rfl
  have hwords : ((round8 n).sdiv 8#32).toNat = (round8 n).toNat / 8 := by
    rw [toNat_sdiv (by omega) (by decide), h8]
  generalize hw : (round8 n).sdiv 8#32 = words at hwords
  rw [zeroBlock, hw]
  refine (zeroLoop_returns (by omega) (by omega)).mono fun m' hm' => ?_
  obtain ⟨hsame, hzero, -⟩ := hm'
  exact ⟨hsame.mono le_rfl (by omega), fun x h₁ h₂ => hzero x h₁ (by omega)⟩

theorem lt_of_slt_of_le {x y : BitVec 32} (h : x.slt y = true) (hle : x.toNat ≤ y.toNat) :
    x.toNat < y.toNat := by
  rcases Nat.lt_or_ge x.toNat y.toNat with hlt | hge
  · exact hlt
  · obtain rfl : x = y := BitVec.eq_of_toNat_eq (Nat.le_antisymm hle hge)
    rw [BitVec.slt_eq_decide, decide_eq_true_eq] at h
    exact absurd h (lt_irrefl _)

/-- **The loop of `free_raw` writes the block**, and keeps the rest. -/
theorem poison_returns {m : Mem} {p n : BitVec 32} (hp : 8 ∣ p.toNat) (h8 : 8 ≤ (round8 n).toNat)
    (hfit : p.toNat + (round8 n).toNat ≤ 2 ^ 31) (fuel : Nat) :
    Returns (Mem.SameOutside p.toNat (p.toNat + (round8 n).toNat) m)
      (iterate (poisonWord R (p + round8 n)) fuel (p + 8#32, m)) := by
  have hdvd := dvd_toNat_round8 n
  have hc : (8#32).toNat = 8 := rfl
  have hend : (p + round8 n).toNat = p.toNat + (round8 n).toNat := by
    rw [BitVec.toNat_add]
    omega
  have hstart : (p + 8#32).toNat = p.toNat + 8 := by
    rw [BitVec.toNat_add, hc]
    omega
  refine iterate_returns
    (fun s => 8 ∣ s.1.toNat ∧ p.toNat ≤ s.1.toNat ∧ s.1.toNat ≤ (p + round8 n).toNat ∧
      Mem.SameOutside p.toNat (p.toNat + (round8 n).toNat) m s.2) _ ?_ fuel (p + 8#32, m)
    ⟨by dsimp only; omega, by dsimp only; omega, by dsimp only; omega, Mem.SameOutside.refl _ _ m⟩
  rintro ⟨q, m'⟩ ⟨hq, hge, hle, hsame⟩
  dsimp only at hq hge hle hsame
  rw [poisonWord]
  dsimp only
  split
  · rename_i hlt
    have hlt' := lt_of_slt_of_le hlt hle
    have hnext : (q + 8#32).toNat = q.toNat + 8 := by
      rw [BitVec.toNat_add, hc]
      omega
    refine returns_bind (store64_sat R m' q POISON).returns fun m'' hm'' => ?_
    obtain ⟨-, rfl⟩ := hm''
    refine ⟨by dsimp only; omega, by dsimp only; omega, by dsimp only; omega, hsame.trans ?_⟩
    exact Mem.sameOutside_write hge (by omega)
  · exact hsame

/-! ### `raw` -/

/-- What a call of `raw` leaves: the block is new among the others, and zero. -/
structure Served (R : Runtime) (h : Heap) (blocks : List Blk) (n : BitVec 32)
    (r : BitVec 32 × Heap × Mem) (c : BitVec 32) : Prop where
  cls : HasClass n c
  core : Core R r.2.1 r.2.2 (⟨r.1, n, c, true⟩ :: blocks)
  zero : ∀ x, r.1.toNat ≤ x → x < r.1.toNat + n.toNat → r.2.2.byte x = 0#8
  nlive : r.2.1.nlive = h.nlive + 1#32
  liveBytes : r.2.1.liveBytes = h.liveBytes + n

/-- The end of `raw`, once it has a block: its header, its bytes, the counters. -/
theorem fill_returns {h h₁ : Heap} {m : Mem} {blocks : List Blk} {p n c : BitVec 32}
    (hcore : Core R h₁ m blocks) (hu : Unused h₁ m blocks p c) (hsame : Same h h₁)
    (hcls : HasClass n c) (hpos : 0 < n.toNat) (hle : n.toNat ≤ 1879048184) :
    Returns (fun r => r.1 = p ∧ Served R h blocks n r c) (do
      let m ← store32 R m (p - 8#32) (h₁.addr ^^^ LIVE)
      let m ← store32 R m (p - 4#32) n
      let m ← zeroBlock R m p n
      let h := { h₁ with nlive := h₁.nlive + 1#32, liveBytes := h₁.liveBytes + n }
      pure (p, atomicUnlock h, m)) := by
  have hge := hu.ge
  have hfits := hcls.fits hle
  have hin : p.toNat + (classSize c).toNat ≤ 2 ^ 31 := by
    obtain ⟨hcur, hsize⟩ := CursorOk.toNat_le hcore.cursorOk
    exact hu.inside.trans (hcur.trans hsize)
  have hround := toNat_round8 (n := n) (by omega)
  have hsize := hfits.le
  have h8 : (p - 8#32).toNat = p.toNat - 8 := toNat_sub_of_le (by change 8 ≤ p.toNat; omega)
  have h4 : (p - 4#32).toNat = p.toNat - 4 := toNat_sub_of_le (by change 4 ≤ p.toNat; omega)
  refine returns_bind (store32_sat R m _ _).returns fun m₁ h₁' => ?_
  obtain ⟨-, rfl⟩ := h₁'
  refine returns_bind (store32_sat R _ _ _).returns fun m₂ h₂' => ?_
  obtain ⟨-, rfl⟩ := h₂'
  refine returns_bind (zeroBlock_returns hle (by omega)) fun m₃ hm₃ => ?_
  obtain ⟨hsame₃, hzero⟩ := hm₃
  rw [h8, h4] at hsame₃
  have hstores : Mem.SameOutside (p.toNat - 8) (p.toNat + (classSize c).toNat) m
      ((m.setWord32 (p.toNat - 8) (h₁.addr ^^^ LIVE)).setWord32 (p.toNat - 4) n) :=
    (Mem.sameOutside_write le_rfl (by omega)).trans (Mem.sameOutside_write (by omega) (by omega))
  have hstate : m₃.word32 (p.toNat - 8) = h₁.addr ^^^ LIVE := by
    rw [hsame₃.word32 (.inl (by omega)), Mem.setWord32, Mem.word32_write_disjoint (.inl (by omega)),
      Mem.word32_setWord32_self]
  have hsz : m₃.word32 (p.toNat - 4) = n := by
    rw [hsame₃.word32 (.inl (by omega)), Mem.word32_setWord32_self]
  have hcore₃ := hcore.addLive hu (hstores.trans (hsame₃.mono (by omega) (by omega))) hcls hpos hle
    hstate hsz
  refine ⟨rfl, hcls, hcore₃.congr rfl rfl rfl rfl, fun x hx₁ hx₂ => ?_, ?_, ?_⟩
  · exact hzero x hx₁ (lt_of_lt_of_le hx₂ (by dsimp only; omega))
  · change h₁.nlive + 1#32 = h.nlive + 1#32
    rw [hsame.nlive]
  · change h₁.liveBytes + n = h.liveBytes + n
    rw [hsame.liveBytes]

theorem classOf_hasClass (fuel : Nat) (n : BitVec 32) : Returns (HasClass n) (classOf fuel n) :=
  returns_iff.mpr fun _ h => ⟨fuel, h⟩

/-- **A call of `raw`** hands out a block of no live block, or stops. -/
theorem raw_returns {h : Heap} {m : Mem} {blocks : List Blk} (hcore : Core R h m blocks)
    (fuel : Nat) (n : BitVec 32) :
    Returns (fun r => (∀ b ∈ blocks, b.p = r.1 → b.live = false) ∧
      ∃ c, Served R h (others blocks r.1) n r c) (raw R fuel h m n) := by
  rw [raw]
  refine returns_bind (Q := fun _ => 0 < n.toInt) (returns_require fun hn => ?_) fun _ hpos => ?_
  · rw [BitVec.slt_eq_decide, decide_eq_true_eq] at hn
    exact hn
  refine returns_bind (Q := fun _ => n.toInt ≤ 1879048184) (returns_require fun hn => ?_)
    fun _ hmax => ?_
  · rw [BitVec.sle_eq_decide, decide_eq_true_eq] at hn
    exact hn
  have hn : 0 < n.toNat ∧ n.toNat ≤ 1879048184 := by
    have := n.isLt
    rw [BitVec.toInt_eq_toNat_cond] at hpos hmax
    split at hpos <;> split at hmax <;> omega
  refine returns_bind (Q := fun h' => h' = { h with lock := 1#32 }) ?_ fun h' hlock => ?_
  · rw [atomicLock]
    split
    · rfl
    · trivial
  subst hlock
  refine returns_bind (classOf_hasClass fuel n) fun c hcls => ?_
  have hfits := hcls.fits hn.2
  refine returns_bind (Q := fun p => h.heads[c.toNat]? = some p) ?_ fun p hp => ?_
  · rw [arrGet]
    exact (sat_ofOption fun _ h => h).returns
  dsimp only
  split
  · -- the first block of the class's list
    rename_i hne
    obtain ⟨⟨b, hb, rfl, hfree, rfl⟩, hpop⟩ := hcore.pop hfits.class_lt hp hne
    refine returns_bind_any fun _ => ?_
    refine returns_bind (load32_sat m b.p).returns fun link hlink => ?_
    obtain ⟨-, rfl⟩ := hlink
    refine returns_bind (Q := fun heads => heads = h.heads.set b.c.toNat (m.word32 b.p.toNat)) ?_
      fun heads hheads => ?_
    · rw [arrSet]
      split
      · rfl
      · trivial
    subst hheads
    have hu := hcore.unused hb
    have hcore' : Core R
        { h with lock := 1#32, heads := h.heads.set b.c.toNat (m.word32 b.p.toNat) } m
        (others blocks b.p) := hpop.congr rfl rfl rfl rfl
    refine (fill_returns (h := h) hcore' ⟨hu.ge, hu.dvd, hu.inside, hu.apart, hu.free⟩
      ⟨rfl, rfl, rfl⟩ hcls hn.1 hn.2).mono fun r hr => ?_
    obtain ⟨hrp, hserved⟩ := hr
    rw [hrp]
    refine ⟨fun b' hb' heq => ?_, b.c, hserved⟩
    rw [List.inj_on_of_nodup_map hcore.nodup hb' hb heq]
    exact hfree
  · -- a new block
    have hcore' : Core R { h with lock := 1#32 } m blocks := hcore.congr rfl rfl rfl rfl
    refine returns_bind (carve_returns hcore' hfits.size_le hfits.dvd) fun r hr => ?_
    obtain ⟨q, h₁, m₁⟩ := r
    obtain ⟨hcore₁, hu, hsame⟩ := hr
    have hnone : ∀ b ∈ blocks, b.p ≠ q := fun b hb => hu.ne hcore₁ hb
    have hothers : others blocks q = blocks := by
      rw [others, List.filter_eq_self]
      exact fun b hb => by simpa using hnone b hb
    refine (fill_returns (h := h) hcore₁ hu ⟨hsame.addr, hsame.nlive, hsame.liveBytes⟩ hcls hn.1
      hn.2).mono fun r hr => ?_
    obtain ⟨hrp, hserved⟩ := hr
    rw [hrp, hothers]
    exact ⟨fun b hb heq => absurd heq (hnone b hb), c, hserved⟩

/-! ### `free_raw` -/

/-- What a call of `free_raw` leaves: the block `b` is on its class's list. -/
structure Released (R : Runtime) (h : Heap) (blocks : List Blk) (b : Blk) (r : Heap × Mem) :
    Prop where
  core : Core R r.1 r.2 ({ b with live := false } :: others blocks b.p)
  nlive : r.1.nlive = h.nlive - 1#32
  liveBytes : r.1.liveBytes = h.liveBytes - b.n

/-- **A call of `free_raw`** on a live block, with its size. -/
theorem freeRaw_returns {h : Heap} {m : Mem} {blocks : List Blk} {b : Blk}
    (hcore : Core R h m blocks) (hb : b ∈ blocks) (hlive : b.live = true) (fuel : Nat) :
    Returns (Released R h blocks b) (freeRaw R fuel h m b.p b.n) := by
  have hplaced := hcore.placed b hb
  have hge := hplaced.ge
  have hfits := hplaced.fits
  have hpos := hplaced.pos
  have hle := hplaced.le
  have hhi := hplaced.hi_le hcore.cursorOk
  have hround := toNat_round8 (n := b.n) (by omega)
  have hsize := hfits.le
  rw [Blk.hi] at hhi
  have h8 : (b.p - 8#32).toNat = b.p.toNat - 8 := toNat_sub_of_le (by change 8 ≤ b.p.toNat; omega)
  have h4 : (b.p + 4#32).toNat = b.p.toNat + 4 := by
    have hc : (4#32).toNat = 4 := rfl
    rw [BitVec.toNat_add, hc]
    omega
  rw [freeRaw]
  -- the three checks, and the lock
  refine returns_bind_any fun _ => ?_
  refine returns_bind_any fun _ => ?_
  refine returns_bind_any fun _ => ?_
  refine returns_bind_any fun _ => ?_
  refine returns_bind_any fun _ => ?_
  refine returns_bind_any fun _ => ?_
  refine returns_bind (Q := fun h' => h' = { h with lock := 1#32 }) ?_ fun h' hlock => ?_
  · rw [atomicLock]
    split
    · rfl
    · trivial
  subst hlock
  dsimp only
  refine returns_bind (store32_sat R m _ _).returns fun m₁ hm₁ => ?_
  obtain ⟨-, rfl⟩ := hm₁
  refine returns_bind (poison_returns hplaced.dvd (by omega) (by omega) fuel) fun m₂ hm₂ => ?_
  rw [h8] at hm₂
  refine returns_bind (classOf_hasClass fuel b.n) fun c hcls => ?_
  obtain rfl : c = b.c := hcls.unique hplaced.cls
  refine returns_bind (Q := fun head => h.heads[b.c.toNat]? = some head) ?_ fun head hhead => ?_
  · rw [arrGet]
    exact (sat_ofOption fun _ h => h).returns
  refine returns_bind (store32_sat R m₂ _ _).returns fun m₃ hm₃ => ?_
  obtain ⟨-, rfl⟩ := hm₃
  refine returns_bind (store32_sat R _ _ _).returns fun m₄ hm₄ => ?_
  obtain ⟨-, rfl⟩ := hm₄
  refine returns_bind (Q := fun heads => heads = h.heads.set b.c.toNat b.p) ?_ fun heads hheads => ?_
  · rw [arrSet]
    split
    · rfl
    · trivial
  subst hheads
  rw [h4]
  have hstate₁ : Mem.SameOutside (b.p.toNat - 8) (b.p.toNat + (classSize b.c).toNat) m
      (m.setWord32 (b.p.toNat - 8) (h.addr ^^^ FREED)) :=
    Mem.sameOutside_write le_rfl (by omega)
  have hlinks : Mem.SameOutside b.p.toNat (b.p.toNat + 8) m₂
      ((m₂.setWord32 b.p.toNat head).setWord32 (b.p.toNat + 4) 0#32) :=
    (Mem.sameOutside_write le_rfl (by omega)).trans (Mem.sameOutside_write (by omega) (by omega))
  have hsame := (hstate₁.trans (hm₂.mono (by omega) (by omega))).trans
    (hlinks.mono (by omega) (by omega))
  refine ⟨Core.addFreed (hcore.dropLive hb hlive) (hcore.unused hb) hsame hplaced.cls
    hpos hle ?_ ?_ hhead ?_ rfl rfl rfl rfl, rfl, rfl⟩
  · rw [hlinks.word32 (.inl (by omega)), hm₂.word32 (.inl (by omega)), Mem.word32_setWord32_self]
  · rw [hlinks.word32 (.inl (by omega)), hm₂.word32 (.inl (by omega)), Mem.setWord32,
      Mem.word32_write_disjoint (.inr (by omega))]
    exact hplaced.size
  · rw [Mem.setWord32, Mem.word32_write_disjoint (.inl (by omega)), Mem.word32_setWord32_self]

end Aipl.StdHeap
