import Aipl.Std.Heap.Classes

/-! # What holds of a heap between calls

The blocks a heap ever cut are kept beside it, each with its last size, its class, and whether it
is live.  They tile parts of memory apart from each other and from the rest of the current chunk;
the headers say what each is; and each class's list runs through exactly its freed blocks.

* `Core` — the invariant of the lists, the headers and the layout.
* `Core.frame` — it survives every change of memory that spares headers and freed blocks.
* `Core.pop` — taking the first block of a list.
* `Core.addLive`, `Core.addFreed` — putting a block back, live or on its list.
-/

namespace Aipl.StdHeap

open Aipl.Lib Aipl.Lib.Outcome Aipl.Std Aipl.Compiler.Alloc

/-- A block the heap cut: its address, the size last asked for, its class, whether it is live. -/
structure Blk where
  p : BitVec 32
  n : BitVec 32
  c : BitVec 32
  live : Bool

/-- Where a block's header starts. -/
def Blk.lo (b : Blk) : Nat := b.p.toNat - 8

/-- Where a block's bytes end. -/
def Blk.hi (b : Blk) : Nat := b.p.toNat + (classSize b.c).toNat

/-- Up to where a program may not write: the header of a live block, all of a freed one. -/
def Blk.guard (b : Blk) : Nat := if b.live then b.p.toNat else b.hi

/-- Header word 0 of a block. -/
def Blk.tag (b : Blk) : BitVec 32 := if b.live then LIVE else FREED

/-- What is left of the current chunk. -/
def Heap.room (h : Heap) : Nat := (h.end_ - h.cur).toNat

/-- A block lies where it should, and its header is its own. -/
structure Placed (h : Heap) (m : Mem) (b : Blk) : Prop where
  ge : 16 ≤ b.p.toNat
  dvd : 8 ∣ b.p.toNat
  cls : HasClass b.n b.c
  pos : 0 < b.n.toNat
  le : b.n.toNat ≤ 1879048184
  inside : b.hi ≤ (cursor m).toNat
  apart : b.hi ≤ h.cur.toNat ∨ h.cur.toNat + h.room ≤ b.lo
  state : m.word32 (b.p.toNat - 8) = h.addr ^^^ b.tag
  size : m.word32 (b.p.toNat - 4) = b.n

/-- `b` and `b'` share no byte. -/
def Apart (b b' : Blk) : Prop := b.hi ≤ b'.lo ∨ b'.hi ≤ b.lo

/-- The free list of class `c` is the freed blocks of class `c`, each once. -/
def Listed (h : Heap) (m : Mem) (blocks : List Blk) (c : Nat) : Prop :=
  ∃ head l, h.heads[c]? = some head ∧ m.Chain head l ∧ l.Nodup ∧
    ∀ q, q ∈ l ↔ ∃ b ∈ blocks, b.p = q ∧ b.live = false ∧ b.c.toNat = c

/-- **The invariant of lists, headers and layout.** -/
structure Core (R : Runtime) (h : Heap) (m : Mem) (blocks : List Blk) : Prop where
  cursorOk : CursorOk R.host m
  cur_dvd : 8 ∣ h.cur.toNat
  cur_ge : 8 ≤ h.cur.toNat ∨ h.room = 0
  inside : h.cur.toNat + h.room ≤ (cursor m).toNat
  placed : ∀ b ∈ blocks, Placed h m b
  apart : ∀ b ∈ blocks, ∀ b' ∈ blocks, b.p ≠ b'.p → Apart b b'
  nodup : (blocks.map Blk.p).Nodup
  heads : h.heads.length = NCLASSES
  listed : ∀ c < NCLASSES, Listed h m blocks c

theorem Placed.fits {h : Heap} {m : Mem} {b : Blk} (hb : Placed h m b) : Fits b.n b.c :=
  hb.cls.fits hb.le

theorem Placed.lo_lt_p {h : Heap} {m : Mem} {b : Blk} (hb : Placed h m b) :
    b.lo + 8 = b.p.toNat := by
  have := hb.ge
  rw [Blk.lo]
  omega

/-- A block takes at least 8 bytes behind its header. -/
theorem Placed.hi_ge {h : Heap} {m : Mem} {b : Blk} (hb : Placed h m b) :
    b.p.toNat + 8 ≤ b.hi := by
  have hle := hb.fits.le
  have hpos := hb.pos
  have hround := toNat_round8 (n := b.n) (by have := hb.le; omega)
  rw [Blk.hi]
  omega

theorem Placed.hi_le {R : Runtime} {h : Heap} {m : Mem} {b : Blk} (hb : Placed h m b)
    (hc : CursorOk R.host m) : b.hi ≤ 2 ^ 31 :=
  hb.inside.trans ((CursorOk.toNat_le hc).1.trans (CursorOk.toNat_le hc).2)

/-- The part of a block that carries the invariant is inside it. -/
theorem Placed.p_le_guard {h : Heap} {m : Mem} {b : Blk} (hb : Placed h m b) :
    b.p.toNat ≤ b.guard ∧ b.guard ≤ b.hi := by
  have := hb.hi_ge
  rw [Blk.guard]
  split <;> omega

/-- **Frame.**  The invariant needs of memory only the headers, the freed blocks and the cursor. -/
theorem Core.frame {R : Runtime} {h : Heap} {m m' : Mem} {blocks : List Blk}
    (hcore : Core R h m blocks) (hc : CursorOk R.host m')
    (hcur : (cursor m).toNat ≤ (cursor m').toNat)
    (hbytes : ∀ b ∈ blocks, ∀ x, b.lo ≤ x → x < b.guard → m'.byte x = m.byte x) :
    Core R h m' blocks where
  cursorOk := hc
  cur_dvd := hcore.cur_dvd
  cur_ge := hcore.cur_ge
  inside := hcore.inside.trans hcur
  placed b hb := by
    have hp := hcore.placed b hb
    have hlo := hp.lo_lt_p
    have hg := hp.p_le_guard
    refine ⟨hp.ge, hp.dvd, hp.cls, hp.pos, hp.le, hp.inside.trans hcur, hp.apart, ?_, ?_⟩
    · rw [← hp.state]
      exact Mem.word32_congr fun x _ _ => hbytes b hb x (by omega) (by omega)
    · rw [← hp.size]
      exact Mem.word32_congr fun x _ _ => hbytes b hb x (by omega) (by omega)
  apart := hcore.apart
  nodup := hcore.nodup
  heads := hcore.heads
  listed c hlt := by
    obtain ⟨head, l, hhead, hchain, hnodup, hmem⟩ := hcore.listed c hlt
    refine ⟨head, l, hhead, hchain.congr fun q hq => ?_, hnodup, hmem⟩
    obtain ⟨b, hb, rfl, hfree, -⟩ := (hmem q).mp hq
    have hp := hcore.placed b hb
    have hlo := hp.lo_lt_p
    have hhi := hp.hi_ge
    have hg : b.guard = b.hi := by rw [Blk.guard, hfree]; rfl
    exact Mem.word32_congr fun x _ _ => hbytes b hb x (by omega) (by omega)

/-- The invariant speaks of the heap's address, lists and chunk only. -/
theorem Core.congr {R : Runtime} {h h' : Heap} {m : Mem} {blocks : List Blk}
    (hcore : Core R h m blocks) (haddr : h'.addr = h.addr) (hheads : h'.heads = h.heads)
    (hcur : h'.cur = h.cur) (hend : h'.end_ = h.end_) : Core R h' m blocks where
  cursorOk := hcore.cursorOk
  cur_dvd := by rw [hcur]; exact hcore.cur_dvd
  cur_ge := by rw [Heap.room, hcur, hend]; exact hcore.cur_ge
  inside := by rw [Heap.room, hcur, hend]; exact hcore.inside
  placed b hb := by
    have hp := hcore.placed b hb
    refine ⟨hp.ge, hp.dvd, hp.cls, hp.pos, hp.le, hp.inside, ?_, ?_, hp.size⟩
    · rw [Heap.room, hcur, hend]
      exact hp.apart
    · rw [haddr]
      exact hp.state
  apart := hcore.apart
  nodup := hcore.nodup
  heads := by rw [hheads]; exact hcore.heads
  listed c hlt := by
    rw [Listed, hheads]
    exact hcore.listed c hlt

/-! ### Taking a block -/

/-- The blocks other than the one at `p`. -/
def others (blocks : List Blk) (p : BitVec 32) : List Blk := blocks.filter fun b => b.p ≠ p

theorem mem_others {blocks : List Blk} {p : BitVec 32} {b : Blk} :
    b ∈ others blocks p ↔ b ∈ blocks ∧ b.p ≠ p := by
  simp [others]

/-- The bytes of a class-`c` block at `p`, header included, belong to no block and are not in the
rest of the chunk. -/
structure Unused (h : Heap) (m : Mem) (blocks : List Blk) (p c : BitVec 32) : Prop where
  ge : 16 ≤ p.toNat
  dvd : 8 ∣ p.toNat
  inside : p.toNat + (classSize c).toNat ≤ (cursor m).toNat
  apart : p.toNat + (classSize c).toNat ≤ h.cur.toNat ∨ h.cur.toNat + h.room ≤ p.toNat - 8
  free : ∀ b ∈ blocks, b.hi ≤ p.toNat - 8 ∨ p.toNat + (classSize c).toNat ≤ b.lo

/-- A block taken out of the books leaves its bytes unused; the lists only lose it. -/
theorem Core.unused {R : Runtime} {h : Heap} {m : Mem} {blocks : List Blk} {b : Blk}
    (hcore : Core R h m blocks) (hb : b ∈ blocks) :
    Unused h m (others blocks b.p) b.p b.c := by
  have hp := hcore.placed b hb
  refine ⟨hp.ge, hp.dvd, hp.inside, hp.apart, fun b' hb' => ?_⟩
  obtain ⟨hmem, hne⟩ := mem_others.mp hb'
  exact hcore.apart b' hmem b hb hne

/-- Without a live block the lists are the same. -/
theorem Core.dropLive {R : Runtime} {h : Heap} {m : Mem} {blocks : List Blk} {b : Blk}
    (hcore : Core R h m blocks) (hb : b ∈ blocks) (hlive : b.live = true) :
    Core R h m (others blocks b.p) where
  cursorOk := hcore.cursorOk
  cur_dvd := hcore.cur_dvd
  cur_ge := hcore.cur_ge
  inside := hcore.inside
  placed b' hb' := hcore.placed b' (mem_others.mp hb').1
  apart b₁ h₁ b₂ h₂ := hcore.apart b₁ (mem_others.mp h₁).1 b₂ (mem_others.mp h₂).1
  nodup := hcore.nodup.sublist (List.filter_sublist.map _)
  heads := hcore.heads
  listed c hlt := by
    obtain ⟨head, l, hhead, hchain, hnodup, hmem⟩ := hcore.listed c hlt
    refine ⟨head, l, hhead, hchain, hnodup, fun q => (hmem q).trans ?_⟩
    constructor
    · rintro ⟨b', hb', rfl, hfree, hc⟩
      refine ⟨b', mem_others.mpr ⟨hb', fun heq => ?_⟩, rfl, hfree, hc⟩
      have : b' = b := List.inj_on_of_nodup_map hcore.nodup hb' hb heq
      rw [this, hlive] at hfree
      cases hfree
    · rintro ⟨b', hb', h⟩
      exact ⟨b', (mem_others.mp hb').1, h⟩

/-- **Taking the first block of a list.** -/
theorem Core.pop {R : Runtime} {h : Heap} {m : Mem} {blocks : List Blk} {p c : BitVec 32}
    (hcore : Core R h m blocks) (hc : c.toNat < NCLASSES) (hhead : h.heads[c.toNat]? = some p)
    (hp : p ≠ 0#32) :
    (∃ b ∈ blocks, b.p = p ∧ b.live = false ∧ b.c = c) ∧
      Core R { h with heads := h.heads.set c.toNat (m.word32 p.toNat) } m (others blocks p) := by
  obtain ⟨head, l, hh, hchain, hnodup, hmem⟩ := hcore.listed c.toNat hc
  obtain rfl : head = p := Option.some_injective _ (hh.symm.trans hhead)
  obtain ⟨ps, rfl, hrest⟩ := hchain.cases_head hp
  obtain ⟨b, hb, hbp, hfree, hbc⟩ := (hmem head).mp List.mem_cons_self
  refine ⟨⟨b, hb, hbp, hfree, BitVec.eq_of_toNat_eq hbc⟩, ?_⟩
  have hlen : c.toNat < h.heads.length := by rw [hcore.heads]; exact hc
  refine ⟨hcore.cursorOk, hcore.cur_dvd, hcore.cur_ge, hcore.inside, fun b' hb' => ?_,
    fun b₁ h₁ b₂ h₂ => hcore.apart b₁ (mem_others.mp h₁).1 b₂ (mem_others.mp h₂).1,
    hcore.nodup.sublist (List.filter_sublist.map _), by rw [List.length_set]; exact hcore.heads,
    fun c' hc' => ?_⟩
  · have hb := hcore.placed b' (mem_others.mp hb').1
    exact ⟨hb.ge, hb.dvd, hb.cls, hb.pos, hb.le, hb.inside, hb.apart, hb.state, hb.size⟩
  · by_cases heq : c' = c.toNat
    · subst heq
      refine ⟨_, ps, List.getElem?_set_self hlen, hrest, hnodup.of_cons, fun q => ?_⟩
      have hnot : head ∉ ps := (List.nodup_cons.mp hnodup).1
      constructor
      · intro hq
        obtain ⟨b', hb', rfl, h'⟩ := (hmem q).mp (List.mem_cons_of_mem _ hq)
        refine ⟨b', mem_others.mpr ⟨hb', ?_⟩, rfl, h'⟩
        rintro rfl
        exact hnot hq
      · rintro ⟨b', hb', rfl, h'⟩
        obtain ⟨hb', hne⟩ := mem_others.mp hb'
        rcases List.mem_cons.mp ((hmem b'.p).mpr ⟨b', hb', rfl, h'⟩) with heq | hq
        · exact absurd heq hne
        · exact hq
    · obtain ⟨head', l', hh', hchain', hnodup', hmem'⟩ := hcore.listed c' hc'
      refine ⟨head', l', ?_, hchain', hnodup', fun q => (hmem' q).trans ?_⟩
      · rw [List.getElem?_set_ne (Ne.symm heq)]
        exact hh'
      · constructor
        · rintro ⟨b', hb', rfl, hfree', hc''⟩
          refine ⟨b', mem_others.mpr ⟨hb', fun hpp => ?_⟩, rfl, hfree', hc''⟩
          have : b' = b := List.inj_on_of_nodup_map hcore.nodup hb' hb (hpp.trans hbp.symm)
          rw [this, hbc] at hc''
          exact heq hc''.symm
        · rintro ⟨b', hb', h'⟩
          exact ⟨b', (mem_others.mp hb').1, h'⟩

/-! ### Putting a block back -/

theorem Unused.ne {R : Runtime} {h : Heap} {m : Mem} {blocks : List Blk} {p c : BitVec 32}
    (hu : Unused h m blocks p c) (hcore : Core R h m blocks) {b : Blk} (hb : b ∈ blocks) :
    b.p ≠ p := by
  rintro rfl
  have hp := hcore.placed b hb
  have hlo := hp.lo_lt_p
  have hhi := hp.hi_ge
  rcases hu.free b hb with h₁ | h₁
  · omega
  · omega

/-- A memory that differs only in unused bytes. -/
theorem Core.frame_unused {R : Runtime} {h : Heap} {m m' : Mem} {blocks : List Blk}
    {p c : BitVec 32} (hcore : Core R h m blocks) (hu : Unused h m blocks p c)
    (hsame : Mem.SameOutside (p.toNat - 8) (p.toNat + (classSize c).toNat) m m') :
    Core R h m' blocks := by
  have hge := hu.ge
  obtain ⟨hc, hcur⟩ := CursorOk.sameOutside hcore.cursorOk hsame (by omega)
  refine hcore.frame hc (by rw [hcur]) fun b hb x hlo hhi => ?_
  have hg := (hcore.placed b hb).p_le_guard
  refine hsame.byte x ?_
  rcases hu.free b hb with h₁ | h₁
  · exact .inl (by omega)
  · exact .inr (by omega)

/-- A block on unused bytes joins the others, once its header and the lists say so. -/
theorem Core.insert {R : Runtime} {h h' : Heap} {m m' : Mem} {blocks : List Blk} {b : Blk}
    (hcore : Core R h m blocks) (hu : Unused h m blocks b.p b.c)
    (hsame : Mem.SameOutside b.lo b.hi m m') (hcls : HasClass b.n b.c) (hpos : 0 < b.n.toNat)
    (hle : b.n.toNat ≤ 1879048184) (hstate : m'.word32 (b.p.toNat - 8) = h.addr ^^^ b.tag)
    (hsize : m'.word32 (b.p.toNat - 4) = b.n) (haddr : h'.addr = h.addr) (hcur : h'.cur = h.cur)
    (hend : h'.end_ = h.end_) (hheads : h'.heads.length = NCLASSES)
    (hlisted : ∀ c < NCLASSES, Listed h' m' (b :: blocks) c) : Core R h' m' (b :: blocks) := by
  have hcore' := hcore.frame_unused hu hsame
  have hge := hu.ge
  have hcursor : cursor m' = cursor m := hsame.word32 (.inl (by rw [Blk.lo]; omega))
  have hroom : h'.room = h.room := by rw [Heap.room, Heap.room, hcur, hend]
  have hapart : ∀ b' ∈ blocks, Apart b b' := by
    intro b' hb'
    rcases hu.free b' hb' with h₁ | h₁
    · exact .inr h₁
    · exact .inl h₁
  refine ⟨hcore'.cursorOk, by rw [hcur]; exact hcore'.cur_dvd, by rw [hcur, hroom]; exact hcore.cur_ge,
    by rw [hcur, hroom]; exact hcore'.inside, ?_, ?_, ?_, hheads, hlisted⟩
  · intro b' hb'
    rcases List.mem_cons.mp hb' with rfl | hb'
    · refine ⟨hge, hu.dvd, hcls, hpos, hle, ?_, ?_, ?_, hsize⟩
      · rw [hcursor]
        exact hu.inside
      · rw [hcur, hroom]
        exact hu.apart
      · rw [haddr]
        exact hstate
    · have hp := hcore'.placed b' hb'
      refine ⟨hp.ge, hp.dvd, hp.cls, hp.pos, hp.le, hp.inside, ?_, ?_, hp.size⟩
      · rw [hcur, hroom]
        exact hp.apart
      · rw [haddr]
        exact hp.state
  · intro b₁ h₁ b₂ h₂ hne
    rcases List.mem_cons.mp h₁ with rfl | hb₁
    · rcases List.mem_cons.mp h₂ with rfl | hb₂
      · exact absurd rfl hne
      · exact hapart b₂ hb₂
    · rcases List.mem_cons.mp h₂ with rfl | hb₂
      · exact (hapart b₁ hb₁).symm
      · exact hcore.apart b₁ hb₁ b₂ hb₂ hne
  · rw [List.map_cons, List.nodup_cons]
    refine ⟨fun hmem => ?_, hcore.nodup⟩
    obtain ⟨b', hb', heq⟩ := List.mem_map.mp hmem
    exact hu.ne hcore hb' heq

/-- **A new live block.**  The lists stay as they are. -/
theorem Core.addLive {R : Runtime} {h : Heap} {m m' : Mem} {blocks : List Blk} {p n c : BitVec 32}
    (hcore : Core R h m blocks) (hu : Unused h m blocks p c)
    (hsame : Mem.SameOutside (p.toNat - 8) (p.toNat + (classSize c).toNat) m m')
    (hcls : HasClass n c) (hpos : 0 < n.toNat) (hle : n.toNat ≤ 1879048184)
    (hstate : m'.word32 (p.toNat - 8) = h.addr ^^^ LIVE) (hsize : m'.word32 (p.toNat - 4) = n) :
    Core R h m' (⟨p, n, c, true⟩ :: blocks) := by
  refine hcore.insert (b := ⟨p, n, c, true⟩) hu hsame hcls hpos hle hstate hsize rfl rfl rfl
    hcore.heads fun c' hc' => ?_
  obtain ⟨head, l, hhead, hchain, hnodup, hmem⟩ := (hcore.frame_unused hu hsame).listed c' hc'
  refine ⟨head, l, hhead, hchain, hnodup, fun q => (hmem q).trans ?_⟩
  constructor
  · rintro ⟨b, hb, h'⟩
    exact ⟨b, List.mem_cons_of_mem _ hb, h'⟩
  · rintro ⟨b, hb, hq, hfree, hc⟩
    rcases List.mem_cons.mp hb with rfl | hb
    · cases hfree
    · exact ⟨b, hb, hq, hfree, hc⟩

/-- **A freed block** goes to the front of its class's list, and of no other. -/
theorem Core.addFreed {R : Runtime} {h h' : Heap} {m m' : Mem} {blocks : List Blk}
    {p n c head : BitVec 32} (hcore : Core R h m blocks) (hu : Unused h m blocks p c)
    (hsame : Mem.SameOutside (p.toNat - 8) (p.toNat + (classSize c).toNat) m m')
    (hcls : HasClass n c) (hpos : 0 < n.toNat) (hle : n.toNat ≤ 1879048184)
    (hstate : m'.word32 (p.toNat - 8) = h.addr ^^^ FREED) (hsize : m'.word32 (p.toNat - 4) = n)
    (hhead : h.heads[c.toNat]? = some head) (hlink : m'.word32 p.toNat = head)
    (haddr : h'.addr = h.addr) (hcur : h'.cur = h.cur) (hend : h'.end_ = h.end_)
    (hheads : h'.heads = h.heads.set c.toNat p) :
    Core R h' m' (⟨p, n, c, false⟩ :: blocks) := by
  have hlen : c.toNat < h.heads.length := by
    rw [hcore.heads]
    exact (hcls.fits hle).class_lt
  refine hcore.insert (b := ⟨p, n, c, false⟩) hu hsame hcls hpos hle hstate hsize haddr hcur hend
    (by rw [hheads, List.length_set]; exact hcore.heads) fun c' hc' => ?_
  obtain ⟨head', l, hhead', hchain, hnodup, hmem⟩ := (hcore.frame_unused hu hsame).listed c' hc'
  have hne : ∀ q ∈ l, q ≠ p := by
    intro q hq
    obtain ⟨b, hb, rfl, -⟩ := (hmem q).mp hq
    exact hu.ne hcore hb
  by_cases heq : c' = c.toNat
  · subst heq
    obtain rfl : head' = head := Option.some_injective _ (hhead'.symm.trans hhead)
    have hp : p ≠ 0#32 := by
      rintro rfl
      exact absurd hu.ge (by decide)
    refine ⟨p, p :: l, by rw [hheads]; exact List.getElem?_set_self hlen,
      ⟨rfl, hp, by rw [hlink]; exact hchain⟩,
      List.nodup_cons.mpr ⟨fun hq => hne p hq rfl, hnodup⟩, fun q => ?_⟩
    rw [List.mem_cons, hmem q]
    constructor
    · rintro (rfl | ⟨b, hb, h'⟩)
      · exact ⟨_, List.mem_cons_self, rfl, rfl, rfl⟩
      · exact ⟨b, List.mem_cons_of_mem _ hb, h'⟩
    · rintro ⟨b, hb, hq, h'⟩
      rcases List.mem_cons.mp hb with rfl | hb
      · exact .inl hq.symm
      · exact .inr ⟨b, hb, hq, h'⟩
  · refine ⟨head', l, ?_, hchain, hnodup, fun q => (hmem q).trans ?_⟩
    · rw [hheads, List.getElem?_set_ne (Ne.symm heq)]
      exact hhead'
    · constructor
      · rintro ⟨b, hb, h'⟩
        exact ⟨b, List.mem_cons_of_mem _ hb, h'⟩
      · rintro ⟨b, hb, hq, hfree, hc⟩
        rcases List.mem_cons.mp hb with rfl | hb
        · exact absurd hc.symm heq
        · exact ⟨b, hb, hq, hfree, hc⟩

end Aipl.StdHeap
