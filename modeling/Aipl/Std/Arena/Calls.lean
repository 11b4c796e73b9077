import Aipl.Std.Arena.Invariant

/-! # What one call does to an arena

* `rawLoop_returns` — the loop of `raw` ends with room in the current chunk, as signed words.
* `alloc_returns` — `alloc` keeps the invariant, with the pointer it made.
* `walk_sat` — a walk visits exactly the blocks of its chunk, and ends at its used mark.
* `reset_sat` — `reset` marks every live block's object freed.
-/

namespace Aipl.StdArena

open Aipl.Lib Aipl.Lib.Outcome Aipl.Std Aipl.Compiler.Alloc

variable {R : Runtime} {a : Arena} {m : Mem} {made : List Made}

/-! ### Allocating -/

/-- The sizes of objects whose blocks' sizes do not wrap. -/
def SizeOk (size : BitVec 32) : Prop := (size + 8#32).toInt ≤ 2147483632

/-- The size of a block that holds `n` bytes. -/
def blockSize (n : BitVec 32) : BitVec 32 := round8 n + 8#32

/-- The loop of `raw` after it found a block: the chunk had room for it, or the sum wrapped. -/
structure Found (R : Runtime) (made : List Made) (size : BitVec 32) (s : RawState) : Prop where
  found : s.found ≠ -1#32
  from_ : ∃ a m c, Inv R a m made ∧ a.chunks[a.current]? = some c ∧
    s.found.toNat = c.base.toNat + a.used.toNat + 8 ∧ (a.used + size).sle c.cap = true ∧
    s.arena = { a with used := a.used + size } ∧
    s.mem = m.setWord32 (c.base.toNat + a.used.toNat) size

/-- A used mark is within its chunk, and the chunk within memory. -/
theorem Inv.used_le {c : Chunk} (h : Inv R a m made) (hc : a.chunks[a.current]? = some c) :
    a.used.toNat ≤ c.cap.toNat ∧ c.base.toNat + c.cap.toNat ≤ 2 ^ 31 ∧
      Path c.base.toNat (blocksOf made a.current) (c.base.toNat + a.used.toNat) := by
  obtain ⟨hle, hpath⟩ := h.filled a.current c hc
  have hused : usedOf a a.current c = a.used.toNat := by
    rw [usedOf, if_neg (lt_irrefl _), if_pos rfl]
  rw [hused] at hle hpath
  have hin := (h.taken c (List.mem_of_getElem? hc)).inside
  obtain ⟨hcur, hsize⟩ := CursorOk.toNat_le h.cursorOk
  exact ⟨hle, hin.trans (hcur.trans hsize), hpath⟩

theorem Path.dvd {e : Nat} : ∀ {bs : List Made} {q : Nat}, Path q bs e → 8 ∣ q →
    (∀ b ∈ bs, 8 ∣ b.size) → 8 ∣ e
  | [], _, h, hq, _ => by
      obtain rfl : _ = e := h
      exact hq
  | b :: _, _, ⟨_, h⟩, hq, hb => by
      refine h.dvd ?_ fun b' hb' => hb b' (List.mem_cons_of_mem _ hb')
      exact Nat.dvd_add hq (hb b List.mem_cons_self)

/-- **The loop of `raw`.** -/
theorem rawLoop_returns {size : BitVec 32} (hlt : size.toNat < 2 ^ 31) (hdvd : 8 ∣ size.toNat)
    (fuel : Nat) (hinv : Inv R a m made) :
    Returns (Found R made size) (iterate (rawRound R size) fuel ⟨-1#32, a, m⟩) := by
  refine iterate_returns
    (fun s => (s.found = -1#32 ∧ Inv R s.arena s.mem made) ∨ Found R made size s) _ ?_ fuel _
    (.inl ⟨rfl, hinv⟩)
  rintro ⟨found, a, m⟩ (⟨rfl, h⟩ | hfound)
  · dsimp only at h
    obtain ⟨c, hc, hmem⟩ := h.current
    obtain ⟨hused, hcap, hpath⟩ := h.used_le hc
    have ht := h.taken c hmem
    have hbase := ht.ge
    rw [rawRound, if_pos rfl]
    dsimp only
    rw [hc]
    change Returns _ (if (a.used + size).sle c.cap = true then _ else _)
    split
    · rename_i hroom
      have h8 : (8#32).toNat = 8 := rfl
      have hat : (c.base + (a.used + 8#32)).toNat = c.base.toNat + a.used.toNat + 8 := by
        rw [BitVec.toNat_add, BitVec.toNat_add, h8]
        omega
      have hhdr : (c.base + (a.used + 8#32) - 8#32).toNat = c.base.toNat + a.used.toNat := by
        rw [BitVec.toNat_sub, hat, h8]
        omega
      have hal : 8 ∣ c.base.toNat + a.used.toNat := by
        refine hpath.dvd ht.base_dvd fun b hb => ?_
        exact (h.made b (mem_blocksOf.mp hb).1).size_dvd
      refine returns_bind (store32_sat R m _ size).returns fun m' hm' => ?_
      obtain ⟨-, rfl⟩ := hm'
      rw [hhdr]
      refine .inr ⟨fun heq => ?_, a, m, c, h, hc, hat, hroom, rfl, rfl⟩
      have hone : (-1#32).toNat = 4294967295 := rfl
      dsimp only at heq
      rw [heq, hone] at hat
      omega
    · -- the arena goes on: the chunk after this one is there, or it is taken now
      split
      · rename_i hlast
        have hsize : (if a.chunkSize.slt size then size else a.chunkSize).toNat < 2 ^ 31 ∧
            8 ∣ (if a.chunkSize.slt size then size else a.chunkSize).toNat := by
          split
          · exact ⟨hlt, hdvd⟩
          · exact ⟨h.chunkSize_lt, h.chunkSize_dvd⟩
        refine returns_bind (newChunk_returns h.cursorOk h.low hsize.1 hsize.2) fun r hr => ?_
        obtain ⟨c', m'⟩ := r
        obtain ⟨ht', -, -, hbase', hc', hbyte⟩ := hr
        have happend := h.append ht' hbase' hc' hbyte
        have hget : (a.chunks ++ [c'])[a.current]? = some c := by
          rw [List.getElem?_append_left h.current_lt]
          exact hc
        refine .inl ⟨rfl, happend.next hget ?_⟩
        dsimp only
        rw [List.length_append, List.length_singleton, hlast]
        exact Nat.lt_succ_self _
      · rename_i hnotLast
        have hlen := h.current_lt
        exact .inl ⟨rfl, h.next hc (by omega)⟩
  · rw [rawRound, if_neg hfound.found]
    exact hfound

/-- The pointers still known once the bytes `[lo, hi)` are handed out: a dead pointer whose word is
among them is forgotten. -/
def handOut (made : List Made) (b : Made) : List Made :=
  (made.filter fun p => p.live || !(decide (b.hdr ≤ p.word) && decide (p.word < b.hdr + b.size)))
    ++ [b]

theorem blocksOf_handOut {b : Made} (k : Nat) (hlive : b.live = true) :
    blocksOf (handOut made b) k = blocksOf made k ++ if b.chunk = k then [b] else [] := by
  rw [blocksOf, handOut, List.filter_append, List.filter_filter]
  congr 1
  · refine List.filter_congr fun p _ => ?_
    cases p.live
    · rfl
    · simp
  · by_cases hk : b.chunk = k
    · simp [hk, hlive]
    · simp [hk]

/-- A block cut from the current chunk, its header and its object's word written. -/
theorem Inv.cut {c : Chunk} {size : BitVec 32} {m' : Mem} (h : Inv R a m made)
    (hc : a.chunks[a.current]? = some c) (hge : 16 ≤ size.toNat) (hdvd : 8 ∣ size.toNat)
    (hfit : a.used.toNat + size.toNat ≤ c.cap.toNat)
    (hsame : Mem.SameOutside (c.base.toNat + a.used.toNat)
      (c.base.toNat + a.used.toNat + size.toNat) m m')
    (hheader : m'.word32 (c.base.toNat + a.used.toNat) = size)
    (hword : m'.word32 (c.base.toNat + a.used.toNat + 8) = a.gen) :
    Inv R { a with used := a.used + size } m'
      (handOut made ⟨c.base.toNat + a.used.toNat, size.toNat, a.gen, a.current, true⟩) := by
  obtain ⟨hused, hcap, hpath⟩ := h.used_le hc
  have ht := h.taken c (List.mem_of_getElem? hc)
  have hbase := ht.ge
  have hal : 8 ∣ c.base.toNat + a.used.toNat := by
    refine hpath.dvd ht.base_dvd fun b hb => ?_
    exact (h.made b (mem_blocksOf.mp hb).1).size_dvd
  obtain ⟨hc', hcur⟩ := CursorOk.sameOutside h.cursorOk hsame (by omega)
  have hadd : (a.used + size).toNat = a.used.toNat + size.toNat := by
    rw [BitVec.toNat_add]
    omega
  refine ⟨hc', by rw [hcur]; exact h.low, h.chunkSize_dvd, h.chunkSize_lt, h.current_lt, ?_,
    h.ascending, ?_, h.gen, ?_⟩
  · intro c' hmem
    have ht' := h.taken c' hmem
    exact ⟨ht'.ge, ht'.base_dvd, ht'.cap_dvd, ht'.cap_lt, by rw [hcur]; exact ht'.inside⟩
  · intro k c' hk
    rw [blocksOf_handOut k rfl]
    by_cases heq : a.current = k
    · subst heq
      obtain rfl : c' = c := Option.some_injective _ (hk.symm.trans hc)
      have hmark : usedOf { a with used := a.used + size } a.current c'
          = a.used.toNat + size.toNat := by
        rw [usedOf, if_neg (lt_irrefl _), if_pos rfl]
        exact hadd
      rw [hmark, if_pos rfl, ← Nat.add_assoc]
      exact ⟨hfit, hpath.snoc rfl⟩
    · have hmark : usedOf { a with used := a.used + size } k c' = usedOf a k c' := by
        rw [usedOf, usedOf]
        dsimp only
        rw [if_neg (Ne.symm heq), if_neg (Ne.symm heq)]
      rw [hmark, if_neg heq, List.append_nil]
      exact h.filled k c' hk
  · intro b hb
    rcases List.mem_append.mp hb with hb | hb
    · obtain ⟨hmade, hkeep⟩ := List.mem_filter.mp hb
      have hm := h.made b hmade
      have h8 := hm.hdr_dvd
      have hsz := hm.size_ge
      -- a live block lies below the new one, or in another chunk; a dead one's word is elsewhere
      have hlive : b.live = true → b.hdr + b.size ≤ c.base.toNat + a.used.toNat ∨
          c.base.toNat + a.used.toNat + size.toNat ≤ b.hdr := by
        intro hlive
        by_cases hk : b.chunk = a.current
        · exact .inl (hpath.mem (mem_blocksOf.mpr ⟨hmade, hlive, hk⟩)).2
        · obtain ⟨c', hc'', hlo, hhi⟩ := hm.inside
          rcases Nat.lt_or_gt_of_ne hk with hlt | hgt
          · have := h.ascending.apart hc'' hc hlt
            exact .inl (by omega)
          · have := h.ascending.apart hc hc'' hgt
            exact .inr (by omega)
      refine hm.congr (fun x h₁ h₂ => hsame.byte x ?_) (fun hl x h₁ h₂ => hsame.byte x ?_) hm.inside
      · rw [Made.word] at h₁ h₂
        cases hl : b.live with
        | true =>
          have := hlive hl
          omega
        | false =>
          rw [hl, Made.word] at hkeep
          simp only [Bool.false_or, Bool.not_eq_true', Bool.and_eq_false_iff,
            decide_eq_false_iff_not] at hkeep
          omega
      · have := hlive hl
        omega
    · rw [List.mem_singleton.mp hb]
      refine ⟨hal, hdvd, hge, size.isLt, ⟨c, hc, by dsimp only; omega, by dsimp only; omega⟩, h.gen,
        hword, fun _ => ?_⟩
      rw [hheader]
      simp

/-- A sum that only fits its chunk because it wrapped would take the block past memory's end. -/
theorem fits_of_sle (base : Nat) {used size cap : Nat} {u s c : BitVec 32} (hu : u.toNat = used)
    (hs : s.toNat = size) (hc : c.toNat = cap) (hroom : (u + s).sle c = true) (hcap : cap < 2 ^ 31)
    (hsum : base + used + size ≤ 2 ^ 31) (hbase : 0 < base) : used + size ≤ cap := by
  have hadd : (u + s).toNat = used + size := by
    rw [BitVec.toNat_add, hu, hs]
    omega
  rw [sle_iff (by omega) (by omega), hadd, hc] at hroom
  exact hroom

/-- The pointer of a call of `alloc`, as it is kept beside the arena. -/
def madeBy (p : Ptr) (a : Arena) (size : BitVec 32) : Made :=
  ⟨p.addr.toNat - 16, (blockSize (size + 8#32)).toNat, p.gen, a.current, true⟩

/-- **A call of `alloc`.** -/
theorem alloc_returns {size : BitVec 32} (h : Inv R a m made) (hok : SizeOk size) (fuel : Nat) :
    Returns (fun r => Inv R r.2.1 r.2.2 (handOut made (madeBy r.1 r.2.1 size)) ∧
      (madeBy r.1 r.2.1 size).word + 8 = r.1.addr.toNat) (alloc R fuel a m size) := by
  rw [SizeOk] at hok
  rw [alloc, raw]
  rw [LawfulMonad.bind_assoc]
  refine returns_bind (Q := fun _ => 0 < (size + 8#32).toInt) (returns_require fun hn => ?_)
    fun _ hpos => ?_
  · rw [BitVec.slt_eq_decide, decide_eq_true_eq] at hn
    exact hn
  have h8 : (8#32).toNat = 8 := rfl
  have h16 : (1#32).toNat = 1 := rfl
  -- the block's size, from the object's
  have hn : 0 < (size + 8#32).toNat ∧ (size + 8#32).toNat ≤ 2147483632 := by
    have hlt := (size + 8#32).isLt
    rw [BitVec.toInt_eq_toNat_cond] at hok hpos
    split at hok
    · rw [if_pos ‹_›] at hpos
      omega
    · rw [if_neg ‹_›] at hpos
      omega
  have hround := toNat_round8 (n := size + 8#32) (by omega)
  have hbs : (round8 (size + 8#32) + 8#32).toNat = (round8 (size + 8#32)).toNat + 8 := by
    rw [BitVec.toNat_add, h8]
    omega
  have hdvd : 8 ∣ (round8 (size + 8#32) + 8#32).toNat := by
    rw [hbs, hround]
    omega
  have hmade : ∀ (p : Ptr) (a : Arena), madeBy p a size
      = ⟨p.addr.toNat - 16, (round8 (size + 8#32) + 8#32).toNat, p.gen, a.current, true⟩ :=
    fun _ _ => rfl
  have hge : 16 ≤ (round8 (size + 8#32) + 8#32).toNat := by omega
  have hlt : (round8 (size + 8#32) + 8#32).toNat < 2 ^ 31 := by omega
  generalize round8 (size + 8#32) + 8#32 = bs at hdvd hge hlt hmade ⊢
  dsimp only
  rw [LawfulMonad.bind_assoc]
  refine returns_bind (rawLoop_returns hlt hdvd fuel h) fun s hs => ?_
  obtain ⟨-, a', m', c, h', hc, hfound, hroom, harena, hmem⟩ := hs
  obtain ⟨hused, hcap, hpath⟩ := h'.used_le hc
  have ht := h'.taken c (List.mem_of_getElem? hc)
  have hbase := ht.ge
  have hwords : (bs.sdiv 8#32 - 1#32).toNat = bs.toNat / 8 - 1 := by
    rw [BitVec.toNat_sub, toNat_sdiv hlt (by decide), h8, h16]
    omega
  rw [LawfulMonad.bind_assoc]
  refine returns_bind (zeroLoop_returns (by omega) (by omega)) fun m₂ hm₂ => ?_
  rw [hwords, hfound, hmem] at hm₂
  obtain ⟨hzeroed, -, hin⟩ := hm₂
  have hsize := (CursorOk.toNat_le h'.cursorOk).2
  rw [Mem.size_setWord32] at hin
  have hend := hin (by omega)
  have hcap_lt := ht.cap_lt
  have hfit := fits_of_sle c.base.toNat rfl rfl rfl hroom hcap_lt (by omega) (by omega)
  rw [pure_eq, done_bind]
  dsimp only
  refine returns_bind (store32_sat R m₂ _ _).returns fun m₃ hm₃ => ?_
  obtain ⟨-, rfl⟩ := hm₃
  have haddr : (s.found + 8#32).toNat - 16 = c.base.toNat + a'.used.toNat := by
    rw [BitVec.toNat_add, h8, hfound]
    omega
  have hstores : Mem.SameOutside (c.base.toNat + a'.used.toNat)
      (c.base.toNat + a'.used.toNat + bs.toNat) m' (m₂.setWord32 s.found.toNat s.arena.gen) := by
    refine ((Mem.sameOutside_write le_rfl (by omega)).trans
      (hzeroed.mono (by omega) (by omega))).trans (Mem.sameOutside_write (by omega) (by omega))
  rw [pure_eq, returns_done]
  dsimp only
  rw [harena] at hstores
  rw [hmade, haddr, harena]
  refine ⟨h'.cut hc hge hdvd hfit hstores ?_ ?_, ?_⟩
  · rw [Mem.setWord32, Mem.word32_write_disjoint (.inl (by omega)),
      hzeroed.word32 (.inl (by omega)), Mem.word32_setWord32_self]
  · rw [← hfound, Mem.word32_setWord32_self]
  · rw [BitVec.toNat_add, h8, hfound, Made.word]
    dsimp only
    omega

/-! ### Resetting -/

/-- The words of the blocks in `S` are `DEAD`, and every other byte is as it was. -/
structure Killed (m m' : Mem) (S : Made → Prop) : Prop where
  pages : m'.pages = m.pages
  dead : ∀ b, S b → m'.word32 b.word = Gen.DEAD
  keep : ∀ x, (∀ b, S b → x < b.word ∨ b.word + 4 ≤ x) → m'.byte x = m.byte x

theorem Killed.refl (m : Mem) {S : Made → Prop} (h : ∀ b, ¬ S b) : Killed m m S :=
  ⟨rfl, fun b hb => absurd hb (h b), fun _ _ => rfl⟩

theorem Killed.trans {m₁ m₂ : Mem} {S T : Made → Prop} (h₁ : Killed m m₁ S) (h₂ : Killed m₁ m₂ T)
    (hS : ∀ b, S b → 8 ∣ b.hdr) (hT : ∀ b, T b → 8 ∣ b.hdr) :
    Killed m m₂ fun b => S b ∨ T b := by
  refine ⟨h₂.pages.trans h₁.pages, ?_, fun x hx => ?_⟩
  · rintro b (hb | hb)
    · by_cases hsame : ∃ b', T b' ∧ b'.word = b.word
      · obtain ⟨b', hb', heq⟩ := hsame
        rw [← heq]
        exact h₂.dead b' hb'
      · rw [← h₁.dead b hb]
        refine Mem.word32_congr fun x hlo hhi => h₂.keep x fun b' hb' => ?_
        have hne : b'.word ≠ b.word := fun heq => hsame ⟨b', hb', heq⟩
        have h8 := hS b hb
        have h8' := hT b' hb'
        rw [Made.word] at hlo hhi hne
        rw [Made.word] at hne
        rw [Made.word]
        omega
    · exact h₂.dead b hb
  · rw [h₂.keep x fun b hb => hx b (.inr hb), h₁.keep x fun b hb => hx b (.inl hb)]

theorem Killed.congr {m' : Mem} {S T : Made → Prop} (h : Killed m m' S) (hST : ∀ b, S b ↔ T b) :
    Killed m m' T :=
  ⟨h.pages, fun b hb => h.dead b ((hST b).mpr hb), fun x hx => h.keep x fun b hb =>
    hx b ((hST b).mp hb)⟩

theorem killed_store {m : Mem} {b : Made} :
    Killed m (m.setWord32 b.word Gen.DEAD) (· = b) := by
  refine ⟨rfl, ?_, fun x hx => Mem.byte_write_of_not_mem (hx b rfl)⟩
  rintro _ rfl
  exact Mem.word32_setWord32_self _ _ _

/-- **A walk visits exactly the blocks of its chunk**, in order, ends at the last one's end, and
marks their objects freed. -/
theorem walk_sat {end_ : BitVec 32} (hend : end_.toNat < 2 ^ 31) : ∀ (bs : List Made) (w : Walk)
    (fuel : Nat), bs.length < fuel → Path w.q.toNat bs end_.toNat →
    (∀ b ∈ bs, 8 ∣ b.hdr ∧ 16 ≤ b.size ∧ w.mem.word32 b.hdr = BitVec.ofNat 32 b.size) →
    Sat (fun w' => w'.visited = w.visited ++ bs.map (fun b => BitVec.ofNat 32 b.hdr) ∧
      w'.q = end_ ∧ Killed w.mem w'.mem (· ∈ bs)) (iterate (killRound R end_) fuel w)
  | _, _, 0, hfuel, _, _ => by omega
  | [], w, fuel + 1, _, hpath, _ => by
      obtain rfl : w.q = end_ := BitVec.eq_of_toNat_eq hpath
      have hlt : w.q.slt w.q = false := by rw [BitVec.slt_eq_decide]; simp
      rw [iterate, killRound, if_neg (by rw [hlt]; decide)]
      exact ⟨by simp, rfl, Killed.refl _ fun b hb => List.not_mem_nil hb⟩
  | b :: bs, w, fuel + 1, hfuel, ⟨hhdr, hpath⟩, hbs => by
      obtain ⟨hal, hge, hword⟩ := hbs b List.mem_cons_self
      have hle := hpath.le
      have h8 : (8#32).toNat = 8 := rfl
      have hat : (w.q + 8#32).toNat = b.word := by
        rw [BitVec.toNat_add, h8, Made.word]
        omega
      have hlt : w.q.slt end_ = true := by
        rw [slt_iff (by omega) hend]
        omega
      rw [iterate, killRound, if_pos hlt, LawfulMonad.bind_assoc]
      refine sat_bind (store32_sat R w.mem _ _) fun m₁ hm₁ => ?_
      obtain ⟨-, rfl⟩ := hm₁
      rw [hat, LawfulMonad.bind_assoc]
      refine sat_bind (load32_sat _ w.q) fun size hsize => ?_
      obtain ⟨-, rfl⟩ := hsize
      have hread : (w.mem.setWord32 b.word Gen.DEAD).word32 w.q.toNat = BitVec.ofNat 32 b.size := by
        rw [Mem.setWord32, Mem.word32_write_disjoint (.inl (by rw [Made.word]; omega)), ← hhdr, hword]
      rw [hread, pure_eq, done_bind]
      have hnext : (w.q + BitVec.ofNat 32 b.size).toNat = w.q.toNat + b.size := by
        rw [BitVec.toNat_add, BitVec.toNat_ofNat]
        omega
      have hq : w.q = BitVec.ofNat 32 b.hdr := by
        rw [hhdr]
        simp
      -- the blocks after this one lie above the word just written
      have hrest : ∀ b' ∈ bs, 8 ∣ b'.hdr ∧ 16 ≤ b'.size ∧
          (w.mem.setWord32 b.word Gen.DEAD).word32 b'.hdr = BitVec.ofNat 32 b'.size := by
        intro b' hb'
        obtain ⟨hal', hge', hword'⟩ := hbs b' (List.mem_cons_of_mem _ hb')
        obtain ⟨hlo, -⟩ := hpath.mem hb'
        refine ⟨hal', hge', ?_⟩
        rw [Mem.setWord32, Mem.word32_write_disjoint (.inr (by rw [Made.word]; omega)), hword']
      rw [List.length_cons] at hfuel
      refine (walk_sat hend bs
        ⟨w.q + BitVec.ofNat 32 b.size, w.mem.setWord32 b.word Gen.DEAD, w.visited ++ [w.q]⟩ fuel
        (by omega) (by dsimp only; rw [hnext]; exact hpath) hrest).mono fun w' hw' => ?_
      obtain ⟨hvisited, hq', hkilled⟩ := hw'
      refine ⟨?_, hq', ?_⟩
      · rw [hvisited, List.map_cons, ← hq]
        simp
      · refine ((killed_store (b := b)).trans hkilled ?_ ?_).congr fun b' => ?_
        · rintro _ rfl
          exact hal
        · exact fun b' hb' => (hrest b' hb').1
        · rw [List.mem_cons]

/-- Where a chunk lies. -/
def Chunk.extent (c : Chunk) : BitVec 32 × BitVec 32 := (c.base, c.cap)

theorem extent_of_map {cs cs' : List Chunk} (h : cs'.map Chunk.extent = cs.map Chunk.extent)
    {k : Nat} {c : Chunk} (hc : cs[k]? = some c) :
    ∃ c', cs'[k]? = some c' ∧ c'.base = c.base ∧ c'.cap = c.cap := by
  have hk : (cs'.map Chunk.extent)[k]? = some c.extent := by
    rw [h, List.getElem?_map, hc]
    rfl
  rw [List.getElem?_map] at hk
  cases hc' : cs'[k]? with
  | none =>
    rw [hc'] at hk
    cases hk
  | some c' =>
    rw [hc'] at hk
    injection hk with hk
    injection hk with hbase hcap
    exact ⟨c', rfl, hbase, hcap⟩

theorem extent_set {cs : List Chunk} {k : Nat} {c c' : Chunk} (hc : cs[k]? = some c)
    (hext : c'.extent = c.extent) : (cs.set k c').map Chunk.extent = cs.map Chunk.extent := by
  refine List.ext_getElem? fun i => ?_
  rw [List.getElem?_map, List.getElem?_map]
  by_cases hi : i = k
  · subst hi
    rw [List.getElem?_set_self (List.getElem?_eq_some_iff.mp hc).1, hc, Option.map_some,
      Option.map_some, hext]
  · rw [List.getElem?_set_ne (Ne.symm hi)]

/-- The ends of the chunks' used parts are addresses that are not negative. -/
def EndsOk (a : Arena) : Prop :=
  ∀ k c, a.chunks[k]? = some c → c.base.toNat + usedOf a k c < 2 ^ 31

/-- **Exact walks**: the first `n` chunks were walked, each walk visited the headers of the chunk's
live blocks, in order, and ended at its used mark. -/
def Exact (a : Arena) (made : List Made) (walks : List Walk) (n : Nat) : Prop :=
  walks.length = n ∧ ∀ k w, walks[k]? = some w → ∃ c, a.chunks[k]? = some c ∧
    w.visited = (blocksOf made k).map (fun b => BitVec.ofNat 32 b.hdr) ∧
    w.q.toNat = c.base.toNat + usedOf a k c

/-- The loop of `reset`, with `s.k` chunks behind it. -/
structure Midway (a : Arena) (m : Mem) (made : List Made) (s : ResetState) : Prop where
  le : s.k ≤ a.current
  extents : s.chunks.map Chunk.extent = a.chunks.map Chunk.extent
  ahead : ∀ k c', s.k ≤ k → k ≤ a.current → s.chunks[k]? = some c' →
    ∃ c, a.chunks[k]? = some c ∧ c'.base = c.base ∧ c'.used.toNat = usedOf a k c
  killed : Killed m s.mem fun b => b ∈ made ∧ b.live = true ∧ b.chunk < s.k
  walks : Exact a made s.walks s.k

/-- The loop of `reset`, over. -/
structure Over (a : Arena) (m : Mem) (made : List Made) (s : ResetState) : Prop where
  extents : s.chunks.map Chunk.extent = a.chunks.map Chunk.extent
  killed : Killed m s.mem fun b => b ∈ made ∧ b.live = true
  walks : Exact a made s.walks (a.current + 1)

/-- No block lies in a chunk after the current one. -/
theorem Inv.chunk_le (h : Inv R a m made) {b : Made} (hb : b ∈ made) (hlive : b.live = true) :
    b.chunk ≤ a.current := by
  by_contra hgt
  obtain ⟨c, hc, -⟩ := (h.made b hb).inside
  obtain ⟨-, hpath⟩ := h.filled b.chunk c hc
  have hused : usedOf a b.chunk c = 0 := by
    rw [usedOf, if_neg (by omega), if_neg (by omega)]
  rw [hused] at hpath
  obtain ⟨hlo, hhi⟩ := hpath.mem (mem_blocksOf.mpr ⟨hb, hlive, rfl⟩)
  have := (h.made b hb).size_ge
  omega

/-- A round of the loop of `reset` walks one chunk. -/
theorem resetRound_sat (h : Inv R a m made) (hends : EndsOk a) {fuel : Nat}
    (hfuel : made.length < fuel) {s : ResetState} (hs : Midway a m made s) :
    Sat (Sum.elim (fun s' => Midway a m made s' ∧ a.current - s'.k < a.current - s.k)
      (Over a m made)) (resetRound R fuel a.current s) := by
  rw [resetRound]
  refine sat_bind (sat_ofOption fun c hc => hc) fun c' hc' => ?_
  obtain ⟨c, hc, hbase, hused⟩ := hs.ahead s.k c' le_rfl hs.le hc'
  obtain ⟨hle, hpath⟩ := h.filled s.k c hc
  have hend := hends s.k c hc
  have hto : (c'.base + c'.used).toNat = c.base.toNat + usedOf a s.k c := by
    rw [BitVec.toNat_add, hbase, hused]
    omega
  -- the headers are as they were: what was killed so far lies in chunks below this one
  have hheaders : ∀ b ∈ blocksOf made s.k, 8 ∣ b.hdr ∧ 16 ≤ b.size ∧
      s.mem.word32 b.hdr = BitVec.ofNat 32 b.size := by
    intro b hb
    obtain ⟨hmade, hlive, hk⟩ := mem_blocksOf.mp hb
    have hm := h.made b hmade
    refine ⟨hm.hdr_dvd, hm.size_ge, ?_⟩
    rw [← hm.header hlive]
    refine Mem.word32_congr fun x hlo hhi => hs.killed.keep x fun b' hb' => ?_
    obtain ⟨hmade', -, hlt⟩ := hb'
    obtain ⟨c₁, hc₁, -, hhi₁⟩ := (h.made b' hmade').inside
    obtain ⟨c₂, hc₂, hlo₂, -⟩ := hm.inside
    have hapart := h.ascending.apart hc₁ hc₂ (by omega)
    have hge := (h.made b' hmade').size_ge
    right
    rw [Made.word]
    omega
  have hlen : (blocksOf made s.k).length < fuel :=
    lt_of_le_of_lt (List.length_filter_le _ _) hfuel
  rw [killBlocks, LawfulMonad.bind_assoc]
  refine sat_bind (walk_sat (by rw [hto]; exact hend) (blocksOf made s.k) ⟨c'.base, s.mem, []⟩ fuel
    hlen (by dsimp only; rw [hto, hbase]; exact hpath) hheaders) fun w hw => ?_
  obtain ⟨hvisited, hq, hkilled⟩ := hw
  rw [List.nil_append] at hvisited
  rw [pure_eq, done_bind]
  have hextents : (s.chunks.set s.k { c' with used := 0#32 }).map Chunk.extent
      = a.chunks.map Chunk.extent := by
    refine Eq.trans (extent_set hc' ?_) hs.extents
    rfl
  have hkilled' : Killed m w.mem fun b => (b ∈ made ∧ b.live = true ∧ b.chunk < s.k) ∨
      b ∈ blocksOf made s.k :=
    hs.killed.trans hkilled (fun b hb => (h.made b hb.1).hdr_dvd)
      fun b hb => (h.made b (mem_blocksOf.mp hb).1).hdr_dvd
  have hwalks : Exact a made (s.walks ++ [w]) (s.k + 1) := by
    obtain ⟨hlen, hexact⟩ := hs.walks
    refine ⟨by rw [List.length_append, hlen]; rfl, fun k w' hk => ?_⟩
    rcases Nat.lt_or_ge k s.walks.length with hlt | hge
    · rw [List.getElem?_append_left hlt] at hk
      exact hexact k w' hk
    · have hk' : k = s.k := by
        have := (List.getElem?_eq_some_iff.mp hk).1
        rw [List.length_append, List.length_singleton] at this
        omega
      subst hk'
      rw [List.getElem?_append_right hge, hlen, Nat.sub_self] at hk
      injection hk with hk
      subst hk
      exact ⟨c, hc, hvisited, by rw [hq, hto]⟩
  dsimp only
  split
  · rename_i heq
    refine ⟨hextents, hkilled'.congr fun b => ?_, by rw [← heq]; exact hwalks⟩
    rw [mem_blocksOf]
    constructor
    · rintro (⟨h₁, h₂, -⟩ | ⟨h₁, h₂, -⟩)
      · exact ⟨h₁, h₂⟩
      · exact ⟨h₁, h₂⟩
    · rintro ⟨h₁, h₂⟩
      have := h.chunk_le h₁ h₂
      rcases Nat.lt_or_eq_of_le (heq ▸ this) with hlt | hk
      · exact .inl ⟨h₁, h₂, hlt⟩
      · exact .inr ⟨h₁, h₂, hk⟩
  · rename_i hne
    have hle' := hs.le
    refine ⟨⟨by dsimp only; omega, hextents, fun k c₁ hk₁ hk₂ hc₁ => ?_, hkilled'.congr fun b => ?_,
      hwalks⟩, by dsimp only; omega⟩
    · dsimp only at hk₁ hc₁
      rw [List.getElem?_set_ne (by omega)] at hc₁
      exact hs.ahead k c₁ (by omega) hk₂ hc₁
    · dsimp only
      rw [mem_blocksOf]
      constructor
      · rintro (⟨h₁, h₂, hk⟩ | ⟨h₁, h₂, hk⟩)
        · exact ⟨h₁, h₂, by omega⟩
        · exact ⟨h₁, h₂, by omega⟩
      · rintro ⟨h₁, h₂, hk⟩
        rcases Nat.lt_or_eq_of_le (Nat.le_of_lt_succ hk) with hlt | heq
        · exact .inl ⟨h₁, h₂, hlt⟩
        · exact .inr ⟨h₁, h₂, heq⟩

/-- The pointers after a reset: all of them dead. -/
def killAll (made : List Made) : List Made := made.map fun b => { b with live := false }

/-- **A call of `reset`** ends, walks exactly, and leaves every pointer dead. -/
theorem reset_sat (h : Inv R a m made) (hends : EndsOk a) {fuel : Nat}
    (hfuel : made.length < fuel) (hchunks : a.current < fuel) :
    Sat (fun r => Inv R r.1 r.2.1 (killAll made) ∧ Exact a made r.2.2 (a.current + 1))
      (reset R fuel a m) := by
  obtain ⟨c, hc, hmem⟩ := h.current
  rw [reset, hc]
  rw [ofOption, done_bind]
  dsimp only
  have hstart : Midway a m made ⟨0, a.chunks.set a.current { c with used := a.used }, m, []⟩ := by
    refine ⟨Nat.zero_le _, extent_set hc rfl, fun k c' _ hk hc' => ?_,
      Killed.refl m fun b hb => absurd hb.2.2 (Nat.not_lt_zero _), rfl, fun k w hw => by cases hw⟩
    dsimp only at hc'
    by_cases heq : k = a.current
    · subst heq
      rw [List.getElem?_set_self h.current_lt] at hc'
      injection hc' with hc'
      subst hc'
      refine ⟨c, hc, rfl, ?_⟩
      rw [usedOf, if_neg (lt_irrefl _), if_pos rfl]
    · rw [List.getElem?_set_ne (Ne.symm heq)] at hc'
      exact ⟨c', hc', rfl, by rw [usedOf, if_pos (by omega)]⟩
  refine sat_bind (iterate_sat (Midway a m made) (Over a m made) (fun s => a.current - s.k)
    (fun s hs => resetRound_sat h hends hfuel hs) fuel _ hstart (by dsimp only; omega))
    fun s hs => ?_
  obtain ⟨hextents, hkilled, hwalks⟩ := hs
  -- the cursor is not among the words killed
  have hcur : cursor s.mem = cursor m := by
    refine Mem.word32_congr fun x _ hx => hkilled.keep x fun b hb => ?_
    have := (h.bounds hb.1).1
    left
    rw [Made.word]
    omega
  have hco := h.cursorOk
  have hc₁ : CursorOk R.host s.mem := by
    refine ⟨hco.limit, ?_, ?_, ?_, ?_, ?_⟩
    · rw [hkilled.pages]
      exact hco.pages
    · rw [hkilled.pages]
      exact hco.positive
    · rw [hcur]
      exact hco.nonzero
    · rw [hcur]
      exact hco.aligned
    · rw [hcur, Mem.size_eq, hkilled.pages, ← Mem.size_eq]
      exact hco.inside
  refine sat_bind (sat_eq_done (Gen.fresh_sat R s.mem).ne_outOfFuel) fun r hr => ?_
  obtain ⟨g, m'⟩ := r
  obtain ⟨hg, hc₂, hcur₂, hbyte⟩ := fresh_keeps hc₁ hr
  have hlow : cursor m' = cursor m := hcur₂.trans hcur
  refine ⟨⟨hc₂, by dsimp only; rw [hlow]; exact h.low, h.chunkSize_dvd, h.chunkSize_lt, ?_, ?_, ?_, ?_,
    hg, ?_⟩, hwalks⟩
  · have hlen := congrArg List.length hextents
    rw [List.length_map, List.length_map] at hlen
    have := h.current_lt
    dsimp only
    omega
  · intro c' hc'
    obtain ⟨k, hk⟩ := List.mem_iff_getElem?.mp hc'
    obtain ⟨c₀, hc₀, hbase, hcap⟩ := extent_of_map hextents.symm hk
    have ht := h.taken c₀ (List.mem_of_getElem? hc₀)
    refine ⟨by rw [← hbase]; exact ht.ge, by rw [← hbase]; exact ht.base_dvd,
      by rw [← hcap]; exact ht.cap_dvd, by rw [← hcap]; exact ht.cap_lt, ?_⟩
    dsimp only
    rw [hlow, ← hbase, ← hcap]
    exact ht.inside
  · rw [Ascending, List.pairwise_iff_getElem]
    intro i j hi hj hij
    obtain ⟨ci, hci, hbi, hcapi⟩ := extent_of_map hextents.symm (List.getElem?_eq_getElem hi)
    obtain ⟨cj, hcj, hbj, -⟩ := extent_of_map hextents.symm (List.getElem?_eq_getElem hj)
    rw [← hbi, ← hcapi, ← hbj]
    exact h.ascending.apart hci hcj hij
  · intro k c' hk
    have hnone : blocksOf (killAll made) k = [] := by
      rw [blocksOf, killAll, List.filter_map, List.map_eq_nil_iff, List.filter_eq_nil_iff]
      simp
    have hused : ∀ chunks gen, usedOf ⟨chunks, 0, 0#32, a.chunkSize, gen⟩ k c' = 0 := by
      intro chunks gen
      rw [usedOf]
      dsimp only
      rw [if_neg (Nat.not_lt_zero _)]
      split
      · rfl
      · rfl
    rw [hnone]
    exact ⟨by rw [hused]; exact Nat.zero_le _, by rw [hused]; rfl⟩
  · intro b' hb'
    obtain ⟨b, hb, rfl⟩ := List.mem_map.mp hb'
    have hm := h.made b hb
    obtain ⟨hge, -⟩ := h.bounds hb
    obtain ⟨c₀, hc₀, hlo, hhi⟩ := hm.inside
    obtain ⟨c', hc', hbase, hcap⟩ := extent_of_map hextents hc₀
    refine ⟨hm.hdr_dvd, hm.size_dvd, hm.size_ge, hm.size_lt, ⟨c', hc', by rw [hbase]; exact hlo,
      by rw [hbase, hcap]; exact hhi⟩, hm.gen, ?_, fun h => by cases h⟩
    have hword : m'.word32 b.word = s.mem.word32 b.word :=
      Mem.word32_congr fun x hx _ => hbyte x (by rw [Made.word] at hx; omega)
    change m'.word32 b.word = Gen.DEAD
    rw [hword]
    cases hlive : b.live with
    | true => exact hkilled.dead b ⟨hb, hlive⟩
    | false =>
      by_cases hsame : ∃ b', (b' ∈ made ∧ b'.live = true) ∧ b'.word = b.word
      · obtain ⟨b', hb', heq⟩ := hsame
        rw [← heq]
        exact hkilled.dead b' hb'
      · have hw := hm.word
        rw [hlive] at hw
        refine Eq.trans (Mem.word32_congr fun x hx₁ hx₂ => hkilled.keep x fun b' hb' => ?_) hw
        have hne : b'.word ≠ b.word := fun heq => hsame ⟨b', hb', heq⟩
        have h8 := hm.hdr_dvd
        have h8' := (h.made b' hb'.1).hdr_dvd
        rw [Made.word] at hx₁ hx₂ hne
        rw [Made.word] at hne
        rw [Made.word]
        omega

theorem resetRound_mono {fuel current : Nat} (extra : Nat) {s : ResetState}
    {r : ResetState ⊕ ResetState} (h : resetRound R fuel current s = done r) :
    resetRound R (fuel + extra) current s = done r := by
  rw [resetRound] at h ⊢
  obtain ⟨c, hc, h⟩ := bind_eq_done h
  obtain ⟨⟨c', w⟩, hkill, h⟩ := bind_eq_done h
  rw [killBlocks] at hkill
  obtain ⟨w', hw, hkill⟩ := bind_eq_done hkill
  have hw' := iterate_mono (fun _ _ h => h) extra fuel _ _ hw
  rw [hc, done_bind, killBlocks, hw', done_bind, hkill, done_bind]
  exact h

theorem reset_mono {fuel : Nat} (extra : Nat) {r : Arena × Mem × List Walk}
    (h : reset R fuel a m = done r) : reset R (fuel + extra) a m = done r := by
  rw [reset] at h ⊢
  obtain ⟨c, hc, h⟩ := bind_eq_done h
  obtain ⟨s, hs, h⟩ := bind_eq_done h
  have hs' : iterate (resetRound R (fuel + extra) a.current) (fuel + extra) _ = done s :=
    iterate_mono (fun _ _ => resetRound_mono extra) extra fuel _ _ hs
  rw [hc, done_bind]
  dsimp only
  rw [hs', done_bind]
  exact h

/-- What a call of `reset` leaves, whatever the fuel. -/
theorem reset_returns (h : Inv R a m made) (hends : EndsOk a) (fuel : Nat) :
    Returns (fun r => Inv R r.1 r.2.1 (killAll made) ∧ Exact a made r.2.2 (a.current + 1))
      (reset R fuel a m) := by
  refine returns_iff.mpr fun r hr => ?_
  have hmore := reset_mono (made.length + a.current + 1) hr
  exact (reset_sat h hends (by omega) (by omega)).of_eq_done hmore

end Aipl.StdArena
