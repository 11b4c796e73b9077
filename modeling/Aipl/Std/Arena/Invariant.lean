import Aipl.Std.Arena.Model

/-! # What holds of an arena between calls

The pointers an arena made are kept beside it, oldest first, each with its block: those made since
the last reset are live, and a dead one is forgotten once the word its generation is compared with
is handed out again.

* `Path` — blocks one after the other, from one address to another.
* `Inv` — the invariant: the live blocks of each chunk fill it up to its used mark, their headers
  hold their sizes, and the words of dead pointers are `DEAD`.
* `Inv.frame` — it survives every change of memory that spares those words.
* `Inv.append`, `Inv.next` — taking a new chunk, and going on to the next one.
-/

namespace Aipl.StdArena

open Aipl.Lib Aipl.Lib.Outcome Aipl.Std Aipl.Compiler.Alloc

/-- A pointer the arena made: its block's header and size, its generation, its chunk, and whether it
was made since the last reset. -/
structure Made where
  hdr : Nat
  size : Nat
  gen : BitVec 32
  chunk : Nat
  live : Bool

/-- Where the word lies that the pointer's generation is compared with. -/
def Made.word (b : Made) : Nat := b.hdr + 8

/-- The blocks `bs`, one after the other, go from `q` to `e`. -/
def Path : Nat → List Made → Nat → Prop
  | q, [], e => q = e
  | q, b :: bs, e => b.hdr = q ∧ Path (q + b.size) bs e

theorem Path.snoc {e : Nat} {b : Made} : ∀ {bs : List Made} {q : Nat}, Path q bs e → b.hdr = e →
    Path q (bs ++ [b]) (e + b.size)
  | [], _, h, hb => by
      obtain rfl : _ = e := h
      exact ⟨hb, rfl⟩
  | _ :: _, _, ⟨h₁, h₂⟩, hb => ⟨h₁, h₂.snoc hb⟩

theorem Path.le {e : Nat} : ∀ {bs : List Made} {q : Nat}, Path q bs e → q ≤ e
  | [], _, h => Nat.le_of_eq h
  | b :: _, q, ⟨_, h⟩ => (Nat.le_add_right q b.size).trans h.le

theorem Path.mem {e : Nat} {b : Made} : ∀ {bs : List Made} {q : Nat}, Path q bs e → b ∈ bs →
    q ≤ b.hdr ∧ b.hdr + b.size ≤ e
  | b' :: _, q, ⟨h₁, h₂⟩, hb => by
      rcases List.mem_cons.mp hb with rfl | hb
      · exact ⟨Nat.le_of_eq h₁.symm, h₁ ▸ h₂.le⟩
      · obtain ⟨hlo, hhi⟩ := h₂.mem hb
        exact ⟨(Nat.le_add_right q b'.size).trans hlo, hhi⟩

/-- The live blocks of chunk `k`, in order. -/
def blocksOf (made : List Made) (k : Nat) : List Made :=
  made.filter fun b => b.live && b.chunk == k

theorem mem_blocksOf {made : List Made} {k : Nat} {b : Made} :
    b ∈ blocksOf made k ↔ b ∈ made ∧ b.live = true ∧ b.chunk = k := by
  simp [blocksOf]

/-- How much of chunk `k` is in use: the current chunk's mark is the arena's own, those before it
hold theirs, and those after it are empty. -/
def usedOf (a : Arena) (k : Nat) (c : Chunk) : Nat :=
  if k < a.current then c.used.toNat else if k = a.current then a.used.toNat else 0

/-- A chunk lies above the runtime's own words, and in memory that was handed out. -/
structure Taken (m : Mem) (c : Chunk) : Prop where
  ge : 1024 ≤ c.base.toNat
  base_dvd : 8 ∣ c.base.toNat
  cap_dvd : 8 ∣ c.cap.toNat
  cap_lt : c.cap.toNat < 2 ^ 31
  inside : c.base.toNat + c.cap.toNat ≤ (cursor m).toNat

/-- What memory says of a pointer. -/
structure Marked (m : Mem) (chunks : List Chunk) (b : Made) : Prop where
  hdr_dvd : 8 ∣ b.hdr
  size_dvd : 8 ∣ b.size
  size_ge : 16 ≤ b.size
  size_lt : b.size < 2 ^ 32
  inside : ∃ c, chunks[b.chunk]? = some c ∧ c.base.toNat ≤ b.hdr ∧
    b.hdr + b.size ≤ c.base.toNat + c.cap.toNat
  gen : b.gen ≠ Gen.DEAD
  word : m.word32 b.word = if b.live then b.gen else Gen.DEAD
  header : b.live = true → m.word32 b.hdr = BitVec.ofNat 32 b.size

/-- Each chunk lies below those taken later. -/
def Ascending (chunks : List Chunk) : Prop :=
  chunks.Pairwise fun c c' => c.base.toNat + c.cap.toNat ≤ c'.base.toNat

/-- **The invariant of an arena.** -/
structure Inv (R : Runtime) (a : Arena) (m : Mem) (made : List Made) : Prop where
  cursorOk : CursorOk R.host m
  low : 1024 ≤ (cursor m).toNat
  chunkSize_dvd : 8 ∣ a.chunkSize.toNat
  chunkSize_lt : a.chunkSize.toNat < 2 ^ 31
  current_lt : a.current < a.chunks.length
  taken : ∀ c ∈ a.chunks, Taken m c
  ascending : Ascending a.chunks
  filled : ∀ k c, a.chunks[k]? = some c → usedOf a k c ≤ c.cap.toNat ∧
    Path c.base.toNat (blocksOf made k) (c.base.toNat + usedOf a k c)
  gen : a.gen ≠ Gen.DEAD
  made : ∀ b ∈ made, Marked m a.chunks b

variable {R : Runtime} {a : Arena} {m : Mem} {made : List Made}

theorem Inv.current (h : Inv R a m made) : ∃ c, a.chunks[a.current]? = some c ∧ c ∈ a.chunks :=
  ⟨_, List.getElem?_eq_getElem h.current_lt, List.getElem_mem h.current_lt⟩

/-- Two chunks share no byte. -/
theorem Ascending.apart {chunks : List Chunk} (h : Ascending chunks) {i j : Nat} {c c' : Chunk}
    (hi : chunks[i]? = some c) (hj : chunks[j]? = some c') (hlt : i < j) :
    c.base.toNat + c.cap.toNat ≤ c'.base.toNat := by
  obtain ⟨hi', rfl⟩ := List.getElem?_eq_some_iff.mp hi
  obtain ⟨hj', rfl⟩ := List.getElem?_eq_some_iff.mp hj
  exact List.pairwise_iff_getElem.mp h i j hi' hj' hlt

/-- A pointer's block lies between the runtime's words and the cursor. -/
theorem Inv.bounds (h : Inv R a m made) {b : Made} (hb : b ∈ made) :
    1024 ≤ b.hdr ∧ b.hdr + b.size ≤ (cursor m).toNat := by
  obtain ⟨c, hc, hlo, hhi⟩ := (h.made b hb).inside
  have ht := h.taken c (List.mem_of_getElem? hc)
  exact ⟨ht.ge.trans hlo, hhi.trans ht.inside⟩

theorem Marked.congr {m' : Mem} {chunks chunks' : List Chunk} {b : Made} (hb : Marked m chunks b)
    (hword : ∀ x, b.word ≤ x → x < b.word + 4 → m'.byte x = m.byte x)
    (hheader : b.live = true → ∀ x, b.hdr ≤ x → x < b.hdr + 4 → m'.byte x = m.byte x)
    (hinside : ∃ c, chunks'[b.chunk]? = some c ∧ c.base.toNat ≤ b.hdr ∧
      b.hdr + b.size ≤ c.base.toNat + c.cap.toNat) : Marked m' chunks' b := by
  refine ⟨hb.hdr_dvd, hb.size_dvd, hb.size_ge, hb.size_lt, hinside, hb.gen, ?_, fun hlive => ?_⟩
  · rw [Mem.word32_congr hword, hb.word]
  · rw [Mem.word32_congr (hheader hlive), hb.header hlive]

/-- **Frame.**  The invariant needs of memory the cursor, the words generations are compared with,
and the headers of live blocks. -/
theorem Inv.frame {m' : Mem} (h : Inv R a m made) (hc : CursorOk R.host m')
    (hcur : (cursor m).toNat ≤ (cursor m').toNat)
    (hword : ∀ b ∈ made, ∀ x, b.word ≤ x → x < b.word + 4 → m'.byte x = m.byte x)
    (hheader : ∀ b ∈ made, b.live = true → ∀ x, b.hdr ≤ x → x < b.hdr + 4 →
      m'.byte x = m.byte x) : Inv R a m' made := by
  refine ⟨hc, h.low.trans hcur, h.chunkSize_dvd, h.chunkSize_lt, h.current_lt, fun c hmem => ?_,
    h.ascending, h.filled, h.gen, fun b hb => ?_⟩
  · have ht := h.taken c hmem
    exact ⟨ht.ge, ht.base_dvd, ht.cap_dvd, ht.cap_lt, ht.inside.trans hcur⟩
  · have hm := h.made b hb
    exact hm.congr (hword b hb) (hheader b hb) hm.inside

/-! ### New chunks -/

theorem fresh_keeps {g : BitVec 32} {m' : Mem} (hc : CursorOk R.host m)
    (hr : Gen.fresh R m = done (g, m')) :
    g ≠ Gen.DEAD ∧ CursorOk R.host m' ∧ cursor m' = cursor m ∧
      ∀ x, 60 ≤ x → m'.byte x = m.byte x := by
  obtain ⟨hg, hsame⟩ := (Gen.fresh_sat R m).of_eq_done hr
  obtain ⟨hc', hcur⟩ := CursorOk.sameOutside hc hsame (by decide)
  exact ⟨hg, hc', hcur, fun x hx => hsame.byte x (.inr hx)⟩

/-- An object that is never freed lies above all that was handed out. -/
theorem forever_keeps {size : BitVec 32} (hc : CursorOk R.host m) (hlow : 1024 ≤ (cursor m).toNat)
    (hsize : 8 ≤ size.toNat) (hlt : size.toNat ≤ 1024) :
    Returns (fun m' => CursorOk R.host m' ∧ (cursor m).toNat ≤ (cursor m').toNat ∧
      ∀ x, 60 ≤ x → x < (cursor m).toNat → m'.byte x = m.byte x) (Gen.forever R m size) := by
  have h8 : (size + 8#32).toNat = size.toNat + 8 := by
    have hc : (8#32).toNat = 8 := rfl
    rw [BitVec.toNat_add, hc]
    omega
  rw [Gen.forever]
  refine returns_bind (memAlloc_returns hc (by omega)) fun r hr => ?_
  obtain ⟨base, m₁⟩ := r
  obtain ⟨rfl, hc₁, hup, hbyte₁⟩ := hr
  dsimp only at hc₁ hup hbyte₁
  refine returns_bind (Q := fun r => Gen.fresh R m₁ = done r) (returns_iff.mpr fun _ h => h)
    fun r hr => ?_
  obtain ⟨g, m₂⟩ := r
  obtain ⟨-, hc₂, hcur₂, hbyte₂⟩ := fresh_keeps hc₁ hr
  refine (store32_sat R m₂ (cursor m) g).returns.mono fun m₃ hm₃ => ?_
  obtain ⟨-, rfl⟩ := hm₃
  have hsame : Mem.SameOutside (cursor m).toNat ((cursor m).toNat + 4) m₂
      (m₂.setWord32 (cursor m).toNat g) := Mem.sameOutside_write le_rfl le_rfl
  obtain ⟨hc₃, hcur₃⟩ := CursorOk.sameOutside hc₂ hsame (by omega)
  refine ⟨hc₃, by rw [hcur₃, hcur₂]; omega, fun x h₁ h₂ => ?_⟩
  rw [hsame.byte x (.inl h₂), hbyte₂ x h₁, hbyte₁ x (by omega)]

/-- A new chunk lies above all that was handed out. -/
theorem newChunk_returns {size : BitVec 32} (hc : CursorOk R.host m)
    (hlow : 1024 ≤ (cursor m).toNat) (hlt : size.toNat < 2 ^ 31) (hdvd : 8 ∣ size.toNat) :
    Returns (fun r => Taken r.2 r.1 ∧ r.1.cap = size ∧ r.1.used = 0#32 ∧
      (cursor m).toNat ≤ r.1.base.toNat ∧ CursorOk R.host r.2 ∧
      ∀ x, 60 ≤ x → x < (cursor m).toNat → r.2.byte x = m.byte x) (newChunk R m size) := by
  rw [newChunk]
  refine returns_bind (forever_keeps hc hlow (by decide) (by decide)) fun m₁ hm₁ => ?_
  obtain ⟨hc₁, hup₁, hbyte₁⟩ := hm₁
  refine returns_bind (memAlloc_returns hc₁ (by omega)) fun r hr => ?_
  obtain ⟨base, m₂⟩ := r
  obtain ⟨rfl, hc₂, hup₂, hbyte₂⟩ := hr
  dsimp only at hc₂ hup₂ hbyte₂
  have hal := hc₁.aligned
  refine ⟨⟨hlow.trans hup₁, hal, hdvd, hlt, hup₂⟩, rfl, rfl, hup₁, hc₂, fun x h₁ h₂ => ?_⟩
  dsimp only
  rw [hbyte₂ x (by omega), hbyte₁ x h₁ h₂]

/-- A chunk at the end of the list, above all the others. -/
theorem Inv.append {c : Chunk} {m' : Mem} (h : Inv R a m made) (ht : Taken m' c)
    (hbase : (cursor m).toNat ≤ c.base.toNat) (hc : CursorOk R.host m')
    (hbyte : ∀ x, 60 ≤ x → x < (cursor m).toNat → m'.byte x = m.byte x) :
    Inv R { a with chunks := a.chunks ++ [c] } m' made := by
  have hcur : (cursor m).toNat ≤ (cursor m').toNat :=
    hbase.trans ((Nat.le_add_right _ _).trans ht.inside)
  have hframe : Inv R a m' made := by
    refine h.frame hc hcur (fun b hb x h₁ h₂ => ?_) fun b hb _ x h₁ h₂ => ?_
    · obtain ⟨hlo, hhi⟩ := h.bounds hb
      have := (h.made b hb).size_ge
      rw [Made.word] at h₁ h₂
      exact hbyte x (by omega) (by omega)
    · obtain ⟨hlo, hhi⟩ := h.bounds hb
      have := (h.made b hb).size_ge
      exact hbyte x (by omega) (by omega)
  have hlen := h.current_lt
  refine ⟨hc, hframe.low, h.chunkSize_dvd, h.chunkSize_lt, ?_, ?_, ?_, ?_, h.gen, fun b hb => ?_⟩
  · dsimp only
    rw [List.length_append]
    omega
  · intro c' hc'
    rcases List.mem_append.mp hc' with hc' | hc'
    · exact hframe.taken c' hc'
    · rw [List.mem_singleton.mp hc']
      exact ht
  · refine List.pairwise_append.mpr ⟨h.ascending, List.pairwise_singleton _ _, fun c₁ h₁ c₂ h₂ => ?_⟩
    rw [List.mem_singleton.mp h₂]
    exact (h.taken c₁ h₁).inside.trans hbase
  · intro k c' hk
    rcases Nat.lt_or_ge k a.chunks.length with hlt | hge
    · rw [List.getElem?_append_left hlt] at hk
      exact h.filled k c' hk
    · -- no block lies in the new chunk
      have hused : usedOf { a with chunks := a.chunks ++ [c] } k c' = 0 := by
        rw [usedOf]
        dsimp only
        rw [if_neg (by omega), if_neg (by omega)]
      have hnone : blocksOf made k = [] := by
        rw [List.eq_nil_iff_forall_not_mem]
        intro b hb
        obtain ⟨hmade, -, rfl⟩ := mem_blocksOf.mp hb
        obtain ⟨c'', hc'', -⟩ := (h.made b hmade).inside
        rw [List.getElem?_eq_none hge] at hc''
        cases hc''
      rw [hused, hnone]
      exact ⟨Nat.zero_le _, rfl⟩
  · have hm := hframe.made b hb
    obtain ⟨c', hc', hin⟩ := hm.inside
    refine hm.congr (fun _ _ _ => rfl) (fun _ _ _ _ => rfl) ⟨c', ?_, hin⟩
    rw [List.getElem?_append_left (List.getElem?_eq_some_iff.mp hc').1]
    exact hc'

/-- Going on to the next chunk, which is there: the one that is left keeps its mark. -/
theorem Inv.next {c : Chunk} (h : Inv R a m made) (hc : a.chunks[a.current]? = some c)
    (hlt : a.current + 1 < a.chunks.length) :
    Inv R { a with chunks := a.chunks.set a.current { c with used := a.used }
                   current := a.current + 1, used := 0#32 } m made := by
  have hmem := List.mem_of_getElem? hc
  have hget : ∀ k c', (a.chunks.set a.current { c with used := a.used })[k]? = some c' →
      ∃ c₀, a.chunks[k]? = some c₀ ∧ c'.base = c₀.base ∧ c'.cap = c₀.cap ∧
        (k = a.current → c'.used = a.used) ∧ (k ≠ a.current → c' = c₀) := by
    intro k c' hk
    by_cases heq : k = a.current
    · subst heq
      rw [List.getElem?_set_self h.current_lt] at hk
      injection hk with hk
      subst hk
      exact ⟨c, hc, rfl, rfl, fun _ => rfl, fun hne => absurd rfl hne⟩
    · rw [List.getElem?_set_ne (Ne.symm heq)] at hk
      exact ⟨c', hk, rfl, rfl, fun h => absurd h heq, fun _ => rfl⟩
  refine ⟨h.cursorOk, h.low, h.chunkSize_dvd, h.chunkSize_lt, by simpa using hlt, ?_, ?_, ?_, h.gen,
    fun b hb => ?_⟩
  · intro c' hc'
    rcases List.mem_or_eq_of_mem_set hc' with hc' | rfl
    · exact h.taken c' hc'
    · have ht := h.taken c hmem
      exact ⟨ht.ge, ht.base_dvd, ht.cap_dvd, ht.cap_lt, ht.inside⟩
  · rw [Ascending, List.pairwise_iff_getElem]
    intro i j hi hj hij
    obtain ⟨ci, hci, hbi, hcapi, -⟩ := hget i _ (List.getElem?_eq_getElem hi)
    obtain ⟨cj, hcj, hbj, -, -⟩ := hget j _ (List.getElem?_eq_getElem hj)
    rw [hbi, hcapi, hbj]
    exact h.ascending.apart hci hcj hij
  · intro k c' hk
    obtain ⟨c₀, hc₀, hbase, hcap, hcurr, hne⟩ := hget k c' hk
    have hused : usedOf
        { a with chunks := a.chunks.set a.current { c with used := a.used }
                 current := a.current + 1, used := 0#32 } k c' = usedOf a k c₀ := by
      rw [usedOf, usedOf]
      dsimp only
      rcases Nat.lt_trichotomy k a.current with hk | hk | hk
      · rw [if_pos (by omega), if_pos hk, hne (by omega)]
      · rw [if_pos (by omega), if_neg (by omega), if_pos hk, hcurr hk]
      · rw [if_neg (by omega), if_neg (by omega : ¬ k < a.current), if_neg (by omega : ¬ k = a.current)]
        split
        · rfl
        · rfl
    rw [hused, hbase, hcap]
    exact h.filled k c₀ hc₀
  · have hm := h.made b hb
    obtain ⟨c', hc', hlo, hhi⟩ := hm.inside
    refine hm.congr (fun _ _ _ => rfl) (fun _ _ _ _ => rfl) ?_
    by_cases heq : b.chunk = a.current
    · rw [heq] at hc' ⊢
      obtain rfl : c' = c := Option.some_injective _ (hc'.symm.trans hc)
      exact ⟨_, List.getElem?_set_self h.current_lt, hlo, hhi⟩
    · exact ⟨c', by rw [List.getElem?_set_ne (Ne.symm heq)]; exact hc', hlo, hhi⟩

end Aipl.StdArena
