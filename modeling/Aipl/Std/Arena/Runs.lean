import Aipl.Std.Arena.Calls

/-! # Runs of an arena

A run starts with `make` and is made of calls of `alloc` and `reset` that return, with whatever else
the program does in between.  The pointers the arena made are recorded beside it.

* `reach_inv` — the invariant holds in every state a run reaches, while the sizes of its objects do
  not wrap and no used part ends at 2 GiB when the arena is reset.
* `reach_dead` — so a pointer made before a reset differs from the word it is compared with, and
  every reset's walks are exact.
* `not_every_reset_kills` — without that, a reset can leave pointers that still pass.
-/

namespace Aipl.StdArena

open Aipl.Lib Aipl.Lib.Outcome Aipl.Std Aipl.Compiler.Alloc

variable {R : Runtime}

/-- An arena, memory, and the pointers the arena made, less the dead ones whose word was handed out
again. -/
structure St where
  arena : Arena
  mem : Mem
  made : List Made

/-- What else a program does: it spares the headers of live blocks and the words that generations
are compared with, and memory it asks for does not move the cursor back. -/
structure Elsewhere (R : Runtime) (s : St) (m : Mem) : Prop where
  cursorOk : CursorOk R.host m
  cursor : (cursor s.mem).toNat ≤ (Compiler.Alloc.cursor m).toNat
  word : ∀ b ∈ s.made, ∀ x, b.word ≤ x → x < b.word + 4 → m.byte x = s.mem.byte x
  header : ∀ b ∈ s.made, b.live = true → ∀ x, b.hdr ≤ x → x < b.hdr + 4 → m.byte x = s.mem.byte x

/-- The chunk sizes that do not wrap when they are rounded up. -/
def ChunkSizeOk (chunkSize : BitVec 32) : Prop := chunkSize.toInt ≤ 2147483640

/-- The states an arena reaches from `make`, with objects whose sizes satisfy `sizes` and resets in
states that satisfy `ends`. -/
inductive Reach (R : Runtime) (sizes : BitVec 32 → Prop) (ends : Arena → Prop) : St → Prop where
  | make {m m' : Mem} {chunkSize : BitVec 32} {a : Arena} (hc : CursorOk R.host m)
      (hlow : 1024 ≤ (cursor m).toNat) (hchunk : ChunkSizeOk chunkSize)
      (hr : make R m chunkSize = done (a, m')) : Reach R sizes ends ⟨a, m', []⟩
  | alloc {s : St} {fuel : Nat} {size : BitVec 32} {p : Ptr} {a : Arena} {m : Mem}
      (hs : Reach R sizes ends s) (hsize : sizes size)
      (hr : alloc R fuel s.arena s.mem size = done (p, a, m)) :
      Reach R sizes ends ⟨a, m, handOut s.made (madeBy p a size)⟩
  | reset {s : St} {fuel : Nat} {a : Arena} {m : Mem} {walks : List Walk}
      (hs : Reach R sizes ends s) (hends : ends s.arena)
      (hr : reset R fuel s.arena s.mem = done (a, m, walks)) :
      Reach R sizes ends ⟨a, m, killAll s.made⟩
  | other {s : St} {m : Mem} (hs : Reach R sizes ends s) (hm : Elsewhere R s m) :
      Reach R sizes ends ⟨s.arena, m, s.made⟩

/-- **A new arena.** -/
theorem make_returns {m : Mem} {chunkSize : BitVec 32} (hc : CursorOk R.host m)
    (hlow : 1024 ≤ (cursor m).toNat) (hchunk : ChunkSizeOk chunkSize) :
    Returns (fun r => Inv R r.1 r.2 []) (make R m chunkSize) := by
  rw [ChunkSizeOk] at hchunk
  rw [make]
  refine returns_bind (Q := fun _ => 0 < chunkSize.toInt) (returns_require fun h => ?_)
    fun _ hpos => ?_
  · rw [BitVec.slt_eq_decide, decide_eq_true_eq] at h
    exact h
  have hn : 0 < chunkSize.toNat ∧ chunkSize.toNat ≤ 2147483640 := by
    have hlt := chunkSize.isLt
    rw [BitVec.toInt_eq_toNat_cond] at hchunk hpos
    split at hchunk
    · rw [if_pos ‹_›] at hpos
      omega
    · rw [if_neg ‹_›] at hpos
      omega
  have hround := toNat_round8 (n := chunkSize) (by omega)
  refine returns_bind (forever_keeps hc hlow (by decide) (by decide)) fun m₁ hm₁ => ?_
  obtain ⟨hc₁, hup₁, -⟩ := hm₁
  refine returns_bind (newChunk_returns hc₁ (by omega) (by omega) (dvd_toNat_round8 chunkSize))
    fun r hr => ?_
  obtain ⟨first, m₂⟩ := r
  obtain ⟨ht, -, hused, -, hc₂, -⟩ := hr
  refine returns_bind (sat_eq_done (Gen.fresh_sat R m₂).ne_outOfFuel).returns fun r hr => ?_
  obtain ⟨g, m₃⟩ := r
  obtain ⟨hg, hc₃, hcur₃, -⟩ := fresh_keeps hc₂ hr
  have hin := ht.inside
  have hge := ht.ge
  dsimp only at hin hge hc₂ hcur₃
  refine ⟨hc₃, ?_, dvd_toNat_round8 chunkSize, by dsimp only; omega, Nat.zero_lt_one, ?_,
    List.pairwise_singleton _ _, fun k c hk => ?_, hg, fun b hb => absurd hb List.not_mem_nil⟩
  · dsimp only
    rw [hcur₃]
    omega
  · intro c hmem
    rw [List.mem_singleton.mp hmem]
    exact ⟨hge, ht.base_dvd, ht.cap_dvd, ht.cap_lt, by dsimp only; rw [hcur₃]; exact hin⟩
  · have hmark : usedOf ⟨[first], 0, 0#32, round8 chunkSize, g⟩ k c = 0 := by
      rw [usedOf]
      dsimp only
      rw [if_neg (Nat.not_lt_zero _)]
      split
      · rfl
      · rfl
    dsimp only
    rw [hmark]
    exact ⟨Nat.zero_le _, rfl⟩

/-- **The invariant holds in every state reached.** -/
theorem reach_inv {s : St} (h : Reach R SizeOk EndsOk s) : Inv R s.arena s.mem s.made := by
  induction h with
  | make hc hlow hchunk hr => exact (make_returns hc hlow hchunk).of_eq_done hr
  | alloc _ hsize hr ih => exact ((alloc_returns ih hsize _).of_eq_done hr).1
  | reset _ hends hr ih => exact ((reset_returns ih hends _).of_eq_done hr).1
  | other _ hm ih => exact ih.frame hm.cursorOk hm.cursor hm.word hm.header

/-- Memory that is not full to its last byte has room behind every used part. -/
theorem Inv.endsOk {a : Arena} {m : Mem} {made : List Made} (h : Inv R a m made)
    (hcur : (cursor m).toNat < 2 ^ 31) : EndsOk a := by
  intro k c hk
  have hin := (h.taken c (List.mem_of_getElem? hk)).inside
  obtain ⟨hle, -⟩ := h.filled k c hk
  omega

/-- **A reset invalidates everything.**  In every state reached, a pointer made before the last
reset carries another generation than the word it is compared with, 8 bytes before its object; and a
reset ends, and visits exactly the headers of the blocks in use, each chunk's walk ending at its
used mark. -/
theorem reach_dead {s : St} (h : Reach R SizeOk EndsOk s) :
    (∀ b ∈ s.made, b.live = false → s.mem.word32 b.word ≠ b.gen) ∧
    (∀ (fuel : Nat) (size : BitVec 32) (p : Ptr) (a : Arena) (m : Mem), SizeOk size →
      alloc R fuel s.arena s.mem size = done (p, a, m) →
        (madeBy p a size).word + 8 = p.addr.toNat) ∧
    (EndsOk s.arena → ∀ fuel : Nat,
      (∀ (a : Arena) (m : Mem) (walks : List Walk), reset R fuel s.arena s.mem = done (a, m, walks) →
        Exact s.arena s.made walks (s.arena.current + 1)) ∧
      (s.made.length < fuel → s.arena.current < fuel →
        reset R fuel s.arena s.mem ≠ outOfFuel)) := by
  have hinv := reach_inv h
  refine ⟨fun b hb hdead => ?_, fun fuel size p a m hsize hr => ?_, fun hends fuel => ⟨?_, ?_⟩⟩
  · have hm := hinv.made b hb
    rw [hm.word, hdead]
    exact Ne.symm hm.gen
  · exact ((alloc_returns hinv hsize fuel).of_eq_done hr).2
  · intro a m walks hr
    exact ((reset_returns hinv hends fuel).of_eq_done hr).2
  · intro hfuel hchunks
    exact (reset_sat hinv hends hfuel hchunks).ne_outOfFuel

/-! ### Two runs: one object, and a reset -/

/-- An arena is made, makes one object, and is reset. -/
def once (m : Mem) (chunkSize size : BitVec 32) :
    Outcome (Ptr × Arena × Mem × Arena × Mem) := do
  let R : Runtime := ⟨hostAll, 1024#32⟩
  let (a₀, m₀) ← make R m chunkSize
  let (p, a₁, m₁) ← alloc R 2 a₀ m₀ size
  let (a₂, m₂, _) ← reset R 2 a₁ m₁
  pure (p, a₁, m₁, a₂, m₂)

theorem reach_once {sizes : BitVec 32 → Prop} {ends : Arena → Prop} {m m₁ m₂ : Mem}
    {chunkSize size : BitVec 32} {p : Ptr} {a₁ a₂ : Arena} (hc : CursorOk hostAll m)
    (hlow : 1024 ≤ (cursor m).toNat) (hchunk : ChunkSizeOk chunkSize) (hsize : sizes size)
    (hr : once m chunkSize size = done (p, a₁, m₁, a₂, m₂))
    (hends : Reach ⟨hostAll, 1024#32⟩ sizes ends ⟨a₁, m₁, [madeBy p a₁ size]⟩ → ends a₁) :
    Reach ⟨hostAll, 1024#32⟩ sizes ends ⟨a₂, m₂, killAll [madeBy p a₁ size]⟩ := by
  rw [once] at hr
  obtain ⟨⟨a₀, m₀⟩, h₀, hr⟩ := bind_eq_done hr
  obtain ⟨⟨p', a₁', m₁'⟩, h₁, hr⟩ := bind_eq_done hr
  obtain ⟨⟨a₂', m₂', walks⟩, h₂, hr⟩ := bind_eq_done hr
  obtain ⟨rfl, rfl, rfl, rfl, rfl⟩ : p' = p ∧ a₁' = a₁ ∧ m₁' = m₁ ∧ a₂' = a₂ ∧ m₂' = m₂ := by
    simpa using hr
  have hmake : Reach ⟨hostAll, 1024#32⟩ sizes ends ⟨a₀, m₀, []⟩ := .make hc hlow hchunk h₀
  have halloc := hmake.alloc hsize h₁
  exact halloc.reset (hends halloc) h₂

/-- In a fresh module the arena's object is dead after the reset. -/
theorem reach_dead_once : ∃ p a₁ m₁ a₂ m₂,
    once freshMem 64#32 48#32 = done (p, a₁, m₁, a₂, m₂) ∧
      m₂.word32 (madeBy p a₁ 48#32).word ≠ p.gen := by
  obtain ⟨p, a₁, m₁, a₂, m₂, hr, hcur⟩ : ∃ p a₁ m₁ a₂ m₂,
      once freshMem 64#32 48#32 = done (p, a₁, m₁, a₂, m₂) ∧ cursor m₁ = 1160#32 := by
    refine ⟨_, _, _, _, _, rfl, ?_⟩
    rfl
  have hsize : SizeOk 48#32 := by
    rw [SizeOk]
    decide
  have hchunk : ChunkSizeOk 64#32 := by
    rw [ChunkSizeOk]
    decide
  have hreach := reach_once (good_start start_freshMem).cursorOk (by decide) hchunk hsize hr
    fun h => (reach_inv h).endsOk (by rw [hcur]; decide)
  exact ⟨p, a₁, m₁, a₂, m₂, hr, (reach_dead hreach).1 { madeBy p a₁ 48#32 with live := false }
    List.mem_cons_self rfl⟩

/-- Memory at its limit of 2 GiB, 136 bytes from full. -/
def topMem : Mem := (Mem.ofPages 32768 fun _ => 0#8).setWord32 0 2147483512#32

theorem cursorOk_topMem : CursorOk hostAll topMem := by
  have hcur : cursor topMem = 2147483512#32 := Mem.word32_setWord32_self _ _ _
  refine ⟨le_rfl, le_rfl, by decide, ?_, ?_, ?_⟩
  · rw [hcur]
    decide
  · rw [hcur]
    decide
  · rw [hcur, Mem.size_eq]
    decide

/-- A chunk that is full to 2 GiB is not walked: its end is negative as a signed word. -/
theorem once_topMem : ∃ p a₁ m₁ a₂ m₂, once topMem 64#32 48#32 = done (p, a₁, m₁, a₂, m₂) ∧
    m₂.word32 (madeBy p a₁ 48#32).word = p.gen := by
  refine ⟨_, _, _, _, _, rfl, ?_⟩
  rfl

/-- Without a bound on the ends, a reset can leave a pointer that still passes. -/
theorem not_every_reset_kills :
    ¬ ∀ (R : Runtime) (s : St), Reach R (fun _ => True) (fun _ => True) s →
      ∀ b ∈ s.made, b.live = false → s.mem.word32 b.word ≠ b.gen := by
  intro h
  obtain ⟨p, a₁, m₁, a₂, m₂, hr, hword⟩ := once_topMem
  have hcur : cursor topMem = 2147483512#32 := Mem.word32_setWord32_self _ _ _
  have hchunk : ChunkSizeOk 64#32 := by
    rw [ChunkSizeOk]
    decide
  have hreach := @reach_once (fun _ => True) (fun _ => True) _ _ _ _ _ _ _ _ cursorOk_topMem
    (by rw [hcur]; decide) hchunk trivial hr fun _ => trivial
  exact h _ _ hreach _ List.mem_cons_self rfl hword

end Aipl.StdArena
