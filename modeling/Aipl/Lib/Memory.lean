import Mathlib.Data.BitVec
import Mathlib.Order.Interval.Finset.Nat

/-! # Library — linear memory

A byte-addressed memory of whole 64 KiB pages, read and written little-endian.  Reads and writes
of `k` bytes are stated for every `k`, so that the words of 8, 32 and 64 bits share their lemmas.
Nothing here names a program.

* `read_write_self`, `read_write_disjoint` — a read after a write.
* `read_congr` — a read depends only on the bytes it reads.
* `Chain` — a list threaded through memory.
* `sum_length_le` — disjoint blocks take together at most what there is.
-/

namespace Aipl.Lib

/-- Bytes in a page. -/
def pageSize : Nat := 65536

/-- A linear memory: its pages, their size in bytes, and the bytes. -/
structure Mem where
  pages : Nat
  size : Nat
  size_eq : size = pages * pageSize
  byte : Nat → BitVec 8

namespace Mem

/-- A memory of `pages` pages. -/
def ofPages (pages : Nat) (byte : Nat → BitVec 8) : Mem := ⟨pages, pages * pageSize, rfl, byte⟩

/-- The little-endian number in the `k` bytes at `a`. -/
def read (m : Mem) (a : Nat) : Nat → Nat
  | 0 => 0
  | k + 1 => (m.byte a).toNat + 256 * m.read (a + 1) k

/-- The memory with the low `k` bytes of `v` stored at `a`. -/
def write (m : Mem) (a k v : Nat) : Mem :=
  { m with byte := fun x => if a ≤ x ∧ x < a + k then BitVec.ofNat 8 (v / 256 ^ (x - a))
                            else m.byte x }

/-- The word of `32` bits at `a`. -/
def word32 (m : Mem) (a : Nat) : BitVec 32 := BitVec.ofNat 32 (m.read a 4)

/-- The word of `64` bits at `a`. -/
def word64 (m : Mem) (a : Nat) : BitVec 64 := BitVec.ofNat 64 (m.read a 8)

def setWord32 (m : Mem) (a : Nat) (v : BitVec 32) : Mem := m.write a 4 v.toNat

def setWord64 (m : Mem) (a : Nat) (v : BitVec 64) : Mem := m.write a 8 v.toNat

@[simp] theorem size_write (m : Mem) (a k v : Nat) : (m.write a k v).size = m.size := rfl

@[simp] theorem pages_setWord32 (m : Mem) (a : Nat) (v : BitVec 32) :
    (m.setWord32 a v).pages = m.pages := rfl

theorem size_mono {m m' : Mem} (h : m.pages ≤ m'.pages) : m.size ≤ m'.size := by
  rw [m.size_eq, m'.size_eq]
  exact Nat.mul_le_mul_right _ h

@[simp] theorem size_setWord32 (m : Mem) (a : Nat) (v : BitVec 32) :
    (m.setWord32 a v).size = m.size := rfl

theorem byte_write_of_not_mem {m : Mem} {a k v x : Nat} (h : x < a ∨ a + k ≤ x) :
    (m.write a k v).byte x = m.byte x := by
  simp only [write]
  rw [if_neg (by omega)]

theorem byte_write_of_mem {m : Mem} {a k v x : Nat} (h₁ : a ≤ x) (h₂ : x < a + k) :
    (m.write a k v).byte x = BitVec.ofNat 8 (v / 256 ^ (x - a)) := by
  simp only [write]
  rw [if_pos ⟨h₁, h₂⟩]

theorem read_congr {m m' : Mem} : ∀ {k a : Nat},
    (∀ x, a ≤ x → x < a + k → m.byte x = m'.byte x) → m.read a k = m'.read a k
  | 0, _, _ => rfl
  | k + 1, a, h => by
      have ih : m.read (a + 1) k = m'.read (a + 1) k :=
        read_congr fun x h₁ h₂ => h x (by omega) (by omega)
      rw [read, read, h a (Nat.le_refl a) (by omega), ih]

/-- The bytes of `v` read back as `v`, up to the bytes there are. -/
theorem read_of_bytes {m : Mem} {v : Nat} : ∀ {k a : Nat},
    (∀ i < k, m.byte (a + i) = BitVec.ofNat 8 (v / 256 ^ i)) → m.read a k = v % 256 ^ k
  | 0, _, _ => by simp [read, Nat.mod_one]
  | k + 1, a, h => by
      have ih : m.read (a + 1) k = v / 256 % 256 ^ k := by
        refine read_of_bytes fun i hi => ?_
        have := h (i + 1) (by omega)
        rw [show a + 1 + i = a + (i + 1) by omega, this, pow_succ, Nat.mul_comm,
          ← Nat.div_div_eq_div_mul]
      have h0 := h 0 (Nat.succ_pos k)
      rw [Nat.add_zero, pow_zero, Nat.div_one] at h0
      have hpow : 256 ^ (k + 1) = 256 * 256 ^ k := by rw [Nat.pow_succ, Nat.mul_comm]
      rw [read, ih, h0, BitVec.toNat_ofNat, hpow, Nat.mod_mul]

theorem read_write_self (m : Mem) (a k v : Nat) : (m.write a k v).read a k = v % 256 ^ k := by
  refine read_of_bytes fun i hi => ?_
  rw [byte_write_of_mem (by omega) (by omega), Nat.add_sub_cancel_left]

theorem read_write_disjoint {m : Mem} {a k v b j : Nat} (h : b + j ≤ a ∨ a + k ≤ b) :
    (m.write a k v).read b j = m.read b j :=
  read_congr fun _ _ _ => byte_write_of_not_mem (by omega)

theorem word32_setWord32_self (m : Mem) (a : Nat) (v : BitVec 32) :
    (m.setWord32 a v).word32 a = v := by
  rw [word32, setWord32, read_write_self]
  apply BitVec.eq_of_toNat_eq
  have hv := v.isLt
  rw [BitVec.toNat_ofNat]
  omega

theorem word32_congr {m m' : Mem} {a : Nat} (h : ∀ x, a ≤ x → x < a + 4 → m.byte x = m'.byte x) :
    m.word32 a = m'.word32 a := by
  rw [word32, word32, read_congr h]

theorem word32_write_disjoint {m : Mem} {a k v b : Nat} (h : b + 4 ≤ a ∨ a + k ≤ b) :
    (m.write a k v).word32 b = m.word32 b := by
  rw [word32, word32, read_write_disjoint h]

/-! ### Frames -/

/-- `m'` has the size of `m`, and its bytes outside `[lo, hi)`. -/
structure SameOutside (lo hi : Nat) (m m' : Mem) : Prop where
  pages : m'.pages = m.pages
  byte : ∀ x, x < lo ∨ hi ≤ x → m'.byte x = m.byte x

theorem SameOutside.refl (lo hi : Nat) (m : Mem) : SameOutside lo hi m m := ⟨rfl, fun _ _ => rfl⟩

theorem SameOutside.trans {lo hi : Nat} {m₁ m₂ m₃ : Mem} (h : SameOutside lo hi m₁ m₂)
    (h' : SameOutside lo hi m₂ m₃) : SameOutside lo hi m₁ m₃ :=
  ⟨h'.pages.trans h.pages, fun x hx => (h'.byte x hx).trans (h.byte x hx)⟩

theorem SameOutside.mono {lo hi lo' hi' : Nat} {m m' : Mem} (h : SameOutside lo hi m m')
    (hlo : lo' ≤ lo) (hhi : hi ≤ hi') : SameOutside lo' hi' m m' :=
  ⟨h.pages, fun x hx => h.byte x (by omega)⟩

theorem SameOutside.size {lo hi : Nat} {m m' : Mem} (h : SameOutside lo hi m m') :
    m'.size = m.size := by
  rw [m'.size_eq, m.size_eq, h.pages]

theorem SameOutside.word32 {lo hi a : Nat} {m m' : Mem} (h : SameOutside lo hi m m')
    (ha : a + 4 ≤ lo ∨ hi ≤ a) : m'.word32 a = m.word32 a :=
  word32_congr fun x _ _ => h.byte x (by omega)

theorem sameOutside_write {lo hi a k v : Nat} {m : Mem} (hlo : lo ≤ a) (hhi : a + k ≤ hi) :
    SameOutside lo hi m (m.write a k v) :=
  ⟨rfl, fun _ _ => byte_write_of_not_mem (by omega)⟩

theorem byte_write_zero {a k x : Nat} {m : Mem} (h₁ : a ≤ x) (h₂ : x < a + k) :
    (m.write a k 0).byte x = 0#8 := by
  rw [byte_write_of_mem h₁ h₂, Nat.zero_div]

/-! ### Runs of bytes -/

/-- The `n` bytes from `a` on. -/
def bytes (m : Mem) (a n : Nat) : List (BitVec 8) := (List.range n).map fun i => m.byte (a + i)

/-- The memory with the low byte of `v` at `a`. -/
def setByte (m : Mem) (a : Nat) (v : BitVec 32) : Mem := m.write a 1 v.toNat

@[simp] theorem length_bytes (m : Mem) (a n : Nat) : (m.bytes a n).length = n := by
  simp [bytes]

theorem bytes_congr {m m' : Mem} {a b n : Nat} (h : ∀ i < n, m'.byte (b + i) = m.byte (a + i)) :
    m'.bytes b n = m.bytes a n :=
  List.map_congr_left fun i hi => h i (List.mem_range.mp hi)

theorem bytes_add (m : Mem) (a n k : Nat) : m.bytes a (n + k) = m.bytes a n ++ m.bytes (a + n) k := by
  simp [bytes, List.range_add, Nat.add_assoc]

theorem bytes_eq_map {m : Mem} {a n : Nat} {c : Nat → BitVec 8} (h : ∀ i < n, m.byte (a + i) = c i) :
    m.bytes a n = (List.range n).map c :=
  List.map_congr_left fun i hi => h i (List.mem_range.mp hi)

theorem take_bytes (m : Mem) (a : Nat) {k n : Nat} (h : k ≤ n) : (m.bytes a n).take k = m.bytes a k := by
  rw [← Nat.add_sub_cancel' h, bytes_add, List.take_left' (length_bytes m a k)]

theorem drop_bytes (m : Mem) (a : Nat) {k n : Nat} (h : k ≤ n) :
    (m.bytes a n).drop k = m.bytes (a + k) (n - k) := by
  rw [← Nat.add_sub_cancel' h, bytes_add, List.drop_left' (length_bytes m a k),
    Nat.add_sub_cancel_left]

theorem byte_setByte (m : Mem) (a x : Nat) (v : BitVec 32) :
    (m.setByte a v).byte x = if x = a then v.setWidth 8 else m.byte x := by
  rw [setByte]
  by_cases h : x = a
  · subst h
    rw [byte_write_of_mem le_rfl (by omega), if_pos rfl, Nat.sub_self, pow_zero, Nat.div_one]
    rfl
  · rw [byte_write_of_not_mem (by omega), if_neg h]

theorem SameOutside.setByte {lo hi a : Nat} {m m' : Mem} {v : BitVec 32} (h : SameOutside lo hi m m')
    (hlo : lo ≤ a) (hhi : a < hi) : SameOutside lo hi m (m'.setByte a v) :=
  h.trans (sameOutside_write hlo hhi)

theorem SameOutside.bytes {lo hi a n : Nat} {m m' : Mem} (h : SameOutside lo hi m m')
    (ha : a + n ≤ lo ∨ hi ≤ a) : m'.bytes a n = m.bytes a n :=
  bytes_congr fun _ _ => h.byte _ (by omega)

/-! ### Lists threaded through memory -/

/-- From `head`, the words at the listed addresses link each to the next, and the last to 0. -/
def Chain (m : Mem) : BitVec 32 → List (BitVec 32) → Prop
  | head, [] => head = 0#32
  | head, p :: ps => head = p ∧ p ≠ 0#32 ∧ Chain m (m.word32 p.toNat) ps

theorem Chain.congr {m m' : Mem} : ∀ {l : List (BitVec 32)} {head : BitVec 32},
    Chain m head l → (∀ p ∈ l, m'.word32 p.toNat = m.word32 p.toNat) → Chain m' head l
  | [], _, h, _ => h
  | p :: ps, _, ⟨hp, hne, h⟩, hw => by
      refine ⟨hp, hne, ?_⟩
      rw [hw p List.mem_cons_self]
      exact h.congr fun q hq => hw q (List.mem_cons_of_mem _ hq)

/-- A chain from 0 is empty; a chain from another head starts there. -/
theorem Chain.cases_head {m : Mem} {head : BitVec 32} {l : List (BitVec 32)} (h : Chain m head l)
    (hne : head ≠ 0#32) : ∃ ps, l = head :: ps ∧ Chain m (m.word32 head.toNat) ps := by
  cases l with
  | nil => exact absurd h hne
  | cons p ps =>
    obtain ⟨rfl, -, h⟩ := h
    exact ⟨ps, rfl, h⟩

end Mem

/-! ### Disjoint blocks -/

/-- Disjoint intervals below `N` have at most `N` elements together. -/
theorem sum_length_le {α : Type} {lo hi : α → Nat} {N : Nat} {l : List α}
    (hdisj : l.Pairwise fun a b => hi a ≤ lo b ∨ hi b ≤ lo a) (hN : ∀ a ∈ l, hi a ≤ N) :
    (l.map fun a => hi a - lo a).sum ≤ N := by
  have hcover : ∃ U : Finset Nat, U.card = (l.map fun a => hi a - lo a).sum ∧
      ∀ x, x ∈ U ↔ ∃ a ∈ l, lo a ≤ x ∧ x < hi a := by
    clear hN
    induction l with
    | nil => exact ⟨∅, rfl, fun x => by simp⟩
    | cons a l ih =>
      rw [List.pairwise_cons] at hdisj
      obtain ⟨U, hcard, hmem⟩ := ih hdisj.2
      refine ⟨Finset.Ico (lo a) (hi a) ∪ U, ?_, fun x => ?_⟩
      · have hsep : Disjoint (Finset.Ico (lo a) (hi a)) U := by
          rw [Finset.disjoint_left]
          intro x hx hU
          obtain ⟨b, hb, h₁, h₂⟩ := (hmem x).mp hU
          rw [Finset.mem_Ico] at hx
          rcases hdisj.1 b hb with h | h <;> omega
        rw [Finset.card_union_of_disjoint hsep, Nat.card_Ico, hcard, List.map_cons, List.sum_cons]
      · rw [Finset.mem_union, Finset.mem_Ico, hmem x]
        simp
  obtain ⟨U, hcard, hmem⟩ := hcover
  have hsub : U ⊆ Finset.range N := by
    intro x hx
    obtain ⟨a, ha, -, h⟩ := (hmem x).mp hx
    exact Finset.mem_range.mpr (h.trans_le (hN a ha))
  calc (l.map fun a => hi a - lo a).sum = U.card := hcard.symm
    _ ≤ (Finset.range N).card := Finset.card_le_card hsub
    _ = N := Finset.card_range N

end Aipl.Lib
