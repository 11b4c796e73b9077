import Aipl.Compiler.Alloc
import Aipl.Lib.Outcome

/-! # Memory as the standard library uses it

The unchecked operations of `std`: loads and stores on addresses, and `mem.alloc`.  Each stops the
program where compiled code traps: outside memory, out of memory, and on a store to the heap cursor
or to the reserved block below the heap.
-/

namespace Aipl.Std

open Aipl.Lib Aipl.Lib.Outcome

/-- What a module runs on: the host's memory, and where the heap starts. -/
structure Runtime where
  host : Wasm.Host
  heapStart : BitVec 32

/-- The store guard: not the heap cursor, not the reserved block and the string literals. -/
def Runtime.writable (R : Runtime) (a : BitVec 32) : Bool :=
  !(a.ult 4#32) && !((a - 64#32).ult (R.heapStart - 64#32))

def load32 (m : Mem) (a : BitVec 32) : Outcome (BitVec 32) :=
  if a.toNat + 4 ≤ m.size then done (m.word32 a.toNat) else stop

def load64 (m : Mem) (a : BitVec 32) : Outcome (BitVec 64) :=
  if a.toNat + 8 ≤ m.size then done (m.word64 a.toNat) else stop

def store32 (R : Runtime) (m : Mem) (a v : BitVec 32) : Outcome Mem := do
  require (R.writable a)
  if a.toNat + 4 ≤ m.size then done (m.setWord32 a.toNat v) else stop

def store64 (R : Runtime) (m : Mem) (a : BitVec 32) (v : BitVec 64) : Outcome Mem := do
  require (R.writable a)
  if a.toNat + 8 ≤ m.size then done (m.setWord64 a.toNat v) else stop

/-- `atomic.add`: the old word, and the memory with the sum. -/
def atomicAdd (R : Runtime) (m : Mem) (a v : BitVec 32) : Outcome (BitVec 32 × Mem) := do
  require (R.writable a)
  require (a &&& 3#32 == 0#32)
  if a.toNat + 4 ≤ m.size then
    done (m.word32 a.toNat, m.setWord32 a.toNat (m.word32 a.toNat + v))
  else stop

/-- `mem.alloc`. -/
def memAlloc (R : Runtime) (m : Mem) (n : BitVec 32) : Outcome (BitVec 32 × Mem) :=
  ofOption (Compiler.Alloc.allocBytes R.host m n)

theorem CursorOk.congr {H : Wasm.Host} {m m' : Mem} (h : Compiler.Alloc.CursorOk H m)
    (hpages : m'.pages = m.pages) (hcur : Compiler.Alloc.cursor m' = Compiler.Alloc.cursor m) :
    Compiler.Alloc.CursorOk H m' := by
  have hsize : m'.size = m.size := by rw [m'.size_eq, m.size_eq, hpages]
  refine ⟨h.limit, ?_, ?_, ?_, ?_, ?_⟩
  · rw [hpages]
    exact h.pages
  · rw [hpages]
    exact h.positive
  · rw [hcur]
    exact h.nonzero
  · rw [hcur]
    exact h.aligned
  · rw [hcur, hsize]
    exact h.inside

/-- A change of memory above the cursor word. -/
theorem CursorOk.sameOutside {H : Wasm.Host} {m m' : Mem} {lo hi : Nat}
    (h : Compiler.Alloc.CursorOk H m) (hsame : Mem.SameOutside lo hi m m') (hlo : 4 ≤ lo) :
    Compiler.Alloc.CursorOk H m' ∧ Compiler.Alloc.cursor m' = Compiler.Alloc.cursor m :=
  have hcur := hsame.word32 (.inl hlo)
  ⟨CursorOk.congr h hsame.pages hcur, hcur⟩

theorem CursorOk.toNat_le {H : Wasm.Host} {m : Mem} (h : Compiler.Alloc.CursorOk H m) :
    (Compiler.Alloc.cursor m).toNat ≤ m.size ∧ m.size ≤ 2 ^ 31 := by
  have hpages := h.pages
  have hmax := h.limit
  refine ⟨h.inside, ?_⟩
  rw [m.size_eq, pageSize]
  omega

/-- A request of a size that does not wrap: the block is what the cursor passes. -/
theorem memAlloc_returns {R : Runtime} {m : Mem} {n : BitVec 32}
    (hc : Compiler.Alloc.CursorOk R.host m) (hn : n.toNat ≤ 2 ^ 31 - 8) :
    Returns (fun r => r.1 = Compiler.Alloc.cursor m ∧ Compiler.Alloc.CursorOk R.host r.2 ∧
      (Compiler.Alloc.cursor m).toNat + n.toNat ≤ (Compiler.Alloc.cursor r.2).toNat ∧
      ∀ x, 4 ≤ x → r.2.byte x = m.byte x) (memAlloc R m n) := by
  refine returns_iff.mpr fun r hr => ?_
  cases hreq : Compiler.Alloc.allocBytes R.host m n with
  | none =>
    rw [memAlloc, hreq] at hr
    cases hr
  | some r' =>
    rw [memAlloc, hreq] at hr
    injection hr with hr
    subst hr
    have hint : n.toInt = n.toNat := toInt_eq_toNat (by omega)
    obtain ⟨hp, hc', -, hup⟩ :=
      Compiler.Alloc.allocBytes_safe hc (.inl ⟨by omega, by omega⟩) hreq
    exact ⟨hp, hc', by omega, fun x hx => Compiler.Alloc.allocBytes_byte hreq hx⟩

theorem load32_sat (m : Mem) (a : BitVec 32) :
    Sat (fun v => a.toNat + 4 ≤ m.size ∧ v = m.word32 a.toNat) (load32 m a) := by
  rw [load32]
  split
  · exact ⟨‹_›, rfl⟩
  · trivial

theorem store32_sat (R : Runtime) (m : Mem) (a v : BitVec 32) :
    Sat (fun m' => a.toNat + 4 ≤ m.size ∧ m' = m.setWord32 a.toNat v) (store32 R m a v) := by
  rw [store32]
  refine sat_bind (Q := fun _ => True) (sat_require fun _ => trivial) fun _ _ => ?_
  split
  · exact ⟨‹_›, rfl⟩
  · trivial

theorem store64_sat (R : Runtime) (m : Mem) (a : BitVec 32) (v : BitVec 64) :
    Sat (fun m' => a.toNat + 8 ≤ m.size ∧ m' = m.setWord64 a.toNat v) (store64 R m a v) := by
  rw [store64]
  refine sat_bind (Q := fun _ => True) (sat_require fun _ => trivial) fun _ _ => ?_
  split
  · exact ⟨‹_›, rfl⟩
  · trivial

theorem atomicAdd_sat (R : Runtime) (m : Mem) (a v : BitVec 32) :
    Sat (fun r => Mem.SameOutside a.toNat (a.toNat + 4) m r.2) (atomicAdd R m a v) := by
  rw [atomicAdd]
  refine sat_bind (sat_require fun _ => trivial) fun _ (_ : True) => ?_
  refine sat_bind (sat_require fun _ => trivial) fun _ (_ : True) => ?_
  split
  · exact Mem.sameOutside_write le_rfl le_rfl
  · trivial

/-- **A loop that zeroes** `words` words of 64 bits from `p` on: it writes them and no more, and
ends only where they lie in memory. -/
theorem zeroLoop_returns {R : Runtime} {m : Mem} {p words : BitVec 32} (hw : words.toNat < 2 ^ 28)
    (hfit : p.toNat + 8 * words.toNat < 2 ^ 32) :
    Returns (fun m' => Mem.SameOutside p.toNat (p.toNat + 8 * words.toNat) m m' ∧
      (∀ x, p.toNat ≤ x → x < p.toNat + 8 * words.toNat → m'.byte x = 0#8) ∧
      (0 < words.toNat → p.toNat + 8 * words.toNat ≤ m.size))
      (forLoop (words.toNat + 1) 0#32 words (fun i m => store64 R m (p + 8#32 * i) 0#64) m) := by
  have h8 : (8#32).toNat = 8 := rfl
  have hof : words = BitVec.ofNat 32 words.toNat := by simp
  -- after k rounds the first 8k bytes are zero
  have hloop := @forLoop_sat Mem (fun i m => store64 R m (p + 8#32 * i) 0#64) words.toNat
    (words.toNat + 1) m (by omega) (by omega)
    (fun k m' => Mem.SameOutside p.toNat (p.toNat + 8 * k) m m' ∧
      (∀ x, p.toNat ≤ x → x < p.toNat + 8 * k → m'.byte x = 0#8) ∧
      (0 < k → p.toNat + 8 * k ≤ m.size))
    ⟨Mem.SameOutside.refl _ _ m, fun x _ _ => by omega, fun h => absurd h (lt_irrefl 0)⟩ ?_
  · rw [← hof] at hloop
    exact hloop.returns
  · rintro k m' hk ⟨hsame, hzero, -⟩
    have hk32 : (BitVec.ofNat 32 k).toNat = k := by
      rw [BitVec.toNat_ofNat]
      omega
    have hat : (p + 8#32 * BitVec.ofNat 32 k).toNat = p.toNat + 8 * k := by
      rw [BitVec.toNat_add, BitVec.toNat_mul, hk32, h8]
      omega
    refine (store64_sat R m' _ 0#64).mono fun m'' hm'' => ?_
    obtain ⟨hin, rfl⟩ := hm''
    rw [hat, hsame.size] at hin
    rw [hat, Mem.setWord64]
    refine ⟨(hsame.mono le_rfl (by omega)).trans
      (Mem.sameOutside_write (by omega) (by omega)), fun x h₁ h₂ => ?_, fun _ => by omega⟩
    rcases Nat.lt_or_ge x (p.toNat + 8 * k) with hlt | hge
    · rw [Mem.byte_write_of_not_mem (.inl hlt)]
      exact hzero x h₁ hlt
    · exact Mem.byte_write_zero hge (by omega)

end Aipl.Std
