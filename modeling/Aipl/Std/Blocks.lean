import Aipl.Std.Alloc
import Aipl.Std.Runtime

/-! # Byte arrays in memory

`(arr u8)` by its address, over an allocator that hands out addresses.  A reference to an array
carries the generation it was made with; here that is a number no other array has, and reading a
freed array stops the program.

* `BlockAllocator` — an allocator with what callers rely on: a block it hands out is none of the
  memory they hold, and it leaves the memory they hold alone.
* `forever` — `mem.alloc` as one.
-/

namespace Aipl.Std

open Aipl.Lib Aipl.Lib.Outcome

variable {σ : Type}

/-- `x` lies in the `n` bytes at `a`. -/
def Within (a n x : Nat) : Prop := a ≤ x ∧ x < a + n

/-- An allocator.  `Holds s m lent` says that the bytes `lent` are not its own. -/
structure BlockAllocator (σ : Type) where
  raw : σ → Mem → BitVec 32 → Option (BitVec 32 × σ × Mem)
  freeRaw : σ → Mem → BitVec 32 → BitVec 32 → Option (σ × Mem)
  Holds : σ → Mem → (Nat → Prop) → Prop
  raw_holds : ∀ {s m lent n p s' m'}, Holds s m lent → raw s m n = some (p, s', m') →
    p.toNat + n.toNat ≤ 2 ^ 31 ∧ (∀ x, lent x → ¬ Within p.toNat n.toNat x ∧ m'.byte x = m.byte x) ∧
      Holds s' m' fun x => lent x ∨ Within p.toNat n.toNat x
  free_holds : ∀ {s m lent p n s' m'}, Holds s m lent → (∀ x, Within p.toNat n.toNat x → lent x) →
    freeRaw s m p n = some (s', m') →
    (∀ x, lent x → ¬ Within p.toNat n.toNat x → m'.byte x = m.byte x) ∧
      Holds s' m' fun x => lent x ∧ ¬ Within p.toNat n.toNat x
  frame : ∀ {s m lent m'}, Holds s m lent → m'.pages = m.pages →
    (∀ x, ¬ lent x → m'.byte x = m.byte x) → Holds s m' lent

/-- A reference to an array of bytes. -/
structure Arr where
  id : Nat
  addr : BitVec 32
  len : BitVec 32
deriving DecidableEq, Repr

/-- Memory, the allocator's state, and the arrays that were made and not freed. -/
structure World (σ : Type) where
  mem : Mem
  alloc : σ
  live : List Nat
  made : Nat

def store8 (R : Runtime) (m : Mem) (a v : BitVec 32) : Outcome Mem := do
  require (R.writable a)
  if a.toNat < m.size then done (m.setByte a.toNat v) else stop

def load8 (m : Mem) (a : BitVec 32) : Outcome (BitVec 32) :=
  if a.toNat < m.size then done ((m.byte a.toNat).setWidth 32) else stop

/-- The check every use of an array makes first. -/
def alive (w : World σ) (a : Arr) : Outcome Unit := require (w.live.contains a.id)

namespace Arr

variable (A : BlockAllocator σ)

/-- `alloc.array u8`: `n` bytes, behind an 8-byte prefix. -/
def make (w : World σ) (n : BitVec 32) : Outcome (Arr × World σ) := do
  require ((0#32).sle n)
  let bytes ← checkedMul n 1#32
  let bytes ← checkedAdd 8#32 bytes
  let (p, s, m) ← ofOption (A.raw w.alloc w.mem bytes)
  let a : Arr := ⟨w.made, p + 8#32, n⟩
  pure (a, { mem := m, alloc := s, live := w.made :: w.live, made := w.made + 1 })

/-- `arr.get u8`, as an `i32`. -/
def get (w : World σ) (a : Arr) (i : BitVec 32) : Outcome (BitVec 32) := do
  alive w a
  if i.toNat < a.len.toNat then done ((w.mem.byte (a.addr.toNat + i.toNat)).setWidth 32) else stop

/-- `arr.set u8`. -/
def set (w : World σ) (a : Arr) (i v : BitVec 32) : Outcome (World σ) := do
  alive w a
  if i.toNat < a.len.toNat then
    done { w with mem := w.mem.setByte (a.addr.toNat + i.toNat) v }
  else stop

/-- `alloc.free_array u8`. -/
def free (w : World σ) (a : Arr) : Outcome (World σ) := do
  alive w a
  let (s, m) ← ofOption (A.freeRaw w.alloc w.mem (a.addr - 8#32) (8#32 + a.len * 1#32))
  pure { w with mem := m, alloc := s, live := w.live.filter (· ≠ a.id) }

/-- The block an array lies in, its prefix included. -/
def block (a : Arr) (x : Nat) : Prop := Within (a.addr.toNat - 8) (8 + a.len.toNat) x

/-- A live array in the memory that callers hold. -/
structure Live (w : World σ) (lent : Nat → Prop) (a : Arr) : Prop where
  id : a.id ∈ w.live
  prefix_le : 8 ≤ a.addr.toNat
  end_le : a.addr.toNat + a.len.toNat ≤ 2 ^ 31
  lent : ∀ x, a.block x → lent x

end Arr

/-- The allocator's invariant, and that of the generations. -/
structure World.Ok (A : BlockAllocator σ) (w : World σ) (lent : Nat → Prop) : Prop where
  holds : A.Holds w.alloc w.mem lent
  made : ∀ i ∈ w.live, i < w.made

theorem store8_sat (R : Runtime) (m : Mem) (a v : BitVec 32) :
    Sat (fun m' => m' = m.setByte a.toNat v) (store8 R m a v) := by
  rw [store8]
  refine sat_bind (sat_require fun _ => trivial) fun _ (_ : True) => ?_
  split
  · rfl
  · trivial

theorem load8_sat (m : Mem) (a : BitVec 32) :
    Sat (fun v => v.setWidth 8 = m.byte a.toNat) (load8 m a) := by
  rw [load8]
  split
  · exact BitVec.setWidth_setWidth_of_le _ (by decide) |>.trans (BitVec.setWidth_eq _)
  · trivial

/-! ### Making and freeing -/

/-- Every byte that was held before stays held and as it was, outside `gone`; `w'` holds for `lent'`. -/
structure Kept (A : BlockAllocator σ) (gone : Nat → Prop) (w w' : World σ) (lent lent' : Nat → Prop) :
    Prop where
  ok : w'.Ok A lent'
  kept : ∀ x, lent x → ¬ gone x → lent' x ∧ w'.mem.byte x = w.mem.byte x

namespace Arr

variable {A : BlockAllocator σ} {w : World σ} {lent : Nat → Prop}

theorem make_sat (hw : w.Ok A lent) (n : BitVec 32) :
    Sat (fun r => r.1.len = n ∧ r.1.id = w.made ∧ r.2.live = w.made :: w.live ∧ r.2.made = w.made + 1
        ∧ ∃ lent', Kept A (fun _ => False) w r.2 lent lent' ∧ r.1.Live r.2 lent'
          ∧ ∀ x, lent x → ¬ r.1.block x)
      (make A w n) := by
  rw [make]
  refine sat_bind (Q := fun _ => 0 ≤ n.toInt) (sat_require fun h => ?_) fun _ hn => ?_
  · simpa [BitVec.sle_eq_decide] using h
  refine sat_bind sat_checkedMul fun b hb => ?_
  refine sat_bind sat_checkedAdd fun s hs => ?_
  refine sat_bind (sat_ofOption fun r hr => hr) ?_
  rintro ⟨p, s', m⟩ hr
  obtain ⟨hend, hkept, hholds⟩ := A.raw_holds hw.holds hr
  have hlt := BitVec.toInt_lt (x := s)
  have h8 : (8#32).toInt = 8 := by decide
  have h1 : (1#32).toInt = 1 := by decide
  rw [hs.2, hb.2, h8, h1] at hlt
  have hsize : s.toNat = 8 + n.toNat := by
    have hsi := hs.2
    rw [hb.2, h8, h1] at hsi
    have hni := toInt_of_nonneg hn
    have := toInt_of_nonneg (x := s) (by omega)
    omega
  rw [hsize] at hend hkept hholds
  have haddr : (p + 8#32).toNat = p.toNat + 8 := by
    rw [BitVec.toNat_add]
    simp only [BitVec.toNat_ofNat]
    omega
  have hblock : ∀ x, (⟨w.made, p + 8#32, n⟩ : Arr).block x ↔ Within p.toNat (8 + n.toNat) x := by
    intro x
    rw [block, haddr, Nat.add_sub_cancel]
  refine ⟨rfl, rfl, rfl, rfl, _, ⟨⟨hholds, ?_⟩, fun x hx _ => ⟨.inl hx, (hkept x hx).2⟩⟩, ?_, ?_⟩
  · rintro i hi
    rcases List.mem_cons.mp hi with rfl | hi
    · exact Nat.lt_succ_self _
    · exact Nat.lt_succ_of_lt (hw.made i hi)
  · refine ⟨List.mem_cons_self, ?_, ?_, fun x hx => .inr ((hblock x).mp hx)⟩
    · dsimp only
      omega
    · dsimp only
      omega
  · intro x hx hin
    exact (hkept x hx).1 ((hblock x).mp hin)

theorem free_sat {a : Arr} (hw : w.Ok A lent) (ha : a.Live w lent) :
    Sat (fun w' => w'.live = w.live.filter (· ≠ a.id) ∧ w'.made = w.made
        ∧ ∃ lent', Kept A a.block w w' lent lent')
      (free A w a) := by
  have hpre := ha.prefix_le
  have hend := ha.end_le
  have hbase : (a.addr - 8#32).toNat = a.addr.toNat - 8 := by
    rw [BitVec.toNat_sub]
    simp only [BitVec.toNat_ofNat]
    omega
  have hsize : (8#32 + a.len * 1#32).toNat = 8 + a.len.toNat := by
    rw [BitVec.mul_one, BitVec.toNat_add]
    simp only [BitVec.toNat_ofNat]
    omega
  rw [free]
  refine sat_bind (Q := fun _ => True) (sat_require fun _ => trivial) fun _ _ => ?_
  refine sat_bind (sat_ofOption fun r hr => hr) ?_
  rintro ⟨s, m⟩ hr
  obtain ⟨hkept, hholds⟩ := A.free_holds hw.holds
    (by rw [hbase, hsize]; exact ha.lent) hr
  rw [hbase, hsize] at hkept hholds
  refine ⟨rfl, rfl, _, ⟨hholds, fun i hi => ?_⟩, fun x hx hout => ⟨⟨hx, hout⟩, hkept x hx hout⟩⟩
  exact hw.made i (List.mem_of_mem_filter hi)

theorem get_sat {a : Arr} {i : BitVec 32} :
    Sat (fun v => a.id ∈ w.live ∧ v.setWidth 8 = w.mem.byte (a.addr.toNat + i.toNat)) (get w a i) := by
  rw [get]
  refine sat_bind (Q := fun _ => a.id ∈ w.live) (sat_require fun h => by simpa using h) fun _ hid => ?_
  split
  · exact ⟨hid, BitVec.setWidth_setWidth_of_le _ (by decide) |>.trans (BitVec.setWidth_eq _)⟩
  · trivial

theorem set_sat {a : Arr} {i v : BitVec 32} :
    Sat (fun w' => i.toNat < a.len.toNat
        ∧ w' = { w with mem := w.mem.setByte (a.addr.toNat + i.toNat) v }) (set w a i v) := by
  rw [set]
  refine sat_bind (Q := fun _ => True) (sat_require fun _ => trivial) fun _ _ => ?_
  split
  · exact ⟨‹_›, rfl⟩
  · trivial

end Arr

/-- A loop that stores a byte at each of `n` addresses from `a` on: it ends, and writes those bytes
and no more. -/
theorem storeLoop_sat {m : Mem} {a fuel : Nat} {n : BitVec 32} (c : Nat → BitVec 8)
    {body : BitVec 32 → Mem → Outcome Mem} (hn : n.toNat < 2 ^ 31) (hfuel : n.toNat < fuel)
    (hbody : ∀ k m', k < n.toNat → Mem.SameOutside a (a + k) m m' →
      Sat (fun m'' => ∃ v : BitVec 32, v.setWidth 8 = c k ∧ m'' = m'.setByte (a + k) v)
        (body (BitVec.ofNat 32 k) m')) :
    Sat (fun m' => Mem.SameOutside a (a + n.toNat) m m'
        ∧ m'.bytes a n.toNat = (List.range n.toNat).map c)
      (forLoop fuel 0#32 n body m) := by
  refine (forLoop_range_sat hn (Nat.zero_le _) (by omega)
    (fun k m' => Mem.SameOutside a (a + k) m m' ∧ ∀ i < k, m'.byte (a + i) = c i) ?_ ?_).mono ?_
  · exact ⟨.refl _ _ _, fun i hi => absurd hi (Nat.not_lt_zero i)⟩
  · rintro k m' - hk ⟨hsame, hdone⟩
    refine (hbody k m' hk hsame).mono ?_
    rintro m'' ⟨v, hv, rfl⟩
    refine ⟨(hsame.mono le_rfl (by omega)).setByte (by omega) (by omega), fun i hi => ?_⟩
    rw [Mem.byte_setByte]
    by_cases hik : i = k
    · subst hik
      rw [if_pos rfl, hv]
    · rw [if_neg (by omega)]
      exact hdone i (by omega)
  · rintro m' ⟨hsame, hdone⟩
    exact ⟨hsame, Mem.bytes_eq_map hdone⟩

/-! ### `mem.alloc` as an allocator -/

/-- `alloc.forever`: what it hands out lies between the old cursor and the new, and is never taken
back.  A request past `2^31 - 8` bytes, which cannot be rounded up, finds no memory. -/
def forever (R : Runtime) : BlockAllocator Unit where
  raw _ m n :=
    if n.toNat ≤ 2147483640 then
      (Compiler.Alloc.allocBytes R.host m n).map fun r => (r.1, (), r.2)
    else none
  freeRaw _ m _ _ := some ((), m)
  Holds _ m lent := Compiler.Alloc.CursorOk R.host m ∧
    ∀ x, lent x → 4 ≤ x ∧ x < (Compiler.Alloc.cursor m).toNat
  raw_holds := by
    intro _ m lent n p _ m' h hr
    obtain ⟨hc, hlent⟩ := h
    split at hr
    · rename_i hn
      obtain ⟨⟨q, m''⟩, halloc, heq⟩ := Option.map_eq_some_iff.mp hr
      cases heq
      dsimp only
      have hint : n.toInt = n.toNat := toInt_eq_toNat (by omega)
      obtain ⟨rfl, hc', -, hup⟩ := Compiler.Alloc.allocBytes_safe hc (.inl ⟨by omega, by omega⟩) halloc
      obtain ⟨hle, hsize⟩ := CursorOk.toNat_le hc'
      have hnz := hc.nonzero
      have hal := hc.aligned
      refine ⟨by omega, fun x hx => ⟨fun hin => ?_, ?_⟩, hc', ?_⟩
      · have := (hlent x hx).2
        have := hin.1
        omega
      · exact Compiler.Alloc.allocBytes_byte halloc (hlent x hx).1
      · rintro x (hx | ⟨hlo, hhi⟩)
        · obtain ⟨h4, hlt⟩ := hlent x hx
          exact ⟨h4, by omega⟩
        · exact ⟨by omega, by omega⟩
    · cases hr
  free_holds := by
    intro _ m lent p n _ m' h _ hr
    obtain ⟨hc, hlent⟩ := h
    cases hr
    exact ⟨fun _ _ _ => rfl, hc, fun x hx => hlent x hx.1⟩
  frame := by
    intro _ m lent m' h hpages hbyte
    obtain ⟨hc, hlent⟩ := h
    have hcur : Compiler.Alloc.cursor m' = Compiler.Alloc.cursor m :=
      Mem.word32_congr fun x _ hx => hbyte x fun hl => by
        have := (hlent x hl).1
        omega
    refine ⟨CursorOk.congr hc hpages hcur, fun x hx => ?_⟩
    rw [hcur]
    exact hlent x hx

end Aipl.Std
