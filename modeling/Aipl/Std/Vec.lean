import Aipl.Std.Alloc

/-! # `std/vec`, as its source computes it

A growable list: its elements, the length of the array that holds them, and the state of the allocator
the array comes from.  Growing doubles the array; an array too large stops the program.
-/

namespace Aipl.Std

open Aipl.Lib Aipl.Lib.Outcome

structure Vec (σ T : Type) where
  elems : List T
  cap : BitVec 32
  heap : σ

namespace Vec

variable {σ T : Type} (A : Allocator σ) (t : ElemType T)

/-- `sizeof (Vec T)`. -/
def SIZEOF : BitVec 32 := 16#32

def make (heap : σ) (capacity : BitVec 32) : Outcome (Vec σ T) := do
  require ((0#32).sle capacity)
  let cap := if capacity.slt 4#32 then 4#32 else capacity
  let (_, heap) ← array A t heap cap
  let heap ← create A heap SIZEOF
  pure { elems := [], cap, heap }

def len (v : Vec σ T) : BitVec 32 := arrLen v.elems

def clear (v : Vec σ T) : Vec σ T := { v with elems := [] }

def at_ (v : Vec σ T) (i : BitVec 32) : Outcome T := do
  require ((0#32).sle i && i.slt v.len)
  arrGet v.elems i

/-- Doubles the array, when it is full. -/
def grow (v : Vec σ T) : Outcome (Vec σ T) :=
  if v.len = v.cap then do
    let (_, heap) ← array A t v.heap (2#32 * v.len)
    let heap ← freeArray A t heap (List.replicate v.cap.toNat t.zero)
    pure { v with cap := 2#32 * v.len, heap }
  else pure v

def push (v : Vec σ T) (x : T) : Outcome (Vec σ T) := do
  let v ← grow A t v
  pure { v with elems := v.elems ++ [x] }

/-- Removes the last element. -/
def pop (v : Vec σ T) : Outcome (T × Vec σ T) := do
  require ((0#32).slt v.len)
  let x ← arrGet v.elems (v.len - 1#32)
  pure (x, { v with elems := v.elems.take (v.len - 1#32).toNat })

def free (v : Vec σ T) : Outcome σ := do
  let heap ← freeArray A t v.heap (List.replicate v.cap.toNat t.zero)
  destroy A heap SIZEOF

/-- The elements fit in the array. -/
structure Ok (v : Vec σ T) : Prop where
  pos : 0 < v.cap.toNat
  le : v.elems.length ≤ v.cap.toNat
  lt : v.cap.toNat < 2 ^ 31

variable {A t} {v : Vec σ T}

theorem Ok.clear (h : v.Ok) : v.clear.Ok := ⟨h.pos, Nat.zero_le _, h.lt⟩

theorem Ok.toNat_len (h : v.Ok) : v.len.toNat = v.elems.length :=
  toNat_arrLen (h.le.trans_lt (h.lt.trans (by decide)))

variable {C : Prop}

theorem make_endsOr {heap : σ} {capacity : BitVec 32} (hmem : C ∨ Plentiful A ∧ 0 ≤ t.size.toInt ∧ 0 ≤ capacity.toInt ∧
      (capacity.toInt + 4) * t.size.toInt + 8 < 2 ^ 31) :
    EndsOr C (fun v => v.Ok ∧ v.elems = [] ∧ v.cap = if capacity.slt 4#32 then 4#32 else capacity) (make A t heap capacity) := by
  have h4 : (4#32).toInt = 4 := rfl
  have hmost : 0 ≤ capacity.toInt → 0 ≤ (if capacity.slt 4#32 then 4#32 else capacity).toInt ∧
      (if capacity.slt 4#32 then 4#32 else capacity).toInt ≤ capacity.toInt + 4 := fun h0 => by
    split
    · omega
    · omega
  rw [make]
  refine endsOr_bind (Q := fun _ => True) (endsOr_require (fun _ => trivial) (hmem.imp_right fun h => ?_)) fun _ _ => ?_
  · rw [BitVec.sle_eq_decide, decide_eq_true_eq]
    exact h.2.2.1
  refine endsOr_bind (array_endsOr (hmem.imp_right fun h => ⟨h.1, (hmost h.2.2.1).1, h.2.1, ?_⟩)) ?_
  · have hle := Int.mul_le_mul_of_nonneg_right (hmost h.2.2.1).2 h.2.1
    have hlt := h.2.2.2
    omega
  rintro ⟨xs, heap'⟩ ⟨-, hcap, -⟩
  refine endsOr_bind (create_endsOr (by decide) (hmem.imp_right fun h => h.1)) fun heap'' _ => ?_
  obtain ⟨hint, hlt⟩ := toInt_of_nonneg hcap
  refine ⟨⟨?_, Nat.zero_le _, hlt⟩, rfl, rfl⟩
  dsimp only
  by_cases hsmall : capacity.slt 4#32 = true
  · rw [if_pos hsmall]
    decide
  · rw [if_neg hsmall] at hint ⊢
    simp only [BitVec.slt_eq_decide, decide_eq_true_eq, h4] at hsmall
    omega

theorem make_sat {heap : σ} {capacity : BitVec 32} :
    Sat (fun v => v.Ok ∧ v.elems = []) (make A t heap capacity) :=
  (endsOr_true.mp (make_endsOr (.inl trivial))).mono fun _ h => ⟨h.1, h.2.1⟩

theorem at_eq (h : v.Ok) {i : BitVec 32} {x : T} (hx : v.elems[i.toNat]? = some x) :
    v.at_ i = done x := by
  have hi : i.toNat < v.elems.length := (List.getElem?_eq_some_iff.mp hx).1
  have hle := h.le
  have hlt := h.lt
  have hlen := h.toNat_len
  rw [at_, zero_sle (by omega), (slt_iff (by omega) (by omega)).mpr (by omega), arrGet_eq hx]
  rfl

/-- **A push appends.** -/
theorem push_endsOr (h : v.Ok) (x : T) (hmem : C ∨ Plentiful A ∧ 0 ≤ t.size.toInt ∧
      (v.elems.length = v.cap.toNat → 2 * v.elems.length * t.size.toInt + 8 < 2 ^ 31 ∧ 2 * v.elems.length < 2 ^ 31)) :
    EndsOr C (fun v' => v'.Ok ∧ v'.elems = v.elems ++ [x] ∧ (v'.cap = v.cap ∨
      v'.cap.toNat = 2 * v.cap.toNat ∧ v'.cap.toNat * t.size.toInt + 8 < 2 ^ 31)) (push A t v x) := by
  have hlen := h.toNat_len
  have hlt := h.lt
  have hle := h.le
  rw [push]
  have hpos := h.pos
  refine endsOr_bind (Q := fun v' => v'.elems = v.elems ∧ v.elems.length < v'.cap.toNat ∧ v'.cap.toNat < 2 ^ 31 ∧ (v'.cap = v.cap ∨
    v'.cap.toNat = 2 * v.cap.toNat ∧ v'.cap.toNat * t.size.toInt + 8 < 2 ^ 31)) ?_ ?_
  · rw [grow]
    by_cases hfull : v.len = v.cap
    · rw [if_pos hfull]
      have hfull' : v.cap.toNat = v.elems.length := by rw [← hfull, hlen]
      have h2 : (2#32).toNat = 2 := rfl
      have hdouble : (2#32 * v.len).toNat = 2 * v.elems.length := by
        rw [BitVec.toNat_mul, h2, hlen, Nat.mod_eq_of_lt (by omega)]
      refine endsOr_bind (array_endsOr (hmem.imp_right fun hm => ⟨hm.1, ?_, hm.2.1, ?_⟩)) ?_
      · have := (hm.2.2 hfull'.symm).2
        rw [toInt_eq_toNat (by omega)]
        exact Int.natCast_nonneg _
      · have := (hm.2.2 hfull'.symm).2
        rw [toInt_eq_toNat (by omega), hdouble]
        exact_mod_cast (hm.2.2 hfull'.symm).1
      rintro ⟨xs, heap⟩ ⟨-, hcap, hbytes⟩
      refine endsOr_bind (freeArray_endsOr (hmem.imp_right fun hm => hm.1)) fun heap' _ => ?_
      obtain ⟨hint, hsmall⟩ := toInt_of_nonneg hcap
      refine ⟨rfl, ?_, hsmall, .inr ⟨?_, ?_⟩⟩
      · dsimp only
        rw [hdouble]
        omega
      · dsimp only
        rw [hdouble, hfull']
      · dsimp only
        rw [hint] at hbytes
        exact hbytes
    · rw [if_neg hfull]
      refine ⟨rfl, ?_, hlt, .inl rfl⟩
      have hne : v.len.toNat ≠ v.cap.toNat := fun heq => hfull (BitVec.eq_of_toNat_eq heq)
      omega
  · rintro v' ⟨helems, hroom, hlt', hcap⟩
    refine ⟨⟨by dsimp only; omega, ?_, hlt'⟩, by rw [helems], hcap⟩
    dsimp only
    rw [helems, List.length_append]
    exact hroom

theorem push_sat (h : v.Ok) (x : T) : Sat (fun v' => v'.Ok ∧ v'.elems = v.elems ++ [x]) (push A t v x) :=
  (endsOr_true.mp (push_endsOr h x (.inl trivial))).mono fun _ h => ⟨h.1, h.2.1⟩

/-- The last element goes. -/
theorem pop_eq (h : v.Ok) {xs : List T} {x : T} (helems : v.elems = xs ++ [x]) : pop v = done (x, { v with elems := xs }) := by
  have hlen := h.toNat_len
  have hlt := h.lt
  have hle := h.le
  have hlength : v.elems.length = xs.length + 1 := by rw [helems, List.length_append, List.length_singleton]
  have hlast : (v.len - 1#32).toNat = xs.length := by
    rw [toNat_sub_of_le (by simp only [BitVec.toNat_ofNat]; omega), hlen]
    simp only [BitVec.toNat_ofNat]
    omega
  have hget : v.elems[(v.len - 1#32).toNat]? = some x := by
    rw [hlast, helems, List.getElem?_append_right (le_refl _), Nat.sub_self]
    rfl
  rw [pop, (zero_slt_iff (by omega)).mpr (by omega), arrGet_eq hget, hlast, helems, List.take_left]
  rfl

theorem free_endsOr (hmem : C ∨ Plentiful A) : EndsOr C (fun _ => True) (v.free A t) := by
  rw [free]
  exact endsOr_bind (freeArray_endsOr hmem) fun heap _ => destroy_endsOr hmem

end Vec

end Aipl.Std
