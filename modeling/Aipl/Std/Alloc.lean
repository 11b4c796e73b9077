import Aipl.Lib.Bits
import Aipl.Lib.Outcome

/-! # Arrays and the allocator they come from

`std/alloc` hands code that allocates one value, an `Allocator`, which a program may also write
itself (`alloc.custom`).  What an array asks of it is modelled by two functions on the allocator's
state, either of which may stop the program.  An `(arr T)` is the list of its elements; `arr.get`
and `arr.set` check their index against the length, unsigned.
-/

namespace Aipl.Std

open Aipl.Lib Aipl.Lib.Outcome

/-- An allocator: `raw` asks for a number of bytes, `freeRaw` gives them back.  `none` is a stopped
program: no memory, or a check of the allocator's own. -/
structure Allocator (σ : Type) where
  raw : σ → BitVec 32 → Option σ
  freeRaw : σ → BitVec 32 → Option σ

/-- An allocator that is never out of memory. -/
def Allocator.ample : Allocator Unit := ⟨fun _ _ => some (), fun _ _ => some ()⟩

/-- What the code knows of a type argument: its `sizeof`, and the value its zeroed bytes hold. -/
structure ElemType (T : Type) where
  size : BitVec 32
  zero : T

/-- `i32`, as an element. -/
def i32 : ElemType (BitVec 32) := ⟨4#32, 0#32⟩

/-- `str.Bytes`, as an element. -/
def view : ElemType (List (BitVec 8)) := ⟨16#32, []⟩

variable {σ T : Type}

/-- `(checked.mul a b)`: stops the program when the signed product overflows. -/
def checkedMul (a b : BitVec 32) : Outcome (BitVec 32) :=
  if a.smulOverflow b then stop else done (a * b)

/-- `(checked.add a b)`: stops the program when the signed sum overflows. -/
def checkedAdd (a b : BitVec 32) : Outcome (BitVec 32) :=
  if a.saddOverflow b then stop else done (a + b)

/-- `alloc.raw`: the allocator's own function, after the contract `(gt n 0)`. -/
def raw (A : Allocator σ) (a : σ) (n : BitVec 32) : Outcome σ := do
  require ((0#32).slt n)
  ofOption (A.raw a n)

/-- `alloc.create`: a zeroed object of `size` bytes, behind its 8-byte header. -/
def create (A : Allocator σ) (a : σ) (size : BitVec 32) : Outcome σ := raw A a (size + 8#32)

/-- `alloc.array`: `n` zeroed elements, behind an 8-byte header. -/
def array (A : Allocator σ) (t : ElemType T) (a : σ) (n : BitVec 32) : Outcome (List T × σ) := do
  require ((0#32).sle n)
  let bytes ← checkedMul n t.size
  let bytes ← checkedAdd 8#32 bytes
  let a ← raw A a bytes
  pure (List.replicate n.toNat t.zero, a)

/-- `arr.len`. -/
def arrLen (xs : List T) : BitVec 32 := BitVec.ofNat 32 xs.length

/-- A round of `(while (lt cap need) (set! cap (* cap 2)))`, how arrays here are outgrown. -/
def doubleRound (need cap : BitVec 32) : Outcome (BitVec 32 ⊕ BitVec 32) :=
  if cap.slt need then done (.inl (cap * 2#32)) else done (.inr cap)

/-- `alloc.free_array`. -/
def freeArray (A : Allocator σ) (t : ElemType T) (a : σ) (xs : List T) : Outcome σ :=
  ofOption (A.freeRaw a (8#32 + arrLen xs * t.size))

/-- `arr.get`. -/
def arrGet (xs : List T) (i : BitVec 32) : Outcome T := ofOption xs[i.toNat]?

/-- `arr.set`: the array after the store. -/
def arrSet (xs : List T) (i : BitVec 32) (x : T) : Outcome (List T) :=
  if i.toNat < xs.length then done (xs.set i.toNat x) else stop

theorem arrGet_eq {xs : List T} {i : BitVec 32} {x : T} (h : xs[i.toNat]? = some x) :
    arrGet xs i = done x := by
  rw [arrGet, h]
  rfl

theorem arrSet_eq {xs : List T} {i : BitVec 32} {x : T} (h : i.toNat < xs.length) :
    arrSet xs i x = done (xs.set i.toNat x) := if_pos h

theorem toNat_arrLen {xs : List T} (h : xs.length < 2 ^ 32) : (arrLen xs).toNat = xs.length :=
  Nat.mod_eq_of_lt h

theorem sat_checkedMul {a b : BitVec 32} :
    Sat (fun r => r = a * b ∧ r.toInt = a.toInt * b.toInt) (checkedMul a b) := by
  rw [checkedMul]
  split
  · trivial
  · rename_i h
    exact ⟨rfl, BitVec.toInt_mul_of_not_smulOverflow (by simpa using h)⟩

theorem sat_checkedAdd {a b : BitVec 32} :
    Sat (fun r => r = a + b ∧ r.toInt = a.toInt + b.toInt) (checkedAdd a b) := by
  rw [checkedAdd]
  split
  · trivial
  · rename_i h
    exact ⟨rfl, BitVec.toInt_add_of_not_saddOverflow (by simpa using h)⟩

theorem sat_raw {A : Allocator σ} {a : σ} {n : BitVec 32} : Sat (fun _ => True) (raw A a n) :=
  sat_bind (Q := fun _ => True) (sat_require fun _ => trivial) fun _ _ =>
    sat_ofOption fun _ _ => trivial

/-- An array that was made has the length asked for, as a signed word, and its size in bytes did
not overflow. -/
theorem sat_array {A : Allocator σ} {t : ElemType T} {a : σ} {n : BitVec 32} :
    Sat (fun r => r.1 = List.replicate n.toNat t.zero ∧ 0 ≤ n.toInt
      ∧ n.toInt * t.size.toInt + 8 < 2 ^ 31) (array A t a n) := by
  rw [array]
  refine sat_bind (Q := fun _ => 0 ≤ n.toInt) (sat_require fun h => ?_) fun _ hn => ?_
  · simpa [BitVec.sle_eq_decide] using h
  refine sat_bind sat_checkedMul fun b hb => ?_
  refine sat_bind sat_checkedAdd fun s hs => ?_
  refine sat_bind sat_raw fun a' _ => ?_
  have hlt := BitVec.toInt_lt (x := s)
  have h8 : (8#32).toInt = 8 := by decide
  rw [hs.2, hb.2, h8] at hlt
  exact ⟨rfl, hn, by omega⟩

/-- An allocator that always has memory, and takes back what it gave. -/
structure Plentiful (A : Allocator σ) : Prop where
  raw : ∀ s n, (A.raw s n).isSome
  freeRaw : ∀ s n, (A.freeRaw s n).isSome

theorem ofOption_ne_stop {α : Type} {o : Option α} (h : o.isSome) : ofOption o ≠ stop := by
  cases o with
  | some a =>
    intro hstop
    cases hstop
  | none => cases h

theorem create_endsOr {C : Prop} {A : Allocator σ} {a : σ} {size : BitVec 32} (hsize : (0#32).slt (size + 8#32) = true)
    (hmem : C ∨ Plentiful A) : EndsOr C (fun _ => True) (create A a size) := by
  rw [create, raw, hsize]
  exact (sat_ofOption fun _ _ => trivial).endsOr fun hstop => hmem.resolve_right fun hA => ofOption_ne_stop (hA.raw a _) hstop

/-- Only an allocator without memory, or a size that overflows, keeps an array from being made. -/
theorem array_endsOr {C : Prop} {A : Allocator σ} {t : ElemType T} {a : σ} {n : BitVec 32}
    (hmem : C ∨ Plentiful A ∧ 0 ≤ n.toInt ∧ 0 ≤ t.size.toInt
      ∧ n.toInt * t.size.toInt + 8 < 2 ^ 31) :
    EndsOr C (fun r => r.1 = List.replicate n.toNat t.zero ∧ 0 ≤ n.toInt
      ∧ n.toInt * t.size.toInt + 8 < 2 ^ 31) (array A t a n) := by
  refine sat_array.endsOr fun hstop => hmem.resolve_right ?_
  rintro ⟨hA, hn, hsize, hbytes⟩
  have hprod : 0 ≤ n.toInt * t.size.toInt := Int.mul_nonneg hn hsize
  have hmul : n.smulOverflow t.size = false := by
    rw [BitVec.smulOverflow]
    simp only [Bool.or_eq_false_iff, decide_eq_false_iff_not]
    constructor <;> omega
  have hmulInt : (n * t.size).toInt = n.toInt * t.size.toInt :=
    BitVec.toInt_mul_of_not_smulOverflow (by simp [hmul])
  have hadd : (8#32).saddOverflow (n * t.size) = false := by
    rw [BitVec.saddOverflow, hmulInt]
    have h8 : (8#32).toInt = 8 := by decide
    simp only [Bool.or_eq_false_iff, decide_eq_false_iff_not, h8]
    constructor <;> omega
  have haddInt : (8#32 + n * t.size).toInt = 8 + n.toInt * t.size.toInt := by
    rw [BitVec.toInt_add_of_not_saddOverflow (by simp [hadd]), hmulInt]
    rfl
  have hpos : (0#32).slt (8#32 + n * t.size) = true := by
    rw [BitVec.slt_eq_decide, decide_eq_true_eq, haddInt]
    change (0 : Int) < _
    omega
  have hnn : (0#32).sle n = true := by
    rw [BitVec.sle_eq_decide, decide_eq_true_eq]
    exact hn
  obtain ⟨s, hs⟩ := Option.isSome_iff_exists.mp (hA.raw a (8#32 + n * t.size))
  rw [array, hnn, checkedMul, hmul] at hstop
  simp [require, checkedAdd, hadd, Std.raw, hpos, hs, ofOption] at hstop

theorem freeArray_endsOr {C : Prop} {A : Allocator σ} {t : ElemType T} {a : σ} {xs : List T}
    (hmem : C ∨ Plentiful A) : EndsOr C (fun _ => True) (freeArray A t a xs) :=
  (sat_ofOption fun _ _ => trivial).endsOr fun hstop =>
    hmem.resolve_right fun hA => ofOption_ne_stop (hA.freeRaw a _) hstop

/-- `alloc.destroy` of an object of `size` bytes. -/
def destroy (A : Allocator σ) (a : σ) (size : BitVec 32) : Outcome σ := ofOption (A.freeRaw a (size + 8#32))

theorem destroy_endsOr {C : Prop} {A : Allocator σ} {a : σ} {size : BitVec 32} (hmem : C ∨ Plentiful A) :
    EndsOr C (fun _ => True) (destroy A a size) :=
  (sat_ofOption fun _ _ => trivial).endsOr fun hstop => hmem.resolve_right fun hA => ofOption_ne_stop (hA.freeRaw a _) hstop

/-! ### Doubling -/

/-- `cap` doubled `k` times, in wrapping arithmetic. -/
def doubled (cap : BitVec 32) (k : Nat) : BitVec 32 := BitVec.ofNat 32 (cap.toNat * 2 ^ k)

@[simp] theorem doubled_zero (cap : BitVec 32) : doubled cap 0 = cap := by
  simp [doubled]

theorem doubled_succ (cap : BitVec 32) (k : Nat) : doubled (cap * 2#32) k = doubled cap (k + 1) := by
  apply BitVec.eq_of_toNat_eq
  have h2 : (2#32).toNat = 2 := rfl
  have hpow : 2 ^ (k + 1) = 2 * 2 ^ k := pow_succ' 2 k
  rw [doubled, doubled, BitVec.toNat_ofNat, BitVec.toNat_ofNat, BitVec.toNat_mul, h2, hpow,
    Nat.mod_mul_mod, Nat.mul_assoc]

/-- After 32 doublings nothing is left. -/
theorem doubled_of_ge {k : Nat} (hk : 32 ≤ k) (cap : BitVec 32) : doubled cap k = 0#32 := by
  obtain ⟨j, rfl⟩ := Nat.exists_eq_add_of_le hk
  apply BitVec.eq_of_toNat_eq
  rw [doubled, BitVec.toNat_ofNat, pow_add, Nat.mul_left_comm]
  exact Nat.mul_mod_right _ _

/-- **Doubling ends** when it reaches what is needed, and does so at a doubling. -/
theorem double_sat {need : BitVec 32} : ∀ {k fuel : Nat} {cap : BitVec 32},
    need.sle (doubled cap k) = true → k < fuel →
      Sat (fun c => need.sle c = true ∧ ∃ j ≤ k, c = doubled cap j)
        (iterate (doubleRound need) fuel cap)
  | k, 0, _, _, h => absurd h (Nat.not_lt_zero k)
  | k, fuel + 1, cap, hk, hfuel => by
      rw [iterate, doubleRound]
      cases h : cap.slt need with
      | false =>
        rw [if_neg (by simp), done_bind]
        refine ⟨?_, 0, Nat.zero_le _, ?_⟩
        · rw [BitVec.sle_eq_not_slt, h]
          rfl
        · exact (doubled_zero cap).symm
      | true =>
        rw [if_pos rfl, done_bind]
        dsimp only
        cases k with
        | zero =>
          rw [BitVec.sle_eq_not_slt] at hk
          simp [h] at hk
        | succ k =>
          rw [← doubled_succ] at hk
          refine (double_sat hk (by omega)).mono fun c hc => ?_
          obtain ⟨hle, j, hjk, hj⟩ := hc
          exact ⟨hle, j + 1, Nat.succ_le_succ hjk, by rw [← doubled_succ]; exact hj⟩

theorem toNat_doubled {cap : BitVec 32} {k : Nat} (h : cap.toNat * 2 ^ k < 2 ^ 32) :
    (doubled cap k).toNat = cap.toNat * 2 ^ k := Nat.mod_eq_of_lt h

/-- Doubling that reaches what is needed before it passes the largest word does so in a doubling. -/
theorem double_sat_of_le {need cap : BitVec 32} {k fuel : Nat}
    (hneed : need.toNat ≤ cap.toNat * 2 ^ k) (hlt : cap.toNat * 2 ^ k < 2 ^ 31) (hfuel : k < fuel) :
    Sat (fun c => need.toNat ≤ c.toNat ∧ ∃ j ≤ k, c.toNat = cap.toNat * 2 ^ j)
      (iterate (doubleRound need) fuel cap) := by
  have hall : ∀ j ≤ k, (doubled cap j).toNat = cap.toNat * 2 ^ j ∧ (doubled cap j).toNat < 2 ^ 31 := by
    intro j hj
    have hpow : cap.toNat * 2 ^ j ≤ cap.toNat * 2 ^ k :=
      Nat.mul_le_mul_left _ (Nat.pow_le_pow_right (by decide) hj)
    have hto := toNat_doubled (show cap.toNat * 2 ^ j < 2 ^ 32 by omega)
    exact ⟨hto, by omega⟩
  have hk := hall k le_rfl
  have hsle : need.sle (doubled cap k) = true := (sle_iff (by omega) hk.2).mpr (by omega)
  refine (double_sat hsle hfuel).mono ?_
  rintro c ⟨hle, j, hj, rfl⟩
  obtain ⟨hto, hlt'⟩ := hall j hj
  exact ⟨(sle_iff (by omega) hlt').mp hle, j, hj, hto⟩

/-- A power of two that is a word is at most 2^30, or negative: doubling passes over what lies between. -/
theorem sle_doubled_pow {need cap : BitVec 32} {j : Nat} (hcap : cap = BitVec.ofNat 32 (2 ^ j))
    (hneed : 2 ^ 30 < need.toNat) (hlt : need.toNat < 2 ^ 31) (k : Nat) :
    need.sle (doubled cap k) = false := by
  have hint := toInt_eq_toNat hlt
  have hdoubled : doubled cap k = BitVec.ofNat 32 (2 ^ (j + k)) := by
    apply BitVec.eq_of_toNat_eq
    rw [doubled, hcap, BitVec.toNat_ofNat, BitVec.toNat_ofNat, BitVec.toNat_ofNat, Nat.mod_mul_mod,
      ← pow_add]
  rw [hdoubled, BitVec.sle_eq_decide, decide_eq_false_iff_not, hint]
  rcases Nat.lt_trichotomy (j + k) 31 with hk | hk | hk
  · have hle : 2 ^ (j + k) ≤ 2 ^ 30 := Nat.pow_le_pow_right (by decide) (by omega)
    rw [toInt_ofNat_of_lt (by omega)]
    omega
  · rw [hk]
    have hneg : (BitVec.ofNat 32 (2 ^ 31)).toInt = -2 ^ 31 := rfl
    rw [hneg]
    omega
  · obtain ⟨i, hi⟩ := Nat.exists_eq_add_of_lt hk
    have hzero : BitVec.ofNat 32 (2 ^ (j + k)) = 0#32 := by
      apply BitVec.eq_of_toNat_eq
      rw [hi, show 31 + i + 1 = 32 + i by omega, pow_add, BitVec.toNat_ofNat]
      exact Nat.mul_mod_right _ _
    rw [hzero]
    have h0 : (0#32).toInt = 0 := rfl
    rw [h0]
    omega

/-- Doubling makes no check. -/
theorem double_ne_stop {need : BitVec 32} : ∀ (fuel : Nat) (cap : BitVec 32),
    iterate (doubleRound need) fuel cap ≠ stop
  | 0, _, h => by cases h
  | fuel + 1, cap, h => by
      rw [iterate, doubleRound] at h
      cases hslt : cap.slt need with
      | true =>
        rw [hslt, if_pos rfl, done_bind] at h
        exact double_ne_stop fuel (cap * 2#32) h
      | false =>
        rw [hslt, if_neg (by simp), done_bind] at h
        cases h

/-- Doubling that never reaches what is needed does not end. -/
theorem double_diverges {need : BitVec 32} : ∀ (fuel : Nat) {cap : BitVec 32},
    (∀ k, need.sle (doubled cap k) = false) → iterate (doubleRound need) fuel cap = outOfFuel
  | 0, _, _ => rfl
  | fuel + 1, cap, h => by
      have h0 := h 0
      rw [BitVec.sle_eq_not_slt] at h0
      have hlt : cap.slt need = true := by simpa using h0
      rw [iterate, doubleRound, if_pos hlt, done_bind]
      exact double_diverges fuel fun k => by rw [doubled_succ]; exact h (k + 1)

end Aipl.Std
