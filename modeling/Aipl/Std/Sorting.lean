import Aipl.Lib.Merging
import Aipl.Std.Vec

/-! # The sorts of `std/vec`

`sort_by`, `sort_by_with` and `sort` are three copies of one bottom-up merge sort, which differ in how two
elements are compared.  Runs are merged from one array into another, and the arrays change places after
each pass; the array of the vector is known by a flag here, by its address in the source.  Its places from
the vector's length on are left out, so that using one of them stops the program.

* `mergeLoop_endsOr`, `runLoop_endsOr`, `passLoop_endsOr` — what the three loops do.
* `mergeSort_endsOr` — the sort ends with what passes make of the elements.
* `sorts_are_stable` — each of the three permutes the elements, and is a stable sort for a total preorder.
-/

namespace Aipl.Std.Vec

open Aipl.Lib Outcome

variable {σ T : Type}

def minI32 (a b : BitVec 32) : BitVec 32 := if a.slt b then a else b

/-- A comparison, which may change the rest of the program's state. -/
abbrev Compare (σ T : Type) := σ → T → T → Outcome (BitVec 32 × σ)

/-- The loop that merges two runs: the places it is at in them, and the array it fills. -/
structure MergeState (σ T : Type) where
  i : BitVec 32
  j : BitVec 32
  dst : List T
  heap : σ

/-- A round of it, for place `k`. -/
def mergeRound (compare : Compare σ T) (src : List T) (mid hi k : BitVec 32) (s : MergeState σ T) :
    Outcome (MergeState σ T) :=
  if mid.sle s.i then do
    let x ← arrGet src s.j
    let dst ← arrSet s.dst k x
    pure { s with dst, j := s.j + 1#32 }
  else if hi.sle s.j then do
    let x ← arrGet src s.i
    let dst ← arrSet s.dst k x
    pure { s with dst, i := s.i + 1#32 }
  else do
    let a ← arrGet src s.i
    let b ← arrGet src s.j
    let (c, heap) ← compare s.heap a b
    if c.sle 0#32 then do
      let x ← arrGet src s.i
      let dst ← arrSet s.dst k x
      pure { s with dst, heap, i := s.i + 1#32 }
    else do
      let x ← arrGet src s.j
      let dst ← arrSet s.dst k x
      pure { s with dst, heap, j := s.j + 1#32 }

/-- The loop over the runs of one width. -/
structure RunState (σ T : Type) where
  lo : BitVec 32
  dst : List T
  heap : σ

def runRound (compare : Compare σ T) (src : List T) (n width : BitVec 32) (s : RunState σ T) :
    Outcome (RunState σ T ⊕ RunState σ T) :=
  if s.lo.slt n then do
    let mid := minI32 (s.lo + width) n
    let hi := minI32 (s.lo + 2#32 * width) n
    let m ← forLoop (hi.toNat + 1) s.lo hi (mergeRound compare src mid hi) ⟨s.lo, mid, s.dst, s.heap⟩
    pure (.inl ⟨hi, m.dst, m.heap⟩)
  else pure (.inr s)

/-- The loop over the widths; `swapped` while the runs are in the scratch array. -/
structure PassState (σ T : Type) where
  src : List T
  dst : List T
  swapped : Bool
  width : BitVec 32
  heap : σ

def passRound (compare : Compare σ T) (fuel : Nat) (n : BitVec 32) (s : PassState σ T) :
    Outcome (PassState σ T ⊕ PassState σ T) :=
  if s.width.slt n then do
    let r ← iterate (runRound compare s.src n s.width) fuel ⟨0#32, s.dst, s.heap⟩
    pure (.inl ⟨r.dst, s.src, !s.swapped, s.width * 2#32, r.heap⟩)
  else pure (.inr s)

/-- The sorted run is in `src`; it is copied back if that is the scratch array. -/
def copyBack (n : BitVec 32) (s : PassState σ T) : Outcome (List T) :=
  if s.swapped then
    forLoop (n.toNat + 1) 0#32 n (fun i items => do
      let x ← arrGet s.src i
      arrSet items i x) s.dst
  else pure s.src

/-- The sort the three functions are copies of. -/
def mergeSort (A : Allocator σ) (t : ElemType T) (compare : Compare σ T) (fuel : Nat) (v : Vec σ T) :
    Outcome (Vec σ T) := do
  let n := v.len
  if n.slt 2#32 then pure v
  else do
    let (scratch, heap) ← array A t v.heap n
    let s ← iterate (passRound compare fuel n) fuel ⟨v.elems, scratch, false, 1#32, heap⟩
    let items ← copyBack n s
    let heap ← freeArray A t s.heap (if s.swapped then s.src else s.dst)
    pure { v with elems := items, heap }

/-- `sort_by`. -/
def sortBy (A : Allocator σ) (t : ElemType T) (cmp : Compare σ T) (fuel : Nat) (v : Vec σ T) :
    Outcome (Vec σ T) :=
  mergeSort A t cmp fuel v

/-- `sort_by_with`. -/
def sortByWith {C : Type} (A : Allocator σ) (t : ElemType T) (ctx : C)
    (cmp : σ → C → T → T → Outcome (BitVec 32 × σ)) (fuel : Nat) (v : Vec σ T) : Outcome (Vec σ T) :=
  mergeSort A t (fun heap a b => cmp heap ctx a b) fuel v

/-- An implementation of `cmp.Ord`. -/
structure Ord (σ T : Type) where
  compare : Compare σ T

/-- `sort`. -/
def sort (A : Allocator σ) (t : ElemType T) (ord : Ord σ T) (fuel : Nat) (v : Vec σ T) :
    Outcome (Vec σ T) :=
  mergeSort A t ord.compare fuel v

/-- The comparison of `a` and `b` can take the first, or the second. -/
def Takes (compare : Compare σ T) (a b : T) (first : Bool) : Prop :=
  ∃ heap c heap', compare heap a b = done (c, heap') ∧ first = c.sle 0#32

/-! ### Parts of arrays -/

/-- The elements from place `a` up to `b`. -/
def part (xs : List T) (a b : Nat) : List T := (xs.take b).drop a

theorem part_self (xs : List T) (a : Nat) : part xs a a = [] :=
  List.drop_eq_nil_of_le (by simp)

theorem part_cons {xs : List T} {a b : Nat} {x : T} (hx : xs[a]? = some x) (hab : a < b) :
    part xs a b = x :: part xs (a + 1) b := by
  obtain ⟨hlt, rfl⟩ := List.getElem?_eq_some_iff.mp hx
  have hlen : a < (xs.take b).length := by
    rw [List.length_take]
    omega
  rw [part, List.drop_eq_getElem_cons hlen, List.getElem_take]
  rfl

theorem part_drop (xs : List T) (lo w : Nat) : part xs lo (lo + w) = (xs.drop lo).take w := by
  rw [part, List.drop_take, Nat.add_sub_cancel_left]

theorem take_set_succ {xs : List T} {k : Nat} (x : T) (hk : k < xs.length) :
    (xs.set k x).take (k + 1) = xs.take k ++ [x] := by
  rw [List.take_add_one, List.getElem?_set_self hk, List.take_set_of_le (Nat.le_refl k)]
  rfl

theorem part_set {xs : List T} {lo k : Nat} (x : T) (hlo : lo ≤ k) (hk : k < xs.length) :
    part (xs.set k x) lo (k + 1) = part xs lo k ++ [x] := by
  have hlen : lo ≤ (xs.take k).length := by
    rw [List.length_take]
    omega
  rw [part, take_set_succ x hk, List.drop_append_of_le_length hlen, part]

theorem take_append_part {xs : List T} {lo hi : Nat} (h : lo ≤ hi) :
    xs.take lo ++ part xs lo hi = xs.take hi := by
  have htake : (xs.take hi).take lo = xs.take lo := by
    rw [List.take_take, Nat.min_eq_left h]
  rw [← htake]
  exact List.take_append_drop lo (xs.take hi)

/-- A run of a list is what is left of the list there. -/
theorem part_min (xs : List T) (lo w : Nat) :
    part xs (min lo xs.length) (min (lo + w) xs.length) = (xs.drop lo).take w := by
  have htake : xs.take (min (lo + w) xs.length) = xs.take (lo + w) := by
    rw [← List.take_take, List.take_length]
  rw [← part_drop, part, part, htake]
  rcases Nat.le_total lo xs.length with hle | hge
  · rw [Nat.min_eq_left hle]
  · rw [Nat.min_eq_right hge, List.drop_eq_nil_of_le (by simp), List.drop_eq_nil_of_le (by simp; omega)]

/-! ### The loops -/

theorem toNat_minI32 {a b : BitVec 32} (ha : a.toNat < 2 ^ 31) (hb : b.toNat < 2 ^ 31) :
    (minI32 a b).toNat = min a.toNat b.toNat := by
  rw [minI32]
  by_cases h : a.toNat < b.toNat
  · rw [if_pos ((slt_iff ha hb).mpr h), Nat.min_eq_left h.le]
  · rw [if_neg (mt (slt_iff ha hb).mp h), Nat.min_eq_right (Nat.not_lt.mp h)]

/-- The bounds of the two runs at `lo`. -/
theorem toNat_bounds {lo n width : BitVec 32} (hn : n.toNat < 2 ^ 29) (hlo : lo.toNat < n.toNat)
    (hwidth : width.toNat < n.toNat) :
    (minI32 (lo + width) n).toNat = min (lo.toNat + width.toNat) n.toNat
      ∧ (minI32 (lo + 2#32 * width) n).toNat = min (lo.toNat + 2 * width.toNat) n.toNat := by
  have h2 : (2#32).toNat = 2 := rfl
  have hadd : (lo + width).toNat = lo.toNat + width.toNat := by
    rw [BitVec.toNat_add, Nat.mod_eq_of_lt (by omega)]
  have hdouble : (2#32 * width).toNat = 2 * width.toNat := by
    rw [BitVec.toNat_mul, h2, Nat.mod_eq_of_lt (by omega)]
  have hadd' : (lo + 2#32 * width).toNat = lo.toNat + 2 * width.toNat := by
    rw [BitVec.toNat_add, hdouble, Nat.mod_eq_of_lt (by omega)]
  constructor
  · rw [toNat_minI32 (by omega) (by omega), hadd]
  · rw [toNat_minI32 (by omega) (by omega), hadd']

variable {C : Prop}

section Loops

variable {compare : Compare σ T} {src dst₀ : List T} {lo mid hi : Nat}

/-- Merging has come to place `k`. -/
structure Merging (compare : Compare σ T) (src dst₀ : List T) (lo mid hi k : Nat) (s : MergeState σ T) :
    Prop where
  i_ge : lo ≤ s.i.toNat
  i_le : s.i.toNat ≤ mid
  j_ge : mid ≤ s.j.toNat
  j_le : s.j.toNat ≤ hi
  place : s.i.toNat + s.j.toNat = k + mid
  length : s.dst.length = dst₀.length
  before : s.dst.take lo = dst₀.take lo
  merged : ∀ zs, Merged (Takes compare) (part src s.i.toNat mid) (part src s.j.toNat hi) zs →
    Merged (Takes compare) (part src lo mid) (part src mid hi) (part s.dst lo k ++ zs)

/-- The next element is the second run's. -/
theorem Merging.takeSecond {k : Nat} {s : MergeState σ T} {x : T} (h : Merging compare src dst₀ lo mid hi k s)
    (heap : σ) (hhi : hi < 2 ^ 31) (hk : k < dst₀.length) (hlo : lo ≤ k) (hj : s.j.toNat < hi)
    (hmerged : ∀ zs, Merged (Takes compare) (part src s.i.toNat mid) (part src (s.j.toNat + 1) hi) zs →
      Merged (Takes compare) (part src s.i.toNat mid) (part src s.j.toNat hi) (x :: zs)) :
    Merging compare src dst₀ lo mid hi (k + 1)
      { s with dst := s.dst.set k x, heap, j := s.j + 1#32 } := by
  have hsucc := toNat_succ (n := s.j) (by omega)
  have hlen := h.length
  refine ⟨h.i_ge, h.i_le, ?_, ?_, ?_, ?_, ?_, ?_⟩
  · exact (h.j_ge.trans (Nat.le_succ _)).trans_eq hsucc.symm
  · dsimp only
    omega
  · have hplace := h.place
    dsimp only
    omega
  · rw [List.length_set, hlen]
  · rw [List.take_set_of_le hlo, h.before]
  · intro zs hzs
    dsimp only at hzs ⊢
    rw [hsucc] at hzs
    rw [part_set x hlo (by omega), List.append_assoc]
    exact h.merged _ (hmerged zs hzs)

/-- The next element is the first run's. -/
theorem Merging.takeFirst {k : Nat} {s : MergeState σ T} {x : T} (h : Merging compare src dst₀ lo mid hi k s)
    (heap : σ) (hmid : mid < 2 ^ 31) (hk : k < dst₀.length) (hlo : lo ≤ k) (hi' : s.i.toNat < mid)
    (hmerged : ∀ zs, Merged (Takes compare) (part src (s.i.toNat + 1) mid) (part src s.j.toNat hi) zs →
      Merged (Takes compare) (part src s.i.toNat mid) (part src s.j.toNat hi) (x :: zs)) :
    Merging compare src dst₀ lo mid hi (k + 1)
      { s with dst := s.dst.set k x, heap, i := s.i + 1#32 } := by
  have hsucc := toNat_succ (n := s.i) (by omega)
  have hlen := h.length
  refine ⟨?_, ?_, h.j_ge, h.j_le, ?_, ?_, ?_, ?_⟩
  · exact (h.i_ge.trans (Nat.le_succ _)).trans_eq hsucc.symm
  · dsimp only
    omega
  · have hplace := h.place
    dsimp only
    omega
  · rw [List.length_set, hlen]
  · rw [List.take_set_of_le hlo, h.before]
  · intro zs hzs
    dsimp only at hzs ⊢
    rw [hsucc] at hzs
    rw [part_set x hlo (by omega), List.append_assoc]
    exact h.merged _ (hmerged zs hzs)

variable (hcompare : ∀ heap a b, EndsOr C (fun _ => True) (compare heap a b))
include hcompare

/-- **A round of merging.** -/
theorem mergeRound_endsOr {mid hi : BitVec 32} {k : Nat} {s : MergeState σ T}
    (hhi : hi.toNat < 2 ^ 31) (hmid : mid.toNat ≤ hi.toNat) (hsrc : hi.toNat ≤ src.length)
    (hlen : hi.toNat ≤ dst₀.length) (hlo : lo ≤ k) (hk : k < hi.toNat)
    (h : Merging compare src dst₀ lo mid.toNat hi.toNat k s) :
    EndsOr C (Merging compare src dst₀ lo mid.toNat hi.toNat (k + 1))
      (mergeRound compare src mid hi (BitVec.ofNat 32 k) s) := by
  obtain ⟨hi_ge, hi_le, hj_ge, hj_le, hplace, hlength, hbefore, hmerged⟩ := id h
  have hkn : (BitVec.ofNat 32 k).toNat = k := toNat_ofNat_of_lt (by omega)
  have hset : ∀ x, arrSet s.dst (BitVec.ofNat 32 k) x = done (s.dst.set k x) := by
    intro x
    rw [arrSet_eq (by omega), hkn]
  rw [mergeRound]
  by_cases hfirst : mid.toNat ≤ s.i.toNat
  · -- the first run is used up
    obtain ⟨x, hx⟩ : ∃ x, src[s.j.toNat]? = some x := ⟨_, List.getElem?_eq_getElem (by omega)⟩
    rw [if_pos ((sle_iff (by omega) (by omega)).mpr hfirst), arrGet_eq hx, done_bind, hset, done_bind]
    refine h.takeSecond s.heap hhi (by omega) hlo (by omega) fun zs hzs => ?_
    have hempty : part src s.i.toNat mid.toNat = [] := by
      rw [Nat.le_antisymm hi_le hfirst, part_self]
    rw [hempty] at hzs ⊢
    rw [part_cons hx (by omega)]
    exact .onlySecond hzs
  rw [if_neg (mt (sle_iff (by omega) (by omega)).mp hfirst)]
  obtain ⟨x, hx⟩ : ∃ x, src[s.i.toNat]? = some x := ⟨_, List.getElem?_eq_getElem (by omega)⟩
  by_cases hsecond : hi.toNat ≤ s.j.toNat
  · -- the second run is used up
    rw [if_pos ((sle_iff (by omega) (by omega)).mpr hsecond), arrGet_eq hx, done_bind, hset, done_bind]
    refine h.takeFirst s.heap (by omega) (by omega) hlo (by omega) fun zs hzs => ?_
    have hempty : part src s.j.toNat hi.toNat = [] := by
      rw [Nat.le_antisymm hj_le hsecond, part_self]
    rw [hempty] at hzs ⊢
    rw [part_cons hx (by omega)]
    exact .onlyFirst hzs
  obtain ⟨y, hy⟩ : ∃ y, src[s.j.toNat]? = some y := ⟨_, List.getElem?_eq_getElem (by omega)⟩
  rw [if_neg (mt (sle_iff (by omega) (by omega)).mp hsecond), arrGet_eq hx, done_bind, arrGet_eq hy,
    done_bind]
  have hcmp := hcompare s.heap x y
  cases hrun : compare s.heap x y with
  | outOfFuel =>
    rw [hrun] at hcmp
    exact hcmp
  | stop =>
    rw [hrun] at hcmp
    exact hcmp
  | done r =>
    obtain ⟨c, heap⟩ := r
    rw [done_bind]
    dsimp only
    by_cases hc : c.sle 0#32 = true
    · rw [if_pos hc, done_bind, hset, done_bind]
      refine h.takeFirst heap (by omega) (by omega) hlo (by omega) fun zs hzs => ?_
      rw [part_cons hy (by omega)] at hzs ⊢
      rw [part_cons hx (by omega)]
      exact .first ⟨s.heap, c, heap, hrun, hc.symm⟩ hzs
    · rw [if_neg hc, done_bind, hset, done_bind]
      refine h.takeSecond heap hhi (by omega) hlo (by omega) fun zs hzs => ?_
      rw [part_cons hx (by omega)] at hzs ⊢
      rw [part_cons hy (by omega)]
      exact .second ⟨s.heap, c, heap, hrun, (Bool.not_eq_true _ ▸ hc).symm⟩ hzs

/-- **The merge of two runs**: it fills its part of the other array, and keeps what is before. -/
theorem mergeLoop_endsOr {lo mid hi : BitVec 32} {heap : σ} (hhi : hi.toNat < 2 ^ 31)
    (hlo : lo.toNat ≤ mid.toNat) (hmid : mid.toNat ≤ hi.toNat) (hsrc : hi.toNat ≤ src.length)
    (hlen : hi.toNat ≤ dst₀.length) :
    EndsOr C
      (fun m : MergeState σ T => m.dst.length = dst₀.length ∧ m.dst.take lo.toNat = dst₀.take lo.toNat
        ∧ Merged (Takes compare) (part src lo.toNat mid.toNat) (part src mid.toNat hi.toNat)
          (part m.dst lo.toNat hi.toNat))
      (forLoop (hi.toNat + 1) lo hi (mergeRound compare src mid hi) ⟨lo, mid, dst₀, heap⟩) := by
  refine (forLoop_range_endsOr hhi (hlo.trans hmid) (by omega)
    (Merging compare src dst₀ lo.toNat mid.toNat hi.toNat) ?_ ?_).mono ?_
  · refine ⟨le_rfl, hlo, le_rfl, hmid, rfl, rfl, rfl, fun zs hzs => ?_⟩
    rw [part_self]
    exact hzs
  · intro k s hk hk' h
    exact mergeRound_endsOr hcompare hhi hmid hsrc hlen hk hk' h
  · intro m h
    have hi_le := h.i_le
    have hj_le := h.j_le
    have hplace := h.place
    refine ⟨h.length, h.before, ?_⟩
    have hmerged := h.merged []
    rw [show m.i.toNat = mid.toNat by omega, show m.j.toNat = hi.toNat by omega, part_self, part_self,
      List.append_nil] at hmerged
    exact hmerged .nil

/-- What a pass has done when it comes to place `lo`. -/
structure Passing (compare : Compare σ T) (src : List T) (w : Nat) (s : RunState σ T) : Prop where
  le : s.lo.toNat ≤ src.length
  length : s.dst.length = src.length
  pass : ∀ ys, Pass (Takes compare) w (src.drop s.lo.toNat) ys →
    Pass (Takes compare) w src (s.dst.take s.lo.toNat ++ ys)

/-- **A round of a pass** merges the two runs at its place. -/
theorem runRound_endsOr {n width : BitVec 32} {s : RunState σ T} (hlen : src.length = n.toNat)
    (hn : n.toNat < 2 ^ 29) (hwidth : width.toNat < n.toNat) (hpos : 0 < width.toNat)
    (h : Passing compare src width.toNat s) :
    EndsOr C
      (Sum.elim
        (fun s' => Passing compare src width.toNat s' ∧ n.toNat - s'.lo.toNat < n.toNat - s.lo.toNat)
        (fun s' => s'.dst.length = n.toNat ∧ Pass (Takes compare) width.toNat src s'.dst))
      (runRound compare src n width s) := by
  have hle := h.le
  have hlength := h.length
  rw [runRound]
  by_cases hlo : s.lo.toNat < n.toNat
  · obtain ⟨hmid, hhi⟩ := toNat_bounds hn hlo hwidth
    rw [if_pos ((slt_iff (by omega) (by omega)).mpr hlo)]
    refine endsOr_bind (mergeLoop_endsOr hcompare (by omega) (by omega) (by omega) (by omega) (by omega)) ?_
    rintro m ⟨hmlen, hbefore, hmerged⟩
    refine ⟨⟨?_, ?_, fun ys hys => ?_⟩, ?_⟩
    · dsimp only
      omega
    · exact hmlen.trans hlength
    · dsimp only at hys ⊢
      rw [hmid, hhi] at hmerged
      rw [hhi] at hys ⊢
      -- the two runs are the first ones of what is left, and `ys` comes from the rest
      have hfirst : part src s.lo.toNat (min (s.lo.toNat + width.toNat) n.toNat)
          = (src.drop s.lo.toNat).take width.toNat := by
        have hpart := part_min src s.lo.toNat width.toNat
        rwa [Nat.min_eq_left hle, hlen] at hpart
      have hsecond : part src (min (s.lo.toNat + width.toNat) n.toNat)
          (min (s.lo.toNat + 2 * width.toNat) n.toNat)
          = ((src.drop s.lo.toNat).drop width.toNat).take width.toNat := by
        have hpart := part_min src (s.lo.toNat + width.toNat) width.toNat
        rwa [hlen, Nat.add_assoc, ← Nat.two_mul, ← List.drop_drop] at hpart
      have hrest : src.drop (min (s.lo.toNat + 2 * width.toNat) n.toNat)
          = (src.drop s.lo.toNat).drop (2 * width.toNat) := by
        rw [List.drop_drop, ← hlen]
        rcases Nat.le_total (s.lo.toNat + 2 * width.toNat) src.length with hle' | hge
        · rw [Nat.min_eq_left hle']
        · rw [Nat.min_eq_right hge, List.drop_length, List.drop_eq_nil_of_le hge]
      have hne : src.drop s.lo.toNat ≠ [] := by
        intro hnil
        rw [List.drop_eq_nil_iff] at hnil
        omega
      rw [hfirst, hsecond] at hmerged
      rw [hrest] at hys
      have hpass := h.pass _ (.runs hne hmerged hys)
      rw [← List.append_assoc, ← hbefore, take_append_part (by omega)] at hpass
      exact hpass
    · dsimp only
      omega
  · rw [if_neg (mt (slt_iff (by omega) (by omega)).mp hlo)]
    refine ⟨hlength.trans hlen, ?_⟩
    have hpass := h.pass [] (by rw [List.drop_eq_nil_of_le (by omega)]; exact .nil)
    rwa [List.append_nil, List.take_of_length_le (by omega)] at hpass

/-- The state between passes. -/
structure Sorting (compare : Compare σ T) (xs : List T) (s : PassState σ T) : Prop where
  pos : 0 < s.width.toNat
  lt : s.width.toNat < 2 ^ 30
  length : s.dst.length = xs.length
  passes : Passes (Takes compare) xs s.width.toNat s.src

/-- **A round of the sort** is a pass. -/
theorem passRound_endsOr {fuel : Nat} {n : BitVec 32} {xs : List T} {s : PassState σ T}
    (hlen : xs.length = n.toNat) (hn : n.toNat < 2 ^ 29) (hfuel : n.toNat < fuel)
    (h : Sorting compare xs s) :
    EndsOr C
      (Sum.elim (fun s' => Sorting compare xs s' ∧ n.toNat - s'.width.toNat < n.toNat - s.width.toNat)
        (fun s' => Sorting compare xs s' ∧ n.toNat ≤ s'.width.toNat))
      (passRound compare fuel n s) := by
  obtain ⟨hpos, hlt, hlength, hpasses⟩ := id h
  have hsrc := hpasses.perm.length_eq
  rw [passRound]
  by_cases hwidth : s.width.toNat < n.toNat
  · have h2 : (2#32).toNat = 2 := rfl
    have hdouble : (s.width * 2#32).toNat = 2 * s.width.toNat := by
      rw [BitVec.toNat_mul, h2, Nat.mod_eq_of_lt (by omega), Nat.mul_comm]
    rw [if_pos ((slt_iff (by omega) (by omega)).mpr hwidth)]
    refine endsOr_bind (iterate_endsOr (Passing compare s.src s.width.toNat) _
      (fun s' => n.toNat - s'.lo.toNat)
      (fun s' h' => runRound_endsOr hcompare (hsrc.trans hlen) hn hwidth hpos h') fuel _ ?_ ?_) ?_
    · exact ⟨Nat.zero_le _, hlength.trans hsrc.symm, fun ys hys => hys⟩
    · dsimp only
      omega
    · rintro r ⟨hrlen, hpass⟩
      refine ⟨⟨?_, ?_, hsrc, ?_⟩, ?_⟩
      · dsimp only
        omega
      · dsimp only
        omega
      · dsimp only
        rw [hdouble]
        exact hpasses.pass hpass
      · dsimp only
        omega
  · rw [if_neg (mt (slt_iff (by omega) (by omega)).mp hwidth)]
    exact ⟨h, Nat.not_lt.mp hwidth⟩

omit hcompare in
/-- **The copy back** leaves the sorted run. -/
theorem copyBack_endsOr {n : BitVec 32} {s : PassState σ T} (hn : n.toNat < 2 ^ 31)
    (hsrc : s.src.length = n.toNat) (hdst : s.dst.length = n.toNat) :
    EndsOr C (fun items => items = s.src) (copyBack n s) := by
  rw [copyBack]
  by_cases hswap : s.swapped = true
  · rw [if_pos hswap]
    refine (forLoop_range_endsOr hn (Nat.zero_le _) (Nat.lt_succ_self _)
      (fun k items => items.length = n.toNat ∧ items.take k = s.src.take k) ⟨hdst, rfl⟩ ?_).mono ?_
    · rintro k items - hk ⟨hlen, htake⟩
      have hkn : (BitVec.ofNat 32 k).toNat = k := toNat_ofNat_of_lt (by omega)
      obtain ⟨x, hx⟩ : ∃ x, s.src[k]? = some x := ⟨_, List.getElem?_eq_getElem (by omega)⟩
      rw [arrGet_eq (hkn.symm ▸ hx), done_bind, arrSet_eq (by omega), hkn]
      refine ⟨by rw [List.length_set, hlen], ?_⟩
      rw [take_set_succ x (by omega), htake, List.take_add_one, hx]
      rfl
    · rintro items ⟨hlen, htake⟩
      rwa [List.take_of_length_le (by omega), List.take_of_length_le (by omega)] at htake
  · rw [if_neg hswap]
    rfl

/-! ### The sorts -/

/-- A vector whose array was made: its size in bytes did not overflow. -/
structure Made (t : ElemType T) (v : Vec σ T) : Prop where
  ok : v.Ok
  bytes : v.cap.toInt * t.size.toInt + 8 < 2 ^ 31

omit hcompare in

omit hcompare in

/-- What a sort leaves in a vector. -/
structure SortOf (compare : Compare σ T) (v v' : Vec σ T) : Prop where
  cap : v'.cap = v.cap
  perm : v'.elems.Perm v.elems
  stable : ∀ f : T → T → BitVec 32, (∀ heap a b c heap', compare heap a b = done (c, heap') → c = f a b) →
    TotalPreorder (fun a b => (f a b).sle 0#32) →
      IsStableSort (fun a b => (f a b).sle 0#32) v.elems v'.elems

omit hcompare in
/-- What passes leave, once there is one run. -/
theorem sortOf_passes {v : Vec σ T} {w : Nat} {items : List T} {heap : σ}
    (h : Passes (Takes compare) v.elems w items) (hw : v.elems.length ≤ w) :
    SortOf compare v { v with elems := items, heap } := by
  refine ⟨rfl, h.perm, fun f hf hle => h.isStableSort hle ?_ hw⟩
  rintro a b first ⟨heap₁, c, heap₂, hrun, rfl⟩
  rw [hf heap₁ a b c heap₂ hrun]

/-- **The sort** ends, and leaves what passes make of the elements. -/
theorem mergeSort_endsOr {A : Allocator σ} {t : ElemType T} {fuel : Nat} {v : Vec σ T}
    (hmem : C ∨ Plentiful A) (hv : Made t v) (hsize : 4 ≤ t.size.toInt) (hfuel : v.elems.length < fuel) :
    EndsOr C (SortOf compare v) (mergeSort A t compare fuel v) := by
  obtain ⟨hok, hbytes⟩ := hv
  have hle := hok.le
  have hlen := hok.toNat_len
  have hcap : v.cap.toInt = v.cap.toNat := BitVec.toInt_eq_toNat_of_lt (by have := hok.lt; omega)
  have hn : v.len.toNat < 2 ^ 29 := by
    have hprod : v.cap.toInt * 4 ≤ v.cap.toInt * t.size.toInt :=
      Int.mul_le_mul_of_nonneg_left hsize (by omega)
    omega
  have hnInt : v.len.toInt = v.len.toNat := BitVec.toInt_eq_toNat_of_lt (by omega)
  have h2 : (2#32).toNat = 2 := rfl
  rw [mergeSort]
  by_cases hsmall : v.len.toNat < 2
  · rw [if_pos ((slt_iff (by omega) (by omega)).mpr (by omega))]
    exact sortOf_passes .start (by omega)
  rw [if_neg (mt (slt_iff (by omega) (by omega)).mp (by omega))]
  have hscratch : v.len.toInt * t.size.toInt + 8 < 2 ^ 31 := by
    have hprod : v.len.toInt * t.size.toInt ≤ v.cap.toInt * t.size.toInt :=
      Int.mul_le_mul_of_nonneg_right (by omega) (by omega)
    omega
  refine endsOr_bind (array_endsOr (hmem.imp_right fun hA => ⟨hA, by omega, by omega, hscratch⟩)) ?_
  rintro ⟨scratch, heap⟩ ⟨rfl, -, -⟩
  refine endsOr_bind (iterate_endsOr (Sorting compare v.elems)
    (fun s => Sorting compare v.elems s ∧ v.len.toNat ≤ s.width.toNat)
    (fun s => v.len.toNat - s.width.toNat)
    (fun s hs => passRound_endsOr hcompare hlen.symm hn (by omega) hs) fuel _ ?_ ?_) ?_
  · refine ⟨Nat.one_pos, ?_, by simp [hlen], .start⟩
    change 1 < 2 ^ 30
    omega
  · dsimp only
    omega
  rintro s ⟨⟨-, -, hdst, hpasses⟩, hwidth⟩
  have hsrc := hpasses.perm.length_eq
  refine endsOr_bind (copyBack_endsOr (by omega) (hsrc.trans hlen.symm) (hdst.trans hlen.symm)) ?_
  rintro items rfl
  refine endsOr_bind (freeArray_endsOr hmem) fun heap' _ => ?_
  exact sortOf_passes hpasses (by omega)

end Loops

/-- **The three sorts** end, unless memory runs out or a comparison stops: whatever the comparisons give,
they permute the elements, and for a total preorder they leave the stable sort. -/
theorem sorts_are_stable {K : Type} {A : Allocator σ} {t : ElemType T} {fuel : Nat} {v : Vec σ T}
    (hmem : C ∨ Plentiful A) (hv : Made t v) (hsize : 4 ≤ t.size.toInt) (hfuel : v.elems.length < fuel)
    (cmp : Compare σ T) (hcmp : ∀ heap a b, EndsOr C (fun _ => True) (cmp heap a b))
    (ctx : K) (cmpWith : σ → K → T → T → Outcome (BitVec 32 × σ))
    (hcmpWith : ∀ heap a b, EndsOr C (fun _ => True) (cmpWith heap ctx a b))
    (ord : Ord σ T) (hord : ∀ heap a b, EndsOr C (fun _ => True) (ord.compare heap a b)) :
    EndsOr C (SortOf cmp v) (sortBy A t cmp fuel v)
      ∧ EndsOr C (SortOf (fun heap a b => cmpWith heap ctx a b) v) (sortByWith A t ctx cmpWith fuel v)
      ∧ EndsOr C (SortOf ord.compare v) (sort A t ord fuel v) :=
  ⟨mergeSort_endsOr hcmp hmem hv hsize hfuel, mergeSort_endsOr hcmpWith hmem hv hsize hfuel,
    mergeSort_endsOr hord hmem hv hsize hfuel⟩

/-! ### Sorting words -/

def cmpI32 (a b : BitVec 32) : BitVec 32 := if a.slt b then -1#32 else if b.slt a then 1#32 else 0#32

theorem cmpI32_sle (a b : BitVec 32) : (cmpI32 a b).sle 0#32 = a.sle b := by
  rw [BitVec.sle_eq_not_slt (x := a), cmpI32]
  by_cases hab : a.slt b = true
  · have hba : b.slt a = false := by
      simp only [BitVec.slt_eq_decide, decide_eq_true_eq, decide_eq_false_iff_not] at hab ⊢
      omega
    rw [if_pos hab, hba]
    rfl
  · rw [if_neg hab]
    cases hba : b.slt a with
    | true => rfl
    | false => rfl

theorem cmpI32_totalPreorder : TotalPreorder fun a b => (cmpI32 a b).sle 0#32 := by
  have hle : (fun a b => (cmpI32 a b).sle 0#32) = fun a b => a.sle b := by
    funext a b
    exact cmpI32_sle a b
  rw [hle]
  constructor
  · intro a b c hab hbc
    simp only [BitVec.sle_eq_decide, decide_eq_true_eq] at *
    exact hab.trans hbc
  · intro a b
    simp only [BitVec.sle_eq_decide, decide_eq_true_eq]
    exact Int.le_total a.toInt b.toInt

/-- An allocator that counts nothing, and always has memory. -/
def boundless : Allocator Unit := ⟨fun _ _ => some (), fun _ _ => some ()⟩

theorem boundless_plentiful : Plentiful boundless := ⟨fun _ _ => rfl, fun _ _ => rfl⟩

theorem threeWords_sorted :
    Ends (fun v => IsStableSort (fun a b => (cmpI32 a b).sle 0#32) [3#32, 1#32, 2#32] v.elems)
      (sortBy boundless i32 (fun heap a b => done (cmpI32 a b, heap)) 4
        ⟨[3#32, 1#32, 2#32], 4#32, ()⟩) := by
  have hcompare : ∀ heap a b, EndsOr False (fun _ => True)
      ((fun heap a b => done (cmpI32 a b, heap) : Compare Unit (BitVec 32)) heap a b) :=
    fun _ _ _ => trivial
  have hmade : Made i32 (⟨[3#32, 1#32, 2#32], 4#32, ()⟩ : Vec Unit (BitVec 32)) :=
    ⟨⟨by decide, by decide, by decide⟩, by decide⟩
  have hsort := (sorts_are_stable (.inr boundless_plentiful) hmade (by decide)
    (show _ < 4 by decide)
    (fun heap a b => done (cmpI32 a b, heap)) hcompare () (fun heap _ a b => done (cmpI32 a b, heap)) hcompare
    ⟨fun heap a b => done (cmpI32 a b, heap)⟩ hcompare).1
  refine endsOr_false.mp (hsort.mono fun v h => h.stable cmpI32 ?_ cmpI32_totalPreorder)
  intro heap a b c heap' hrun
  injection hrun with hrun
  exact (Prod.mk.inj hrun).1.symm

end Aipl.Std.Vec
