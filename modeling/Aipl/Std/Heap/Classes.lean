import Aipl.Std.Heap.Model
import Mathlib.Tactic.Ring

/-! # Size classes

* `classOf_returns` — the class found for a size holds it, and is one of the heap's.
* `classOf_unique` — a size has one class, whatever the fuel.
-/

namespace Aipl.StdHeap

open Aipl.Lib Aipl.Lib.Outcome Aipl.Std

/-- `1` shifted is at most `2^30`, as a signed word. -/
theorem toInt_shl_one_le (k : BitVec 32) : (shl 1#32 k).toInt ≤ 2 ^ 30 := by
  have hlt : k.toNat % 32 < 32 := Nat.mod_lt _ (by decide)
  have hnat : (shl 1#32 k).toNat = 2 ^ (k.toNat % 32) := by
    have hpow : 2 ^ (k.toNat % 32) < 2 ^ 32 := Nat.pow_lt_pow_right (by decide) hlt
    rw [shl, BitVec.toNat_shiftLeft, Nat.shiftLeft_eq]
    have h1 : (1#32).toNat = 1 := rfl
    rw [h1, Nat.one_mul, Nat.mod_eq_of_lt hpow]
  rw [BitVec.toInt_eq_toNat_cond, hnat]
  rcases Nat.lt_or_ge (k.toNat % 32) 31 with h | h
  · have : 2 ^ (k.toNat % 32) ≤ 2 ^ 30 := Nat.pow_le_pow_right (by decide) (by omega)
    split <;> omega
  · have h31 : k.toNat % 32 = 31 := by omega
    rw [h31]
    decide

/-- What the loop of `class_of` finds: the highest bit of `s`, which is below `2^30`. -/
structure TopBit (s k : BitVec 32) : Prop where
  small : s.toNat < 2 ^ 30
  five_le : 5 ≤ k.toNat
  le : k.toNat ≤ 29
  pow_le : 2 ^ k.toNat ≤ s.toNat
  lt_pow : s.toNat < 2 ^ (k.toNat + 1)

theorem topBit_returns {s : BitVec 32} (h32 : 32 ≤ s.toNat) (hs : s.toNat < 2 ^ 31) (fuel : Nat) :
    Returns (TopBit s) (iterate (topBit s) fuel 5#32) := by
  refine iterate_returns
    (fun k => s.toNat < 2 ^ 30 → 5 ≤ k.toNat ∧ k.toNat ≤ 29 ∧ 2 ^ k.toNat ≤ s.toNat) _ ?_ fuel 5#32
    (fun _ => ⟨le_rfl, by decide, h32⟩)
  intro k hk
  rw [topBit]
  by_cases hle : (shl 1#32 (k + 1#32)).sle s = true
  · rw [if_pos hle]
    intro hsmall
    obtain ⟨h5, h29, hpow⟩ := hk hsmall
    have hnext : (k + 1#32).toNat = k.toNat + 1 := by
      rw [BitVec.toNat_add]
      exact Nat.mod_eq_of_lt (by change k.toNat + 1 < 2 ^ 32; omega)
    have hshl : (shl 1#32 (k + 1#32)).toNat = 2 ^ (k.toNat + 1) := by
      rw [toNat_shl_one (by omega), hnext]
    have hbound : 2 ^ (k.toNat + 1) ≤ 2 ^ 30 := Nat.pow_le_pow_right (by decide) (by omega)
    rw [sle_iff (by omega) hs, hshl] at hle
    have hlt : k.toNat + 1 < 30 := (Nat.pow_lt_pow_iff_right (a := 2) (by decide)).mp (by omega)
    exact ⟨by omega, by omega, by rw [hnext]; exact hle⟩
  · rw [if_neg hle]
    -- the loop is only left when a shift is above s, and no shift is above 2^30
    have hlt := toInt_shl_one_le (k + 1#32)
    rw [BitVec.sle_eq_decide, decide_eq_true_eq, toInt_eq_toNat hs] at hle
    have hsmall : s.toNat < 2 ^ 30 := by omega
    obtain ⟨h5, h29, hpow⟩ := hk hsmall
    have hnext : (k + 1#32).toNat = k.toNat + 1 := by
      rw [BitVec.toNat_add]
      exact Nat.mod_eq_of_lt (by change k.toNat + 1 < 2 ^ 32; omega)
    have hbound : 2 ^ (k.toNat + 1) ≤ 2 ^ 30 := Nat.pow_le_pow_right (by decide) (by omega)
    have hshl : (shl 1#32 (k + 1#32)).toNat = 2 ^ (k.toNat + 1) := by
      rw [toNat_shl_one (by omega), hnext]
    rw [toInt_eq_toNat (by omega), hshl] at hle
    exact ⟨hsmall, h5, h29, hpow, by omega⟩

/-- The size of the class `3 + 4a + b`: `a` doublings from 32, and `b` quarters. -/
theorem toNat_classSize {c : BitVec 32} {a b : Nat} (hc : c.toNat = 3 + (4 * a + b)) (hb : b < 4)
    (ha : a ≤ 25) : (classSize c).toNat = (4 + b) * 2 ^ (a + 3) := by
  have hpow : 2 ^ (a + 3) ≤ 2 ^ 28 := Nat.pow_le_pow_right (by decide) (by omega)
  have h3 : (3#32).toNat = 3 := rfl
  have h4 : (4#32).toNat = 4 := rfl
  have hsub : (c - 3#32).toNat = 4 * a + b := by
    rw [BitVec.toNat_sub, h3, hc]
    omega
  have hdiv : ((c - 3#32).sdiv 4#32).toNat = a := by
    rw [toNat_sdiv (by omega) (by decide), hsub, h4]
    omega
  have hrem : ((c - 3#32).srem 4#32).toNat = b := by
    rw [toNat_srem (by omega) (by decide), hsub, h4]
    omega
  have hk : (5#32 + (c - 3#32).sdiv 4#32).toNat = a + 5 := by
    rw [BitVec.toNat_add, hdiv]
    change (5 + a) % 2 ^ 32 = a + 5
    omega
  have hk2 : (5#32 + (c - 3#32).sdiv 4#32 - 2#32).toNat = a + 3 := by
    rw [BitVec.toNat_sub, hk]
    change (2 ^ 32 - 2 + (a + 5)) % 2 ^ 32 = a + 3
    omega
  have hpow5 : 2 ^ (a + 5) = 4 * 2 ^ (a + 3) := by ring
  have hq : b * 2 ^ (a + 3) ≤ 3 * 2 ^ (a + 3) := Nat.mul_le_mul_right _ (by omega)
  rw [classSize, if_neg (by rw [slt_iff (by omega) (by decide), h3]; omega)]
  dsimp only
  rw [BitVec.toNat_add, BitVec.toNat_mul, hrem, toNat_shl_one (by omega), toNat_shl_one (by omega),
    hk, hk2, hpow5, Nat.add_mul]
  omega

/-- Class `c` holds a request of `n` bytes, and is one of the heap's. -/
structure Fits (n c : BitVec 32) : Prop where
  class_lt : c.toNat < NCLASSES
  le : (round8 n).toNat ≤ (classSize c).toNat
  size_le : (classSize c).toNat ≤ 2 ^ 30
  dvd : 8 ∣ (classSize c).toNat

theorem toNat_small_class {s : BitVec 32} (h8 : 8 ∣ s.toNat) (hpos : 0 < s.toNat)
    (hle : s.toNat ≤ 24) : (s.sdiv 8#32 - 1#32).toNat = s.toNat / 8 - 1 ∧
      (classSize (s.sdiv 8#32 - 1#32)).toNat = s.toNat := by
  have hdiv : (s.sdiv 8#32).toNat = s.toNat / 8 := toNat_sdiv (by omega) (by decide)
  have hc : (s.sdiv 8#32 - 1#32).toNat = s.toNat / 8 - 1 := by
    rw [BitVec.toNat_sub, hdiv]
    change (2 ^ 32 - 1 + s.toNat / 8) % 2 ^ 32 = s.toNat / 8 - 1
    omega
  refine ⟨hc, ?_⟩
  have h3 : (3#32).toNat = 3 := rfl
  rw [classSize, if_pos (by rw [slt_iff (by omega) (by decide), h3]; omega), BitVec.toNat_mul,
    BitVec.toNat_add, hc]
  change 8 * ((s.toNat / 8 - 1 + 1) % 2 ^ 32) % 2 ^ 32 = s.toNat
  omega

/-- The class `c` of a size `s` above 24: `a` doublings from 32 and `j` quarters, where four quarters
are the next doubling. -/
structure Quarters (s c : BitVec 32) (a j : Nat) : Prop where
  doublings_le : a ≤ 24
  quarters_le : j ≤ 4
  class_eq : c.toNat = 3 + (4 * a + j)
  base_le : 4 * 2 ^ (a + 3) ≤ s.toNat
  le : s.toNat ≤ (4 + j) * 2 ^ (a + 3)
  lt : (4 + j) * 2 ^ (a + 3) < s.toNat + 2 ^ (a + 3)

/-- What `class_of` does with the highest bit `k` of `s`. -/
def quarterClass (s k : BitVec 32) : Outcome (BitVec 32) :=
  let base := shl 1#32 k
  let step := shl 1#32 (k - 2#32)
  let j := (s - base + (step - 1#32)).sdiv step
  if j = 4#32 then pure (3#32 + (4#32 * (k + 1#32 - 5#32) + 0#32))
  else pure (3#32 + (4#32 * (k - 5#32) + j))

theorem classOf_large {n : BitVec 32} (hpos : (0#32).slt n = true)
    (hlarge : ¬ (round8 n).sle 24#32 = true) (fuel : Nat) :
    classOf fuel n = iterate (topBit (round8 n)) fuel 5#32 >>= quarterClass (round8 n) := by
  rw [classOf, hpos]
  dsimp only
  rw [if_neg hlarge]
  rfl

/-- The number of quarter steps from the highest bit up to `s`, rounded up. -/
theorem quarters_le_lt {s q j : Nat} (hq : 0 < q) (hlo : 4 * q ≤ s) (hhi : s < 8 * q)
    (hj : j = (s - 4 * q + (q - 1)) / q) : j ≤ 4 ∧ s ≤ (4 + j) * q ∧ (4 + j) * q < s + q := by
  have hdm := Nat.div_add_mod (s - 4 * q + (q - 1)) q
  have hmod := Nat.mod_lt (s - 4 * q + (q - 1)) hq
  rw [← hj] at hdm
  have hmul : (4 + j) * q = 4 * q + q * j := by ring
  refine ⟨?_, by omega, by omega⟩
  by_contra hgt
  have : q * 5 ≤ q * j := Nat.mul_le_mul_left q (by omega)
  omega

theorem quarterClass_eq {s k : BitVec 32} (hk : TopBit s k) :
    ∃ c a j, quarterClass s k = done c ∧ Quarters s c a j := by
  obtain ⟨hs30, h5, h29, hpow, hlt⟩ := hk
  obtain ⟨a, ha⟩ : ∃ a, k.toNat = a + 5 := ⟨k.toNat - 5, by omega⟩
  have hk2 : (k - 2#32).toNat = a + 3 := by
    rw [BitVec.toNat_sub, ha]
    change (2 ^ 32 - 2 + (a + 5)) % 2 ^ 32 = a + 3
    omega
  have hq : 2 ^ (a + 3) ≤ 2 ^ 27 := Nat.pow_le_pow_right (by decide) (by omega)
  have hqpos : 0 < 2 ^ (a + 3) := Nat.two_pow_pos _
  have hbase : (shl 1#32 k).toNat = 4 * 2 ^ (a + 3) := by
    rw [toNat_shl_one (by omega), ha]
    ring
  have hstep : (shl 1#32 (k - 2#32)).toNat = 2 ^ (a + 3) := by
    rw [toNat_shl_one (by omega), hk2]
  have hlo : 4 * 2 ^ (a + 3) ≤ s.toNat := by
    rw [ha] at hpow
    calc 4 * 2 ^ (a + 3) = 2 ^ (a + 5) := by ring
      _ ≤ s.toNat := hpow
  have hhi : s.toNat < 8 * 2 ^ (a + 3) := by
    rw [ha] at hlt
    calc s.toNat < 2 ^ (a + 5 + 1) := hlt
      _ = 8 * 2 ^ (a + 3) := by ring
  have hnum : (s - shl 1#32 k + (shl 1#32 (k - 2#32) - 1#32)).toNat
      = s.toNat - 4 * 2 ^ (a + 3) + (2 ^ (a + 3) - 1) := by
    rw [BitVec.toNat_add, BitVec.toNat_sub, BitVec.toNat_sub, hbase, hstep]
    change (_ + (2 ^ 32 - 1 + 2 ^ (a + 3)) % 2 ^ 32) % 2 ^ 32 = _
    omega
  have hj : ((s - shl 1#32 k + (shl 1#32 (k - 2#32) - 1#32)).sdiv (shl 1#32 (k - 2#32))).toNat
      = (s.toNat - 4 * 2 ^ (a + 3) + (2 ^ (a + 3) - 1)) / 2 ^ (a + 3) := by
    rw [toNat_sdiv (by omega) (by omega), hnum, hstep]
  rw [quarterClass]
  generalize (s - shl 1#32 k + (shl 1#32 (k - 2#32) - 1#32)).sdiv (shl 1#32 (k - 2#32)) = j at hj ⊢
  obtain ⟨hj4, hle, hgt⟩ := quarters_le_lt hqpos hlo hhi hj
  by_cases h4 : j = 4#32
  · rw [if_pos h4]
    refine ⟨_, a, j.toNat, rfl, ⟨by omega, hj4, ?_, hlo, hle, hgt⟩⟩
    rw [h4, BitVec.toNat_add, BitVec.toNat_add, BitVec.toNat_mul, BitVec.toNat_sub,
      BitVec.toNat_add, ha]
    change (3 + (4 * ((2 ^ 32 - 5 + (a + 5 + 1) % 2 ^ 32) % 2 ^ 32) % 2 ^ 32 + 0) % 2 ^ 32)
      % 2 ^ 32 = 3 + (4 * a + 4)
    omega
  · rw [if_neg h4]
    refine ⟨_, a, j.toNat, rfl, ⟨by omega, hj4, ?_, hlo, hle, hgt⟩⟩
    rw [BitVec.toNat_add, BitVec.toNat_add, BitVec.toNat_mul, BitVec.toNat_sub, ha]
    change (3 + (4 * ((2 ^ 32 - 5 + (a + 5)) % 2 ^ 32) % 2 ^ 32 + j.toNat) % 2 ^ 32)
      % 2 ^ 32 = _
    omega

/-- The size of a class, also where its quarters are four. -/
theorem Quarters.size_eq {s c : BitVec 32} {a j : Nat} (h : Quarters s c a j) :
    (classSize c).toNat = (4 + j) * 2 ^ (a + 3) := by
  have ha := h.doublings_le
  have hc := h.class_eq
  rcases Nat.lt_or_eq_of_le h.quarters_le with hlt | rfl
  · exact toNat_classSize hc hlt (by omega)
  · rw [toNat_classSize (a := a + 1) (b := 0) (by omega) (by decide) (by omega)]
    ring

/-- **The class of a size holds it.** -/
theorem classOf_returns {n : BitVec 32} (hn : n.toNat ≤ 1879048184) (fuel : Nat) :
    Returns (Fits n) (classOf fuel n) := by
  cases hpos : (0#32).slt n with
  | false =>
    rw [classOf, hpos]
    trivial
  | true =>
    have hpos' := (zero_slt_iff (by omega)).mp hpos
    have hround := toNat_round8 (n := n) (by omega)
    have h8 := dvd_toNat_round8 n
    by_cases hsmall : (round8 n).sle 24#32 = true
    · have h24 : (round8 n).toNat ≤ 24 := (sle_iff (by omega) (by decide)).mp hsmall
      obtain ⟨hc, hsize⟩ := toNat_small_class h8 (by omega) h24
      rw [classOf, hpos]
      dsimp only
      rw [if_pos hsmall]
      exact ⟨by rw [hc, NCLASSES]; omega, hsize.ge, by omega, by rw [hsize]; exact h8⟩
    · have h24 : ¬ (round8 n).toNat ≤ 24 := fun h => hsmall ((sle_iff (by omega) (by decide)).mpr h)
      rw [classOf_large hpos hsmall]
      refine returns_bind (topBit_returns (by omega) (by omega) fuel) fun k hk => ?_
      obtain ⟨c, a, j, hdone, hq⟩ := quarterClass_eq hk
      rw [hdone, returns_done]
      have ha := hq.doublings_le
      have hj := hq.quarters_le
      have hc := hq.class_eq
      have hp : 2 ^ (a + 3) ≤ 2 ^ 27 := Nat.pow_le_pow_right (by decide) (by omega)
      have hsize := hq.size_eq
      have hmul : (4 + j) * 2 ^ (a + 3) ≤ 8 * 2 ^ (a + 3) := Nat.mul_le_mul_right _ (by omega)
      refine ⟨by rw [hc, NCLASSES]; omega, by rw [hsize]; exact hq.le, by omega, ?_⟩
      rw [hsize]
      exact Dvd.dvd.mul_left ⟨2 ^ a, by ring⟩ _

/-- A size has one class. -/
theorem classOf_unique {n c c' : BitVec 32} {fuel fuel' : Nat} (h : classOf fuel n = done c)
    (h' : classOf fuel' n = done c') : c = c' := by
  rw [classOf] at h h'
  cases hr : require ((0#32).slt n) with
  | done _ =>
    rw [hr, done_bind] at h h'
    dsimp only at h h'
    split at h
    · rw [if_pos ‹_›] at h'
      rw [h] at h'
      injection h'
    · rw [if_neg ‹_›] at h'
      cases hk : iterate (topBit (round8 n)) fuel 5#32 with
      | done k =>
        cases hk' : iterate (topBit (round8 n)) fuel' 5#32 with
        | done k' =>
          obtain rfl := iterate_unique hk hk'
          rw [hk, done_bind] at h
          rw [hk', done_bind, h] at h'
          injection h'
        | stop =>
          rw [hk'] at h'
          cases h'
        | outOfFuel =>
          rw [hk'] at h'
          cases h'
      | stop =>
        rw [hk] at h
        cases h
      | outOfFuel =>
        rw [hk] at h
        cases h
  | stop =>
    rw [hr] at h
    cases h
  | outOfFuel =>
    rw [hr] at h
    cases h

/-- `c` is the class of `n`. -/
def HasClass (n c : BitVec 32) : Prop := ∃ fuel, classOf fuel n = done c

theorem HasClass.unique {n c c' : BitVec 32} (h : HasClass n c) (h' : HasClass n c') : c = c' := by
  obtain ⟨_, h⟩ := h
  obtain ⟨_, h'⟩ := h'
  exact classOf_unique h h'

theorem HasClass.fits {n c : BitVec 32} (h : HasClass n c) (hn : n.toNat ≤ 1879048184) :
    Fits n c := by
  obtain ⟨fuel, h⟩ := h
  exact (classOf_returns hn fuel).of_eq_done h

end Aipl.StdHeap
