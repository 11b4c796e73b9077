import Aipl.Std.Heap.Classes

/-! # The smallest class

* `classOf_smallest` — below `2^30`, `class_of` ends, with the smallest class that holds the size.
* `topBit_endless` — from `2^30` on its loop never ends: no shifted 1 is above `2^30`.
* `classOf_exact` — so it does what `raw` asks of it up to `2^30 - 8` bytes, and not beyond.
-/

namespace Aipl.StdHeap

open Aipl.Lib Aipl.Lib.Outcome Aipl.Std

/-- What `class_of` should find for `n`: a class of the heap that holds `n` bytes, where the class
below, if there is one, is too small. -/
structure SmallestClass (n c : BitVec 32) : Prop where
  nonneg : 0 ≤ c.toInt
  class_lt : c.toInt < NCLASSES
  le : n.toInt ≤ (classSize c).toInt
  below : c = 0#32 ∨ (classSize (c - 1#32)).toInt < (round8 n).toInt

/-- The clauses of `SmallestClass`, on small unsigned values. -/
theorem SmallestClass.of_toNat {n c : BitVec 32} (hn : n.toNat ≤ 2 ^ 30) (hfits : Fits n c)
    (hbelow : c = 0#32 ∨ (classSize (c - 1#32)).toNat < (round8 n).toNat) : SmallestClass n c := by
  have hc := hfits.class_lt
  rw [NCLASSES] at hc
  have hround := toNat_round8 (n := n) (by omega)
  have hle := hfits.le
  have hsize := hfits.size_le
  refine ⟨?_, ?_, ?_, hbelow.imp_right fun hb => ?_⟩
  · rw [toInt_eq_toNat (by omega)]
    omega
  · rw [toInt_eq_toNat (by omega), NCLASSES]
    omega
  · rw [toInt_eq_toNat (by omega), toInt_eq_toNat (by omega)]
    omega
  · rw [toInt_eq_toNat (by omega), toInt_eq_toNat (by omega)]
    omega

/-- The class below one found by quarters is too small for `s`. -/
theorem Quarters.below {s c : BitVec 32} {a j : Nat} (h : Quarters s c a j) (hs : 24 < s.toNat) :
    (classSize (c - 1#32)).toNat < s.toNat := by
  have ha := h.doublings_le
  have hj := h.quarters_le
  have hc := h.class_eq
  have hpred : (c - 1#32).toNat = c.toNat - 1 :=
    toNat_sub_of_le (by change 1 ≤ c.toNat; omega)
  rcases Nat.eq_zero_or_pos j with rfl | hjpos
  · rcases Nat.eq_zero_or_pos a with rfl | hapos
    · -- class 3 is the first with quarters: class 2 holds 24 bytes
      have h2 : c - 1#32 = 2#32 := BitVec.eq_of_toNat_eq (by rw [hpred, hc]; rfl)
      rw [h2]
      exact hs
    · have hpow : 2 ^ (a + 3) = 2 * 2 ^ (a - 1 + 3) := by
        rw [← Nat.pow_succ', show Nat.succ (a - 1 + 3) = a + 3 by omega]
      rw [toNat_classSize (a := a - 1) (b := 3) (by omega) (by decide) (by omega)]
      have hbase := h.base_le
      have hpos : 0 < 2 ^ (a - 1 + 3) := Nat.two_pow_pos _
      omega
  · rw [toNat_classSize (a := a) (b := j - 1) (by omega) (by omega) (by omega)]
    have hlt := h.lt
    have hmul : (4 + j) * 2 ^ (a + 3) = (4 + (j - 1)) * 2 ^ (a + 3) + 2 ^ (a + 3) := by
      rw [← Nat.succ_mul, show Nat.succ (4 + (j - 1)) = 4 + j by omega]
    omega

/-! ### Where the loop ends -/

/-- Below `2^30` the loop for the highest bit ends: it stops at 29 or before. -/
theorem topBit_ends {s : BitVec 32} (hs : s.toNat < 2 ^ 30) :
    Ends (fun _ => True) (iterate (topBit s) 27 5#32) := by
  refine iterate_ends (fun k => k.toNat ≤ 29) _ (fun k => 29 - k.toNat) (fun k hk => ?_) 27 5#32
    (by decide) (by decide)
  rw [topBit]
  by_cases hle : (shl 1#32 (k + 1#32)).sle s = true
  · rw [if_pos hle]
    have hnext : (k + 1#32).toNat = k.toNat + 1 := toNat_succ (by omega)
    have hshl : (shl 1#32 (k + 1#32)).toNat = 2 ^ (k.toNat + 1) := by
      rw [toNat_shl_one (by omega), hnext]
    have hbound : 2 ^ (k.toNat + 1) ≤ 2 ^ 30 := Nat.pow_le_pow_right (by decide) (by omega)
    rw [sle_iff (by omega) (by omega), hshl] at hle
    have hlt : k.toNat + 1 < 30 := (Nat.pow_lt_pow_iff_right (a := 2) (by decide)).mp (by omega)
    exact ⟨by omega, by omega⟩
  · rw [if_neg hle]
    trivial

/-- From `2^30` on the loop for the highest bit never ends: `1` shifted is at most `2^30`. -/
theorem topBit_endless {s : BitVec 32} (hs : 2 ^ 30 ≤ s.toInt) :
    ∀ (fuel : Nat) (k : BitVec 32), iterate (topBit s) fuel k = outOfFuel
  | 0, _ => rfl
  | fuel + 1, k => by
      have hle : (shl 1#32 (k + 1#32)).sle s = true := by
        rw [BitVec.sle_eq_decide, decide_eq_true_eq]
        exact (toInt_shl_one_le _).trans hs
      rw [iterate, topBit, if_pos hle, done_bind]
      exact topBit_endless hs fuel (k + 1#32)

/-- **Below `2^30`** a size has a class, and it is the smallest that holds it. -/
theorem classOf_smallest {n : BitVec 32} (hpos : 0 < n.toNat) (hn : n.toNat ≤ 2 ^ 30 - 8) :
    ∃ c, classOf 27 n = done c ∧ SmallestClass n c := by
  have hround := toNat_round8 (n := n) (by omega)
  have hslt : (0#32).slt n = true := (zero_slt_iff (by omega)).mpr hpos
  by_cases hsmall : (round8 n).sle 24#32 = true
  · have h24 : (round8 n).toNat ≤ 24 := (sle_iff (by omega) (by decide)).mp hsmall
    obtain ⟨hc, -⟩ := toNat_small_class (dvd_toNat_round8 n) (by omega) h24
    have hdone : classOf 27 n = done ((round8 n).sdiv 8#32 - 1#32) := by
      rw [classOf, hslt]
      exact if_pos hsmall
    refine ⟨_, hdone, .of_toNat (by omega) ((classOf_returns (by omega) 27).of_eq_done hdone) ?_⟩
    rcases Nat.eq_zero_or_pos ((round8 n).toNat / 8 - 1) with h0 | hcpos
    · exact .inl (BitVec.eq_of_toNat_eq (by rw [hc, h0]; rfl))
    · refine .inr ?_
      have hpred : ((round8 n).sdiv 8#32 - 1#32 - 1#32).toNat = (round8 n).toNat / 8 - 1 - 1 := by
        rw [toNat_sub_of_le (by rw [hc]; exact hcpos), hc]
        rfl
      have h3 : (3#32).toNat = 3 := rfl
      rw [classSize, if_pos (by rw [slt_iff (by omega) (by decide), h3]; omega), BitVec.toNat_mul,
        BitVec.toNat_add, hpred]
      change 8 * ((_ - 1 - 1 + 1) % 2 ^ 32) % 2 ^ 32 < _
      omega
  · have h24 : ¬ (round8 n).toNat ≤ 24 := fun h => hsmall ((sle_iff (by omega) (by decide)).mpr h)
    obtain ⟨k, hk, -⟩ := (topBit_ends (s := round8 n) (by omega)).exists
    have htop : TopBit (round8 n) k :=
      (topBit_returns (by omega) (by omega) 27).of_eq_done hk
    obtain ⟨c, a, j, hc, hq⟩ := quarterClass_eq htop
    have hdone : classOf 27 n = done c := by
      rw [classOf_large hslt hsmall, hk, done_bind, hc]
    exact ⟨c, hdone, .of_toNat (by omega) ((classOf_returns (by omega) 27).of_eq_done hdone)
      (.inr (hq.below (by omega)))⟩

/-- **Above `2^30 - 8`** no class is found, in any number of rounds. -/
theorem classOf_endless {n : BitVec 32} (hn : 2 ^ 30 - 8 < n.toNat) (hmax : n.toNat ≤ 1879048184)
    (fuel : Nat) : classOf fuel n = outOfFuel := by
  have hround := toNat_round8 (n := n) (by omega)
  have hslt : (0#32).slt n = true := (zero_slt_iff (by omega)).mpr (by omega)
  have hlarge : ¬ (round8 n).sle 24#32 = true := by
    rw [sle_iff (by omega) (by decide)]
    change ¬ (round8 n).toNat ≤ 24
    omega
  rw [classOf_large hslt hlarge, topBit_endless (by rw [toInt_eq_toNat (by omega)]; omega)]
  rfl

/-- **Where `class_of` does what it says.**  Of the sizes `raw` accepts, exactly those up to
`2^30 - 8` get a class: the smallest one that holds them. -/
theorem classOf_exact (n : BitVec 32) (hpos : 0 < n.toInt) (hmax : n.toInt ≤ 1879048184) :
    (∃ fuel c, classOf fuel n = done c ∧ SmallestClass n c) ↔ n.toInt ≤ 2 ^ 30 - 8 := by
  obtain ⟨hint, hlt⟩ := toInt_of_nonneg hpos.le
  rw [hint] at hpos hmax ⊢
  constructor
  · rintro ⟨fuel, c, hc, -⟩
    by_contra hbig
    rw [classOf_endless (by omega) (by omega)] at hc
    cases hc
  · intro hn
    obtain ⟨c, hc⟩ := classOf_smallest (n := n) (by omega) (by omega)
    exact ⟨27, c, hc⟩

/-- A request of 1000 bytes is one of those that get a class. -/
theorem classOf_exact_1000 :
    (∃ fuel c, classOf fuel 1000#32 = done c ∧ SmallestClass 1000#32 c) ↔
      (1000#32).toInt ≤ 2 ^ 30 - 8 :=
  classOf_exact 1000#32 (by decide) (by decide)

/-- A request of 2^30 bytes, which `raw` accepts, gets no class: the search never ends. -/
theorem classOf_gigabyte :
    ¬ ∀ n : BitVec 32, 0 < n.toInt → n.toInt ≤ 1879048184 →
      ∃ fuel c, classOf fuel n = done c ∧ SmallestClass n c := by
  intro h
  obtain ⟨fuel, c, hc, -⟩ := h 1073741824#32 (by decide) (by decide)
  rw [classOf_endless (by decide) (by decide)] at hc
  cases hc

end Aipl.StdHeap
