import Aipl.Std.Bigint.Magnitude

/-! # The operations compute integers

Each operation, on canonical numbers, leaves the number it writes canonical and standing for the
integer that the operation is, and every other number as it was.

* `setI32_sat`, `assign_sat`, `mulSmall_sat`.
* `addMulSmall_endsOr`, `subMulSmall_endsOr` — which stop only for want of memory.
* `compare_ends` — the order of the integers.
-/

namespace Aipl.StdBigint

open Aipl.Lib Aipl.Lib.Outcome Aipl.Lib.Radix Aipl.Std

variable {ι σ : Type} (A : ι → Allocator σ) {fuel : Nat} {w : World ι σ} {C : Prop}

/-- Number `p` has come to stand for `v`, in canonical form. -/
structure Computed (p : Nat) (v : Int) (w w' : World ι σ) : Prop where
  only : OnlyAt p w w'
  canonical : Canonical (w'.ints p)
  val : val (w'.ints p) = v

theorem Trimmed.computed {p : Nat} {v : Int} {w₁ w₂ : World ι σ} (h : Trimmed p w₁ w₂)
    (honly : OnlyAt p w w₁) (hval : StdBigint.val (w₁.ints p) = v) : Computed p v w w₂ :=
  ⟨honly.trans h.only, h.canonical, h.val.trans hval⟩

/-! ### Small factors -/

theorem slt_signExtend (m : BitVec 32) : (m.signExtend 64).slt 0#64 = decide (m.toInt < 0) := by
  rw [BitVec.slt_eq_decide, BitVec.toInt_signExtend_of_le (by decide)]
  rfl

/-- The absolute value of an `i32`, as an `i64`. -/
theorem toNat_abs (m : BitVec 32) :
    (if (m.signExtend 64).slt 0#64 then 0#64 - m.signExtend 64 else m.signExtend 64).toNat
      = m.toInt.natAbs := by
  have hm : (m.signExtend 64).toInt = m.toInt := BitVec.toInt_signExtend_of_le (by decide)
  have hlo := BitVec.le_toInt m
  have hhi := BitVec.toInt_lt (x := m)
  rw [slt_signExtend]
  rw [BitVec.toInt_eq_toNat_cond] at hm
  split
  · rename_i h
    rw [decide_eq_true_eq] at h
    rw [BitVec.toNat_sub]
    simp only [BitVec.toNat_ofNat]
    split at hm <;> omega
  · rename_i h
    rw [decide_eq_true_eq] at h
    split at hm <;> omega

theorem slt_zero (m : BitVec 32) : m.slt 0#32 = decide (m.toInt < 0) := by
  rw [BitVec.slt_eq_decide]
  rfl

/-- The contract `(gt m -2147483648)`. -/
theorem natAbs_lt {m : BitVec 32} (h : (-2147483648#32).slt m = true) : m.toInt.natAbs < 2 ^ 31 := by
  have hhi := BitVec.toInt_lt (x := m)
  have hmin : (-2147483648#32).toInt = -2147483648 := by decide
  rw [BitVec.slt_eq_decide, decide_eq_true_eq, hmin] at h
  omega

/-! ### Signs -/

theorem Shape.setNeg {n : BigInt ι} (h : Shape n) (neg : Bool) : Shape { n with neg := neg } :=
  ⟨h.room, h.size, h.len, h.lt, h.beyond⟩

theorem isZero_iff (p : Nat) : isZero w p = true ↔ (w.ints p).len = 0#32 := by
  rw [isZero, beq_iff_eq]

/-- A term's sign: that of `b`, turned around by a negative factor. -/
theorem val_mul (n : BigInt ι) (m : BitVec 32) :
    val n * m.toInt = if (if m.slt 0#32 then !n.neg else n.neg) then -(mag n * m.toInt.natAbs)
      else mag n * m.toInt.natAbs := by
  rw [slt_zero, val]
  rcases lt_or_ge m.toInt 0 with hneg | hpos
  · have habs : (m.toInt.natAbs : Int) = -m.toInt := by omega
    rw [decide_eq_true hneg, habs]
    cases n.neg <;> simp
  · have habs : (m.toInt.natAbs : Int) = m.toInt := by omega
    rw [decide_eq_false (by omega), habs]
    cases n.neg <;> simp

/-! ### Adding a multiple -/

theorem addMulSmall_endsOr {a b : Nat} {m : BitVec 32} (ha : Canonical (w.ints a))
    (hb : Canonical (w.ints b)) (hm : C ∨ (-2147483648#32).slt m = true)
    (hmem : C ∨ Roomy A (max (w.ints a).len.toNat (w.ints b).len.toNat + 1))
    (hfuel : 2 ^ 30 ≤ fuel) :
    EndsOr C (Computed a (val (w.ints a) + val (w.ints b) * m.toInt) w) (addMulSmall A fuel w a b m) := by
  rw [addMulSmall]
  refine endsOr_bind (Q := fun _ => m.toInt.natAbs < 2 ^ 31) (endsOr_require natAbs_lt hm)
    fun _ hm => ?_
  have hmm := toNat_abs m
  have hterm := val_mul (w.ints b) m
  dsimp only
  generalize (if (m.signExtend 64).slt 0#64 then 0#64 - m.signExtend 64 else m.signExtend 64) = mm
    at hmm ⊢
  generalize (if m.slt 0#32 then !(w.ints b).neg else (w.ints b).neg) = termNeg at hterm ⊢
  rw [← hmm] at hterm hm
  -- a zero takes the sign of the term
  obtain ⟨w₁, hw₁, honly₁, hsame₁, hlen₁, hval₁⟩ : ∃ w₁, (if isZero w a then w.setNeg a termNeg else w) = w₁
      ∧ OnlyAt a w w₁ ∧ (∀ q, Shape (w.ints q) → Shape (w₁.ints q) ∧ mag (w₁.ints q) = mag (w.ints q))
      ∧ (∀ q, (w₁.ints q).len = (w.ints q).len)
      ∧ val (w₁.ints a) = val (w.ints a) := by
    refine ⟨_, rfl, ?_⟩
    by_cases hz : isZero w a = true
    · rw [if_pos hz]
      refine ⟨.put a w _, fun q hq => ?_, fun q => ?_, ?_⟩
      · rw [World.setNeg]
        by_cases hqa : q = a
        · subst hqa
          rw [put_ints_self]
          exact ⟨hq.setNeg _, rfl⟩
        · rw [put_ints_of_ne _ _ hqa]
          exact ⟨hq, rfl⟩
      · rw [World.setNeg]
        by_cases hqa : q = a
        · subst hqa
          rw [put_ints_self]
        · rw [put_ints_of_ne _ _ hqa]
      · rw [World.setNeg, put_ints_self, val_zero ((isZero_iff a).mp hz)]
        exact val_zero ((isZero_iff a).mp hz)
    · rw [if_neg hz]
      exact ⟨.refl a w, fun q hq => ⟨hq, rfl⟩, fun _ => rfl, rfl⟩
  obtain ⟨ha₁, hmaga⟩ := hsame₁ a ha.toShape
  obtain ⟨hb₁, hmagb⟩ := hsame₁ b hb.toShape
  rw [hw₁, hterm, ← hval₁, ← hmagb, val]
  rw [← hlen₁ a, ← hlen₁ b] at hmem
  by_cases hneg : (w₁.ints a).neg = termNeg
  · rw [if_pos hneg]
    refine endsOr_bind (magnitudeAddMul_endsOr A ha₁ hb₁ hm hmem hfuel) fun w₂ hw₂ => ?_
    refine ((trim_ends hw₂.shape hfuel).endsOr).mono fun w₃ hw₃ => ?_
    refine hw₃.computed (honly₁.trans hw₂.only) ?_
    rw [val, hw₂.neg, hw₂.mag, hneg]
    cases termNeg
    · simp
    · simp only [if_true]
      ring
  · rw [if_neg hneg]
    refine endsOr_bind (magnitudeSubMul_endsOr A ha₁ hb₁ hm hmem hfuel) ?_
    rintro ⟨larger, w₂⟩ ⟨hlarger, hw₂⟩
    have hflip : (w₁.ints a).neg = !termNeg := by
      cases h : termNeg <;> simp_all
    dsimp only at hlarger hw₂ ⊢
    obtain ⟨w₃, hw₃, honly₃, hshape₃, hval₃⟩ : ∃ w₃,
        (if larger = true then w₂.setNeg a !(w₂.ints a).neg else w₂) = w₃ ∧ OnlyAt a w₂ w₃
        ∧ Shape (w₃.ints a) ∧ val (w₃.ints a)
          = (if termNeg then mag (w₁.ints a) - mag (w₁.ints b) * mm.toNat
            else mag (w₁.ints b) * mm.toNat - mag (w₁.ints a)) := by
      refine ⟨_, rfl, ?_⟩
      cases larger with
      | true =>
        rw [if_pos rfl]
        have hlt := of_decide_eq_true hlarger.symm
        refine ⟨.put a w₂ _, ?_, ?_⟩
        · rw [World.setNeg, put_ints_self]
          exact hw₂.shape.setNeg _
        · have hmag : mag { w₂.ints a with neg := !(w₂.ints a).neg } = mag (w₂.ints a) := rfl
          rw [World.setNeg, put_ints_self, val, hmag, hw₂.mag, hw₂.neg, hflip,
            abs_of_neg (by omega)]
          cases termNeg <;> simp
      | false =>
        rw [if_neg (by simp)]
        have hge := of_decide_eq_false hlarger.symm
        refine ⟨.refl a w₂, hw₂.shape, ?_⟩
        rw [val, hw₂.mag, hw₂.neg, hflip, abs_of_nonneg (by omega)]
        cases termNeg <;> simp
    rw [hw₃]
    refine ((trim_ends hshape₃ hfuel).endsOr).mono fun w₄ hw₄ => ?_
    refine hw₄.computed ((honly₁.trans hw₂.only).trans honly₃) ?_
    rw [hval₃, hflip]
    cases termNeg
    · simp only [Bool.not_false, if_true, Bool.false_eq_true, if_false]
      ring
    · simp only [Bool.not_true, if_true, Bool.false_eq_true, if_false]
      ring

theorem toInt_zero_sub {m : BitVec 32} (h : (-2147483648#32).slt m = true) :
    (0#32 - m).toInt = -m.toInt := by
  have hlt := natAbs_lt h
  have hlo := BitVec.le_toInt m
  have h0 : (0#32).toInt = 0 := rfl
  rw [BitVec.toInt_sub, h0]
  exact (Int.bmod_eq_of_le (by omega) (by omega)).trans (by omega)

/-- The contract holds of the negated factor. -/
theorem slt_zero_sub {m : BitVec 32} (h : (-2147483648#32).slt m = true) :
    (-2147483648#32).slt (0#32 - m) = true := by
  have hhi := BitVec.toInt_lt (x := m)
  have hmin : (-2147483648#32).toInt = -2147483648 := by decide
  rw [BitVec.slt_eq_decide, decide_eq_true_eq, toInt_zero_sub h, hmin]
  omega

theorem subMulSmall_endsOr {a b : Nat} {m : BitVec 32} (ha : Canonical (w.ints a))
    (hb : Canonical (w.ints b)) (hm : C ∨ (-2147483648#32).slt m = true)
    (hmem : C ∨ Roomy A (max (w.ints a).len.toNat (w.ints b).len.toNat + 1))
    (hfuel : 2 ^ 30 ≤ fuel) :
    EndsOr C (Computed a (val (w.ints a) - val (w.ints b) * m.toInt) w) (subMulSmall A fuel w a b m) := by
  rw [subMulSmall]
  refine endsOr_bind (Q := fun _ => (-2147483648#32).slt m = true) (endsOr_require id hm) fun _ hm => ?_
  refine (addMulSmall_endsOr A ha hb (.inr (slt_zero_sub hm)) hmem hfuel).mono fun w' hw' => ?_
  rw [toInt_zero_sub hm, Int.mul_neg] at hw'
  exact hw'

/-! ### Multiplying -/

theorem mulSmall_sat {a : Nat} {m : BitVec 32} (ha : Canonical (w.ints a)) (hfuel : 2 ^ 30 ≤ fuel) :
    Sat (Computed a (val (w.ints a) * m.toInt) w) (mulSmall A fuel w a m) := by
  have hla := ha.len_lt
  have hsucc : ((w.ints a).len + 1#32).toNat = (w.ints a).len.toNat + 1 := toNat_succ (by omega)
  rw [mulSmall]
  refine sat_bind (Q := fun _ => m.toInt.natAbs < 2 ^ 31) (sat_require natAbs_lt) fun _ hm => ?_
  refine sat_bind (reserve_endsOr A ha.toShape (by omega) (.inl trivial) hfuel).sat fun w₁ hw₁ => ?_
  have hmm := toNat_abs m
  have hterm := val_mul (w.ints a) m
  have hcond : (m.signExtend 64).slt 0#64 = m.slt 0#32 := by rw [slt_signExtend, slt_zero]
  rw [hcond] at hmm
  dsimp only
  generalize (if m.slt 0#32 then 0#64 - m.signExtend 64 else m.signExtend 64) = mm at hmm ⊢
  rw [← hmm] at hterm hm
  have hneg₁ := (hw₁.same a).neg
  obtain ⟨w₂, hw₂, honly₂, hsame₂, hneg₂, hshape₂⟩ : ∃ w₂,
      (if m.slt 0#32 then w₁.setNeg a !(w₁.ints a).neg else w₁) = w₂ ∧ OnlyAt a w₁ w₂
      ∧ ((w₂.ints a).len = (w₁.ints a).len ∧ (w₂.ints a).limbs = (w₁.ints a).limbs)
      ∧ (w₂.ints a).neg = (if m.slt 0#32 then !(w.ints a).neg else (w.ints a).neg)
      ∧ Shape (w₂.ints a) := by
    refine ⟨_, rfl, ?_⟩
    cases m.slt 0#32 with
    | true =>
      rw [if_pos rfl, if_pos rfl, World.setNeg, put_ints_self, ← hneg₁]
      exact ⟨.put a w₁ _, ⟨rfl, rfl⟩, rfl, hw₁.shape.setNeg _⟩
    | false =>
      rw [if_neg (by simp), if_neg (by simp)]
      exact ⟨.refl a w₁, ⟨rfl, rfl⟩, hneg₁, hw₁.shape⟩
  have hmag₂ : mag (w₂.ints a) = mag (w.ints a) := by
    rw [← (hw₁.same a).mag_eq, mag, mag, hsame₂.1, hsame₂.2]
  have hlen₂ : (w₂.ints a).len = (w.ints a).len := hsame₂.1.trans (hw₁.same a).len
  have hroom : (w.ints a).len.toNat + 1 ≤ (w₂.ints a).limbs.length := by
    rw [hsame₂.2, ← hsucc]
    exact hw₁.room
  have hsize := hshape₂.size
  rw [hw₂, hlen₂, hterm, ← hneg₂, ← hmag₂]
  refine sat_bind (Q := fun r => Pass w₂ a (fun c => c.toNat)
    (fun i => digits (w₂.ints a).limbs i * mm.toNat) 0 (w.ints a).len.toNat r
    ∧ r.2.toNat ≤ 2 ^ 31) ?_ ?_
  · refine Ends.sat (pass_ends (fun c => c.toNat ≤ 2 ^ 31) (by omega) hsize hfuel (Nat.zero_le _) ?_
      ⟨(w₂.ints a).limbs, (withLimbs_self w₂ a).symm, .start hshape₂ 0, .start 0⟩ (Nat.zero_le _))
    intro k xs carry _ hk hxs hcarry
    have hx := hshape₂.toNat_lt k
    have hterm := toNat_term (x := 0#64) (by decide) hx hm hcarry
    have h0 : (0#64).toNat = 0 := rfl
    rw [BitVec.add_zero, h0, Nat.add_zero] at hterm
    have hsplit := term_carry (digit (w₂.ints a).limbs k * mm + carry)
    have hxm : (digit (w₂.ints a).limbs k).toNat * mm.toNat ≤ 9223372030412324865 :=
      Nat.mul_le_mul (Nat.le_pred_of_lt hx) (Nat.le_pred_of_lt hm)
    refine ⟨digit (w₂.ints a).limbs k * mm + carry, (digit (w₂.ints a).limbs k * mm + carry) >>> 32,
      ?_, ?_, ?_⟩
    · dsimp only
      rw [hxs.limb (by omega) (by omega), done_bind]
    · rw [BitVec.toNat_ushiftRight, Nat.shiftRight_eq_div_pow]
      omega
    · rw [hsplit, hterm]
      push_cast
      simp only [digits]
  · rintro ⟨w₃, carry⟩ ⟨⟨xs, hw₃, hxs, hcarried⟩, hcarry⟩
    dsimp only at hw₃ hcarried hcarry ⊢
    obtain ⟨w₄, hset, hlen₄, hinto⟩ := hxs.append hshape₂ (by rw [hlen₂]) hroom
      (show carry.toNat < 2 ^ 32 by omega)
    have hlen₃ : (w₃.ints a).len = (w.ints a).len := by
      rw [hw₃, World.withLimbs, put_ints_self, hlen₂]
    rw [hlen₃, hw₃, hset, done_bind, hlen₄, hlen₂]
    refine (trim_ends hinto.shape hfuel).sat.mono fun w₅ hw₅ => ?_
    refine hw₅.computed ((hw₁.only.trans honly₂).trans hinto.only) ?_
    have hvalue : mag ((w₄.setLen a ((w.ints a).len + 1#32)).ints a)
        = mag (w₂.ints a) * mm.toNat := by
      rw [hinto.mag]
      refine Eq.trans hcarried ?_
      rw [Int.add_zero, value_mul, ← hlen₂]
      rfl
    rw [val, hvalue, hinto.neg]

/-! ### Copies and small integers -/

/-- A loop that writes into number `p` limbs that do not depend on the loop. -/
theorem fill_ends {p : Nat} {lo hi : BitVec 32} (c : Nat → BitVec 64)
    {body : BitVec 32 → World ι σ → Outcome (World ι σ)} (hp : Shape (w.ints p))
    (hlen : hi.toNat ≤ (w.ints p).limbs.length) (hfuel : 2 ^ 30 ≤ fuel) (hlo : lo.toNat ≤ hi.toNat)
    (hc : ∀ k, (c k).toNat < 2 ^ 32)
    (hbody : ∀ k xs, lo.toNat ≤ k → k < hi.toNat → Partly w p k xs →
      body (BitVec.ofNat 32 k) (w.withLimbs p xs)
        = setLimb (w.withLimbs p xs) p (BitVec.ofNat 32 k) (c k)) :
    Ends (fun w' => ∃ xs, w' = w.withLimbs p xs ∧ Partly w p hi.toNat xs
        ∧ ∀ i, i < hi.toNat → digit xs i = if i < lo.toNat then digit (w.ints p).limbs i else c i)
      (forLoop fuel lo hi body w) := by
  have hsize := hp.size
  refine forLoop_range_ends (by omega) hlo (by omega)
    (fun k w' => ∃ xs, w' = w.withLimbs p xs ∧ Partly w p k xs
      ∧ ∀ i, i < k → digit xs i = if i < lo.toNat then digit (w.ints p).limbs i else c i) ?_ ?_
  · refine ⟨(w.ints p).limbs, (withLimbs_self w p).symm, .start hp _, fun i hi => ?_⟩
    rw [if_pos hi]
  · rintro k w' hk hk' ⟨xs, rfl, hxs, hdone⟩
    have hkl : k < xs.length := by
      rw [hxs.length]
      omega
    rw [hbody k xs hk hk' hxs, setLimb_withLimbs w hkl (by omega)]
    refine ⟨_, rfl, hxs.step hkl (hc k), fun i hi => ?_⟩
    rw [digit_set hkl]
    by_cases hik : i = k
    · subst hik
      rw [if_pos rfl, if_neg (by omega)]
    · rw [if_neg hik]
      exact hdone i (by omega)

theorem setI32_sat {a : Nat} {v : BitVec 32} (ha : Canonical (w.ints a)) (hfuel : 2 ^ 30 ≤ fuel) :
    Sat (Computed a v.toInt w) (setI32 fuel w a v) := by
  have hroom := ha.room
  have hsize := ha.size
  rw [setI32]
  refine sat_bind (Ends.sat (fill_ends (fun _ => 0#64) ha.toShape ha.len hfuel (Nat.zero_le _)
    (fun _ => by decide) fun _ _ _ _ _ => rfl)) ?_
  rintro w₁ ⟨xs, rfl, hxs, hdone⟩
  have hall : ∀ i, digit xs i = 0#64 := by
    intro i
    rcases Nat.lt_or_ge i (w.ints a).len.toNat with hlt | hge
    · exact (hdone i hlt).trans (if_neg (Nat.not_lt_zero i))
    · rw [hxs.rest i hge]
      exact ha.beyond i hge
  have habs := toNat_abs v
  have hcond := slt_signExtend v
  have hle : v.toInt.natAbs ≤ 2 ^ 31 := by
    have := BitVec.le_toInt v
    have := BitVec.toInt_lt (x := v)
    omega
  dsimp only
  generalize (if (v.signExtend 64).slt 0#64 then 0#64 - v.signExtend 64 else v.signExtend 64) = x
    at habs ⊢
  rw [hcond]
  have hlen := hxs.length
  have hset : setLimb ((w.withLimbs a xs).setNeg a (decide (v.toInt < 0))) a 0#32 x
      = done (w.put a { w.ints a with limbs := xs.set 0 x, neg := decide (v.toInt < 0) }) := by
    rw [setLimb, World.setNeg, put_ints_self, arrSet_eq (by
      rw [World.withLimbs, put_ints_self]
      exact Nat.lt_of_lt_of_le (by decide : 0 < 4) (hroom.trans hlen.ge))]
    simp [World.withLimbs]
  rw [hset, done_bind]
  have hat : ((w.put a { w.ints a with limbs := xs.set 0 x, neg := decide (v.toInt < 0) }).setLen a
      1#32).ints a = { w.ints a with limbs := xs.set 0 x, neg := decide (v.toInt < 0), len := 1#32 } := by
    rw [World.setLen, put_ints_self, put_ints_self]
  have hdigit : ∀ i, digit (xs.set 0 x) i = if i = 0 then x else 0#64 := fun i => by
    rw [digit_set (by omega), hall i]
  have hshape : Shape ({ w.ints a with limbs := xs.set 0 x, neg := decide (v.toInt < 0), len := 1#32 } :
      BigInt ι) := by
    refine ⟨?_, ?_, ?_, fun i => ?_, fun i hi => ?_⟩
    · dsimp only
      rw [List.length_set]
      omega
    · dsimp only
      rw [List.length_set]
      omega
    · exact (by decide : (1#32).toNat ≤ 4).trans (by rw [List.length_set]; omega)
    · dsimp only
      rw [digits, hdigit, RADIX]
      split
      · omega
      · decide
    · have hi' : (1#32).toNat ≤ i := hi
      have h1 : (1#32).toNat = 1 := rfl
      rw [hdigit, if_neg (by omega)]
  refine (trim_ends (by rw [hat]; exact hshape) hfuel).sat.mono fun w' hw' => ?_
  refine hw'.computed ((OnlyAt.put a w _).trans (.put a _ _)) ?_
  have hmag : mag ({ w.ints a with limbs := xs.set 0 x, neg := decide (v.toInt < 0), len := 1#32 } :
      BigInt ι) = x.toNat := by
    have h1 : (1#32).toNat = 0 + 1 := rfl
    rw [mag, h1, value_succ, value_zero, digits, hdigit]
    simp
  rw [hat, val, hmag, habs]
  dsimp only
  by_cases hv : v.toInt < 0
  · rw [decide_eq_true hv, if_pos rfl]
    omega
  · rw [decide_eq_false hv, if_neg (by simp)]
    omega

theorem assign_endsOr {dst src : Nat} (hd : Canonical (w.ints dst)) (hs : Canonical (w.ints src))
    (hres : EndsOr C (Reserved dst (w.ints src).len.toNat w) (reserve A fuel w dst (w.ints src).len)) (hfuel : 2 ^ 30 ≤ fuel) :
    EndsOr C (Computed dst (val (w.ints src)) w) (assign A fuel w dst src) := by
  have hlen := hs.len_lt
  rw [assign]
  refine endsOr_bind hres fun w₁ hw₁ => ?_
  have hs₁ := hw₁.shape_of hs.toShape
  have hd₁ := hw₁.shape
  have hroom := hw₁.room
  have hlen₁ := (hw₁.same src).len
  rw [hlen₁]
  refine endsOr_bind (Ends.endsOr (fill_ends (fun k => digit (w₁.ints src).limbs k) hd₁ hroom hfuel (Nat.zero_le _)
    hs₁.toNat_lt fun k xs _ hk hxs => ?_)) ?_
  · have := hs₁.len
    rw [hlen₁] at this
    have := hs₁.size
    rw [hxs.limb (by omega) (by omega), done_bind]
  rintro w₂ ⟨xs, rfl, hxs, hcopied⟩
  have hd₂ : (w₁.ints dst).len.toNat < 2 ^ 28 := hd₁.len_lt
  simp only [withLimbs_len, hlen₁]
  -- the limbs from there to the old length are cleared
  refine endsOr_bind (Q := fun w₃ => ∃ ys, w₃ = w₁.withLimbs dst ys
    ∧ ys.length = (w₁.ints dst).limbs.length ∧ ∀ i, digit ys i = digit (w₁.ints src).limbs i) ?_ ?_
  · have hpast : ∀ i, (w.ints src).len.toNat ≤ i → digit (w₁.ints src).limbs i = 0#64 :=
      fun i hi => hs₁.beyond i (by rw [hlen₁]; exact hi)
    rcases Nat.lt_or_ge (w₁.ints dst).len.toNat (w.ints src).len.toNat with hlt | hge
    · rw [forLoop_empty _ (by omega) hlt.le (by omega)]
      refine ⟨xs, rfl, hxs.length, fun i => ?_⟩
      rcases Nat.lt_or_ge i (w.ints src).len.toNat with hi | hi
      · exact (hcopied i hi).trans (if_neg (Nat.not_lt_zero i))
      · rw [hxs.rest i hi, hpast i hi]
        exact hd₁.beyond i (by omega)
    · have hshape : Shape ((w₁.withLimbs dst xs).ints dst) := by
        rw [withLimbs_at]
        refine ⟨?_, ?_, ?_, hxs.lt, fun i hi => ?_⟩
        · rw [hxs.length]
          exact hd₁.room
        · rw [hxs.length]
          exact hd₁.size
        · rw [hxs.length]
          exact hd₁.len
        · rw [hxs.rest i (hge.trans hi)]
          exact hd₁.beyond i hi
      refine ((fill_ends (fun _ => 0#64) hshape ?_ hfuel hge (fun _ => by decide)
        fun _ _ _ _ _ => rfl).mono ?_).endsOr
      · rw [withLimbs_at, hxs.length]
        exact hd₁.len
      · rintro w₃ ⟨ys, rfl, hys, hcleared⟩
        rw [withLimbs_withLimbs]
        refine ⟨ys, rfl, ?_, fun i => ?_⟩
        · rw [hys.length, withLimbs_at, hxs.length]
        · rcases Nat.lt_or_ge i (w₁.ints dst).len.toNat with hi | hi
          · rw [hcleared i hi, withLimbs_at]
            split
            · rename_i hlow
              exact (hcopied i hlow).trans (if_neg (Nat.not_lt_zero i))
            · rw [hpast i (by omega)]
          · rw [hys.rest i hi, withLimbs_at, hxs.rest i (by omega), hpast i (by omega)]
            exact hd₁.beyond i hi
  · rintro w₃ ⟨ys, rfl, hlength, hdigit⟩
    rw [pure_eq, endsOr_done]
    have hneg : (((w₁.withLimbs dst ys).setLen dst (w.ints src).len).ints src).neg
        = (w₁.ints src).neg := by
      rw [World.setLen]
      by_cases hsd : src = dst
      · subst hsd
        rw [put_ints_self, withLimbs_at]
      · rw [put_ints_of_ne _ _ hsd, withLimbs_neg]
    have hat : (((w₁.withLimbs dst ys).setLen dst (w.ints src).len).setNeg dst
        (w₁.ints src).neg).ints dst
        = { w₁.ints dst with limbs := ys, len := (w.ints src).len, neg := (w₁.ints src).neg } := by
      rw [World.setNeg, put_ints_self, World.setLen, put_ints_self, withLimbs_at]
    have hsame : Same (w.ints src)
        { w₁.ints dst with limbs := ys, len := (w.ints src).len, neg := (w₁.ints src).neg } :=
      ⟨rfl, (hw₁.same src).neg, fun i => (hdigit i).trans ((hw₁.same src).digit i)⟩
    simp only [withLimbs_len, hlen₁]
    rw [hneg]
    refine ⟨hw₁.only.trans (((OnlyAt.put dst w₁ _).trans (.put dst _ _)).trans (.put dst _ _)), ?_, ?_⟩
    · rw [hat]
      refine hsame.canonical hs ?_ ?_ ?_
      · dsimp only
        rw [hlength]
        exact hd₁.room
      · dsimp only
        rw [hlength]
        exact hd₁.size
      · dsimp only
        rw [hlength]
        exact hroom
    · rw [hat, hsame.val_eq]

theorem assign_sat {dst src : Nat} (hd : Canonical (w.ints dst)) (hs : Canonical (w.ints src))
    (hfuel : 2 ^ 30 ≤ fuel) :
    Sat (Computed dst (val (w.ints src)) w) (assign A fuel w dst src) := by
  have hlen := hs.len_lt
  exact (assign_endsOr A hd hs (reserve_endsOr A hd.toShape (by omega) (.inl trivial) hfuel) hfuel).sat

/-! ### Comparing -/

/-- The longer of two canonical magnitudes is the larger. -/
theorem mag_lt_of_len {na nb : BigInt ι} (ha : Canonical na) (hb : Canonical nb)
    (hlt : na.len.toNat < nb.len.toNat) : mag na < mag nb := by
  obtain ⟨k, hk⟩ : ∃ k, nb.len.toNat = k + 1 := ⟨nb.len.toNat - 1, by omega⟩
  have hna : mag na < RADIX ^ k := by
    rw [ha.mag_eq (k := k) (by omega)]
    exact value_lt radix_pos (ha.digit_lt k)
  have hnb : RADIX ^ k ≤ mag nb := by
    rw [mag, hk]
    refine le_value radix_pos (hb.digit_lt _) fun h0 => hb.top k hk ?_
    rw [digits] at h0
    exact BitVec.eq_of_toNat_eq (by simpa using h0)
  exact hna.trans_le hnb

theorem slt_digit {xs ys : List (BitVec 64)} {i : Nat} (hx : (digit xs i).toNat < 2 ^ 32)
    (hy : (digit ys i).toNat < 2 ^ 32) :
    (digit xs i).slt (digit ys i) = decide (digits xs i < digits ys i) := by
  rw [BitVec.slt_eq_decide, BitVec.toInt_eq_toNat_of_lt (by omega),
    BitVec.toInt_eq_toNat_of_lt (by omega), digits, digits]

theorem compareMagnitude_ends {a b : Nat} (ha : Canonical (w.ints a)) (hb : Canonical (w.ints b))
    (hfuel : 2 ^ 30 ≤ fuel) :
    Ends (fun c => c.toInt = (mag (w.ints a) - mag (w.ints b)).sign) (compareMagnitude fuel w a b) := by
  have hla := ha.len_lt
  have hlb := hb.len_lt
  have hone : (1#32).toInt = 1 := by decide
  have hminus : (-1#32).toInt = -1 := by decide
  rw [compareMagnitude]
  by_cases hlen : (w.ints a).len = (w.ints b).len
  · rw [if_neg (by simp [hlen])]
    have hroom := ha.len
    have hroomb := hb.len
    have hlast : (w.ints a).len + 1#32 - 1#32 = (w.ints a).len := by
      rw [BitVec.add_sub_cancel]
    refine iterate_ends (fun j => 1 ≤ j.toNat ∧ j.toNat ≤ (w.ints a).len.toNat + 1
        ∧ ∀ i, (w.ints a).len.toNat < i + j.toNat → digit (w.ints a).limbs i = digit (w.ints b).limbs i)
      _ (fun j => (w.ints a).len.toNat + 1 - j.toNat) ?_ fuel 1#32 ⟨le_rfl, ?_, fun i hi => ?_⟩ ?_
    · rintro j ⟨hj1, hj, heq⟩
      rw [compareRound, hlast]
      have hslt := slt_iff (x := (w.ints a).len) (y := j) (by omega) (by omega)
      by_cases hend : (w.ints a).len.toNat < j.toNat
      · rw [if_pos (hslt.mpr hend)]
        have hmag : mag (w.ints a) = mag (w.ints b) := by
          rw [mag, mag, hlen]
          exact value_congr fun i _ => digits_eq (heq i (by omega))
        rw [pure_eq, ends_done, Sum.elim_inr, hmag, Int.sub_self]
        rfl
      · rw [if_neg fun h => hend (hslt.mp h)]
        have hi : ((w.ints a).len - j).toNat = (w.ints a).len.toNat - j.toNat := by
          rw [BitVec.toNat_sub]
          omega
        dsimp only
        rw [limb, arrGet_eq (by rw [hi]; exact getElem?_digit (by omega)), done_bind, limb,
          arrGet_eq (by rw [hi]; exact getElem?_digit (by rw [hlen] at hend ⊢; omega)), done_bind]
        by_cases hxy : digit (w.ints a).limbs ((w.ints a).len.toNat - j.toNat)
            = digit (w.ints b).limbs ((w.ints a).len.toNat - j.toNat)
        · rw [if_pos hxy]
          have hnext := toNat_succ (n := j) (by omega)
          refine ⟨⟨by omega, by omega, fun i hi' => ?_⟩, by omega⟩
          rcases Nat.lt_or_ge (w.ints a).len.toNat (i + j.toNat) with h | h
          · exact heq i h
          · obtain rfl : i = (w.ints a).len.toNat - j.toNat := by omega
            exact hxy
        · rw [if_neg hxy, pure_eq, ends_done, Sum.elim_inr]
          have htop : ∀ i, (w.ints a).len.toNat - j.toNat < i → i < (w.ints a).len.toNat →
              digits (w.ints a).limbs i = digits (w.ints b).limbs i :=
            fun i hi' _ => digits_eq (heq i (by omega))
          have hk : (w.ints a).len.toNat - j.toNat < (w.ints a).len.toNat := by omega
          have hmagb : mag (w.ints b) = value RADIX (digits (w.ints b).limbs) (w.ints a).len.toNat := by
            rw [mag, hlen]
          have hslt := slt_digit (ha.toNat_lt ((w.ints a).len.toNat - j.toNat))
            (hb.toNat_lt ((w.ints a).len.toNat - j.toNat))
          rw [hslt, hmagb, mag]
          rcases Int.lt_trichotomy (digits (w.ints a).limbs ((w.ints a).len.toNat - j.toNat))
            (digits (w.ints b).limbs ((w.ints a).len.toNat - j.toNat)) with h | h | h
          · have := lt_of_top radix_pos hk (ha.digit_lt _) (hb.digit_lt _) htop h
            rw [decide_eq_true h, if_pos rfl, hminus, Int.sign_eq_neg_one_of_neg (by omega)]
          · rw [digits, digits] at h
            exact absurd (BitVec.eq_of_toNat_eq (by omega)) hxy
          · have := lt_of_top radix_pos hk (hb.digit_lt _) (ha.digit_lt _)
              (fun i h₁ h₂ => (htop i h₁ h₂).symm) h
            rw [decide_eq_false (by omega), if_neg (by simp), hone,
              Int.sign_eq_one_of_pos (by omega)]
    · have h1 : (1#32).toNat = 1 := rfl
      omega
    · have h1 : (1#32).toNat = 1 := rfl
      rw [ha.beyond i (by omega), hb.beyond i (by rw [← hlen]; omega)]
    · have h1 : (1#32).toNat = 1 := rfl
      omega
  · rw [if_pos hlen, ends_done]
    have hslt := slt_iff (x := (w.ints a).len) (y := (w.ints b).len) (by omega) (by omega)
    by_cases hlt : (w.ints a).len.toNat < (w.ints b).len.toNat
    · have := mag_lt_of_len ha hb hlt
      rw [if_pos (hslt.mpr hlt), hminus, Int.sign_eq_neg_one_of_neg (by omega)]
    · have hne : (w.ints a).len.toNat ≠ (w.ints b).len.toNat := fun h => hlen (BitVec.eq_of_toNat_eq h)
      have := mag_lt_of_len hb ha (by omega)
      rw [if_neg fun h => hlt (hslt.mp h), hone, Int.sign_eq_one_of_pos (by omega)]

/-- What `sign` says of a canonical number. -/
inductive Signed (w : World ι σ) (p : Nat) : Prop where
  | zero (hsign : sign w p = 0#32) (hval : val (w.ints p) = 0)
  | neg (hsign : sign w p = -1#32) (hval : val (w.ints p) = -mag (w.ints p)) (hpos : 0 < mag (w.ints p))
  | pos (hsign : sign w p = 1#32) (hval : val (w.ints p) = mag (w.ints p)) (hpos : 0 < mag (w.ints p))

theorem signed {p : Nat} (hp : Canonical (w.ints p)) : Signed w p := by
  by_cases hz : isZero w p = true
  · exact .zero (if_pos hz) (val_zero ((isZero_iff p).mp hz))
  · have hpos := hp.mag_pos fun h => hz ((isZero_iff p).mpr h)
    cases hneg : (w.ints p).neg with
    | true =>
      refine .neg ?_ ?_ hpos
      · rw [sign, if_neg hz, hneg, if_pos rfl]
      · rw [val, hneg, if_pos rfl]
    | false =>
      refine .pos ?_ ?_ hpos
      · rw [sign, if_neg hz, hneg, if_neg (by simp)]
      · rw [val, hneg, if_neg (by simp)]

theorem compare_ends {a b : Nat} (ha : Canonical (w.ints a)) (hb : Canonical (w.ints b))
    (hfuel : 2 ^ 30 ≤ fuel) :
    Ends (fun c => c.toInt = (val (w.ints a) - val (w.ints b)).sign) (compare fuel w a b) := by
  have hmagnitude := compareMagnitude_ends ha hb hfuel
  have hone : (1#32).toInt = 1 := by decide
  have hminus : (-1#32).toInt = -1 := by decide
  rw [compare]
  rcases signed ha with ⟨hsa, hva⟩ | ⟨hsa, hva, hpa⟩ | ⟨hsa, hva, hpa⟩ <;>
    rcases signed hb with ⟨hsb, hvb⟩ | ⟨hsb, hvb, hpb⟩ | ⟨hsb, hvb, hpb⟩ <;>
    rw [hsa, hsb, hva, hvb]
  case zero.zero =>
    refine ends_bind hmagnitude fun c _ => ?_
    rw [pure_eq, ends_done, BitVec.zero_mul]
    rfl
  case neg.neg =>
    refine ends_bind hmagnitude fun c hc => ?_
    have hneg : (-mag (w.ints a) - -mag (w.ints b)).sign = -c.toInt := by
      rw [hc, ← Int.sign_neg]
      congr 1
      omega
    have hrange : -1 ≤ c.toInt ∧ c.toInt ≤ 1 := by
      rw [hc]
      rcases Int.sign_trichotomy (mag (w.ints a) - mag (w.ints b)) with h | h | h <;> omega
    rw [pure_eq, ends_done, hneg, BitVec.toInt_mul, hminus, Int.bmod_eq_of_le (by omega) (by omega)]
    omega
  case pos.pos =>
    refine ends_bind hmagnitude fun c hc => ?_
    rw [pure_eq, ends_done, BitVec.one_mul]
    exact hc
  case zero.neg => exact hone.trans (Int.sign_eq_one_of_pos (by omega)).symm
  case zero.pos => exact hminus.trans (Int.sign_eq_neg_one_of_neg (by omega)).symm
  case neg.zero => exact hminus.trans (Int.sign_eq_neg_one_of_neg (by omega)).symm
  case neg.pos => exact hminus.trans (Int.sign_eq_neg_one_of_neg (by omega)).symm
  case pos.zero => exact hone.trans (Int.sign_eq_one_of_pos (by omega)).symm
  case pos.neg => exact hone.trans (Int.sign_eq_one_of_pos (by omega)).symm

/-! ### New numbers -/

/-- A new number is zero, with room. -/
theorem withCapacity_endsOr {a : ι} {limbs : BitVec 32} (hmem : C ∨ Plentiful (A a) ∧ limbs.toNat < 2 ^ 28 - 1) :
    EndsOr C (fun r => r.1 = w.made ∧ r.2.made = w.made + 1 ∧ (∀ q, q ≠ w.made → r.2.ints q = w.ints q)
        ∧ Canonical (r.2.ints w.made) ∧ val (r.2.ints w.made) = 0 ∧ limbs.toInt ≤ (r.2.ints w.made).limbs.length)
      (withCapacity A w a limbs) := by
  rw [withCapacity]
  refine endsOr_bind (create_endsOr (by decide) (hmem.imp_right fun h => h.1)) fun s _ => ?_
  have hfit : limbs.toNat < 2 ^ 28 - 1 → 0 ≤ (if limbs.slt 4#32 then 4#32 else limbs).toInt ∧ 0 ≤ i64.size.toInt ∧
      (if limbs.slt 4#32 then 4#32 else limbs).toInt * i64.size.toInt + 8 < 2 ^ 31 := fun hlt => by
    have h8 : i64.size.toInt = 8 := by decide
    have h4 : (4#32).toInt = 4 := by decide
    have hint := toInt_eq_toNat (x := limbs) (by omega)
    rw [h8]
    split
    · omega
    · omega
  refine endsOr_bind (array_endsOr (hmem.imp_right fun h => ⟨h.1, hfit h.2⟩)) ?_
  rintro ⟨xs, s'⟩ ⟨hxs, h0, hbytes⟩
  have h8 : i64.size.toInt = 8 := by decide
  have hcap : 4 ≤ (if limbs.slt 4#32 then 4#32 else limbs).toInt ∧ limbs.toInt ≤ (if limbs.slt 4#32 then 4#32 else limbs).toInt := by
    have h4 : (4#32).toInt = 4 := by decide
    split
    · rename_i h
      rw [BitVec.slt_eq_decide, decide_eq_true_eq] at h
      omega
    · rename_i h
      rw [BitVec.slt_eq_decide, decide_eq_true_eq] at h
      omega
  dsimp only at hxs ⊢
  generalize (if limbs.slt 4#32 then 4#32 else limbs) = cap at hxs h0 hbytes hcap
  rw [h8] at hbytes
  have hlen : xs.length = cap.toNat := by rw [hxs, List.length_replicate]
  have hnat := (toInt_of_nonneg h0).1
  rw [pure_eq, endsOr_done]
  dsimp only
  rw [Function.update_self]
  refine ⟨rfl, rfl, fun q hq => Function.update_of_ne hq _ _, ?_, val_zero rfl, by dsimp only; omega⟩
  refine ⟨⟨by dsimp only; omega, by dsimp only; omega, Nat.zero_le _, fun i => ?_, fun i _ => ?_⟩,
    fun k hk => absurd hk.symm (Nat.succ_ne_zero k), fun _ => rfl⟩
  · dsimp only
    rw [hxs, digits, show i64.zero = 0#64 from rfl, digit_replicate_zero]
    decide
  · dsimp only
    rw [hxs]
    exact digit_replicate_zero _ i

theorem withCapacity_sat {a : ι} {limbs : BitVec 32} :
    Sat (fun r => r.1 = w.made ∧ r.2.made = w.made + 1 ∧ (∀ q, q ≠ w.made → r.2.ints q = w.ints q)
        ∧ Canonical (r.2.ints w.made) ∧ val (r.2.ints w.made) = 0) (withCapacity A w a limbs) := by
  refine (endsOr_true.mp (withCapacity_endsOr A (.inl trivial))).mono fun r hr => ?_
  exact ⟨hr.1, hr.2.1, hr.2.2.1, hr.2.2.2.1, hr.2.2.2.2.1⟩

theorem fromI32_sat {a : ι} {v : BitVec 32} (hfuel : 2 ^ 30 ≤ fuel) :
    Sat (fun r => r.1 = w.made ∧ r.2.made = w.made + 1 ∧ (∀ q, q ≠ w.made → r.2.ints q = w.ints q)
        ∧ Canonical (r.2.ints w.made) ∧ val (r.2.ints w.made) = v.toInt)
      (fromI32 A fuel w a v) := by
  rw [fromI32]
  refine sat_bind (withCapacity_sat A) ?_
  rintro ⟨p, w₁⟩ ⟨rfl, hmade, hother, hcanonical, -⟩
  refine sat_bind (setI32_sat hcanonical hfuel) fun w₂ hw₂ => ?_
  refine ⟨rfl, hw₂.only.made.trans hmade, fun q hq => ?_, hw₂.canonical, hw₂.val⟩
  exact (hw₂.only.ints q hq).trans (hother q hq)

end Aipl.StdBigint
