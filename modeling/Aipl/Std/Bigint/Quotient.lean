import Aipl.Std.Bigint.Division
import Aipl.Std.Bigint.Runs

/-! # The quotient of `std/bigint`'s `div_small_quotient`: its correction

* `correct_endsOr` — from every guess that is not negative the corrections end, with the quotient
  rounded down and the remainder, when the two numbers are different ones.
* `takeOff_endless` — a number divided by itself is never done: taking it off leaves zero on both
  sides.
* `divSmallQuotient_exact` — so the call is exact precisely for two different numbers.
-/

namespace Aipl.StdBigint

open Aipl.Lib Aipl.Lib.Outcome Aipl.Lib.Radix Aipl.Lib.F64 Aipl.Std

variable {ι σ φ : Type} {F : F64 φ} {value : φ → Option ℚ} {round : ℚ → ℚ}
  {A : ι → Allocator σ} {fuel : Nat} {w : World ι σ} {a b : Nat}

/-! ### What the loops look at -/

theorem sign_slt_iff {p : Nat} (hp : Canonical (w.ints p)) :
    (sign w p).slt 0#32 = true ↔ val (w.ints p) < 0 := by
  rcases signed hp with ⟨hs, hv⟩ | ⟨hs, hv, hm⟩ | ⟨hs, hv, hm⟩ <;> rw [hs, hv]
  · exact iff_of_false (by decide) (by decide)
  · exact iff_of_true (by decide) (by omega)
  · exact iff_of_false (by decide) (by omega)

theorem zero_sle_sign {p : Nat} (hp : Canonical (w.ints p)) (h : 0 ≤ val (w.ints p)) :
    (0#32).sle (sign w p) = true := by
  rcases signed hp with ⟨hs, hv⟩ | ⟨hs, hv, hm⟩ | ⟨hs, hv, hm⟩ <;> rw [hs]
  · decide
  · omega
  · decide

theorem zero_slt_sign {p : Nat} (hp : Canonical (w.ints p)) (h : 0 < val (w.ints p)) :
    (0#32).slt (sign w p) = true := by
  rcases signed hp with ⟨hs, hv⟩ | ⟨hs, hv, hm⟩ | ⟨hs, hv, hm⟩ <;> rw [hs]
  · omega
  · omega
  · decide

theorem mag_eq_abs {n : BigInt ι} (hn : Shape n) : mag n = |val n| := by
  have hmag := hn.mag_nonneg
  rw [val]
  split
  · rw [abs_neg, abs_of_nonneg hmag]
  · rw [abs_of_nonneg hmag]

/-- A canonical number below a power of the radix has no more limbs than that. -/
theorem Canonical.len_le {n : BigInt ι} (hn : Canonical n) {k : Nat} (h : mag n < RADIX ^ k) :
    n.len.toNat ≤ k := by
  by_contra hlt
  obtain ⟨j, hj⟩ : ∃ j, n.len.toNat = j + 1 := ⟨n.len.toNat - 1, by omega⟩
  have hle : RADIX ^ j ≤ mag n := by
    rw [mag, hj]
    refine le_value radix_pos (hn.digit_lt _) fun h0 => hn.top j hj ?_
    rw [digits] at h0
    exact BitVec.eq_of_toNat_eq (by simpa using h0)
  have hpow : RADIX ^ k ≤ RADIX ^ j := pow_le_pow_right₀ (by decide) (by omega)
  omega

/-! ### What is divided -/

/-- The contract: a dividend that is not negative, a positive divisor, and a quotient below `2^31`. -/
structure Divisible (w : World ι σ) (a b : Nat) : Prop where
  dividend : Canonical (w.ints a)
  divisor : Canonical (w.ints b)
  nonneg : 0 ≤ val (w.ints a)
  pos : 0 < val (w.ints b)
  small : val (w.ints a) / val (w.ints b) < 2 ^ 31

/-- What the call should leave: the quotient rounded down, the remainder in `a`, and every other
number as it was. -/
structure Divided (w : World ι σ) (a b : Nat) (r : BitVec 32 × World ι σ) : Prop where
  quotient : r.1.toInt = val (w.ints a) / val (w.ints b)
  remainder : Computed a (val (w.ints a) % val (w.ints b)) w r.2

theorem Divisible.lt_mul (h : Divisible w a b) : val (w.ints a) < 2 ^ 31 * val (w.ints b) := by
  have hsmall := h.small
  rw [Int.ediv_lt_iff_lt_mul h.pos] at hsmall
  exact hsmall

theorem Divisible.divisor_lt (h : Divisible w a b) :
    val (w.ints b) < RADIX ^ (w.ints b).len.toNat := by
  have hmag := mag_eq_abs h.divisor.toShape
  rw [abs_of_pos h.pos] at hmag
  rw [← hmag]
  exact value_lt radix_pos (h.divisor.digit_lt _)

/-- What is left of `a` after `k` times `b`, for a `k` of 32 bits, has at most one limb more than
`b`. -/
theorem Divisible.len_le (h : Divisible w a b) {k : Int} (hk : |k| < 2 ^ 31) {n : BigInt ι}
    (hn : Canonical n) (hval : val n = val (w.ints a) - val (w.ints b) * k) :
    n.len.toNat ≤ (w.ints b).len.toNat + 1 := by
  refine hn.len_le ?_
  have hpos := h.pos
  have hmul : |val (w.ints b) * k| ≤ val (w.ints b) * 2 ^ 31 := by
    rw [abs_mul, abs_of_pos hpos]
    exact mul_le_mul_of_nonneg_left hk.le hpos.le
  calc mag n = |val (w.ints a) - val (w.ints b) * k| := by rw [mag_eq_abs hn.toShape, hval]
    _ ≤ |val (w.ints a)| + |val (w.ints b) * k| := abs_sub _ _
    _ < 2 ^ 31 * val (w.ints b) + val (w.ints b) * 2 ^ 31 := by
      rw [abs_of_nonneg h.nonneg]
      exact add_lt_add_of_lt_of_le h.lt_mul hmul
    _ = val (w.ints b) * RADIX := by
      rw [RADIX]
      ring
    _ < RADIX ^ (w.ints b).len.toNat * RADIX := mul_lt_mul_of_pos_right h.divisor_lt radix_pos
    _ = RADIX ^ ((w.ints b).len.toNat + 1) := (pow_succ _ _).symm

/-- The dividend itself has at most one limb more than the divisor. -/
theorem Divisible.dividend_len (h : Divisible w a b) :
    (w.ints a).len.toNat ≤ (w.ints b).len.toNat + 1 :=
  h.len_le (k := 0) (by decide) h.dividend (by rw [Int.mul_zero, Int.sub_zero])

theorem Divisible.divisor_len (h : Divisible w a b) : 0 < (w.ints b).len.toNat := by
  have hpos := h.pos
  rw [Nat.pos_iff_ne_zero]
  intro h0
  rw [val_zero (BitVec.eq_of_toNat_eq h0)] at hpos
  exact absurd hpos (by decide)

/-! ### The corrections -/

/-- `k` times `b` has been taken off `a`, and the guess counts it. -/
structure Partway (w : World ι σ) (a b : Nat) (s : World ι σ × BitVec 32) (k : Int) : Prop where
  left : Computed a (val (w.ints a) - val (w.ints b) * k) w s.1
  count : s.2 = BitVec.ofInt 32 k
  small : |k| < 2 ^ 31

theorem Partway.toInt_count {s : World ι σ × BitVec 32} {k : Int} (hs : Partway w a b s k) :
    s.2.toInt = k := by
  have hk := abs_lt.mp hs.small
  rw [hs.count, BitVec.toInt_ofInt]
  exact Int.bmod_eq_of_le (by omega) (by omega)

section

variable (h : Divisible w a b) (hab : a ≠ b) (hfuel : 2 ^ 30 ≤ fuel) {C : Prop}
  (hmem : C ∨ Roomy A ((w.ints b).len.toNat + 2))

include hab in
theorem Partway.divisor {s : World ι σ × BitVec 32} {k : Int} (hs : Partway w a b s k) :
    s.1.ints b = w.ints b := hs.left.only.ints b hab.symm

include h hab hfuel hmem

/-- One more, or one less, times `b`: what one step of either loop does. -/
theorem Partway.step {s : World ι σ × BitVec 32} {k : Int} (hs : Partway w a b s k) {m : BitVec 32}
    (hm : (-2147483648#32).slt m = true) (hk : |k - m.toInt| < 2 ^ 31) {q : BitVec 32}
    (hq : q = BitVec.ofInt 32 (k - m.toInt)) :
    EndsOr C (fun w' => Partway w a b (w', q) (k - m.toInt)) (addMulSmall A fuel s.1 a b m) := by
  have hb := hs.divisor hab
  have hlen := h.len_le hs.small hs.left.canonical hs.left.val
  have hcb : Canonical (s.1.ints b) := by
    rw [hb]
    exact h.divisor
  refine (addMulSmall_endsOr A hs.left.canonical hcb (.inr hm)
    (hmem.imp_right fun hA => hA.mono ?_) hfuel).mono fun w' hw' => ?_
  · refine ⟨⟨hs.left.only.trans hw'.only, hw'.canonical, ?_⟩, hq, hk⟩
    rw [hw'.val, hs.left.val, hb]
    ring
  · rw [hb]
    omega

/-- **Too large a guess** is brought down until what is left is not negative. -/
theorem addBack_endsOr {s : World ι σ × BitVec 32} {k : Int} (hs : Partway w a b s k)
    (hfuel' : 2 ^ 31 < fuel) :
    EndsOr C (fun s' => ∃ k', Partway w a b s' k' ∧ 0 ≤ val (w.ints a) - val (w.ints b) * k')
      (iterate (addBack A fuel a b) fuel s) := by
  refine iterate_endsOr (fun s => ∃ k, Partway w a b s k) _ (fun s => s.2.toInt.toNat) ?_ fuel s
    ⟨k, hs⟩ ?_
  · rintro s ⟨k, hs⟩
    have hsmall := abs_lt.mp hs.small
    rw [addBack]
    by_cases hneg : (sign s.1 a).slt 0#32 = true
    · rw [if_pos hneg]
      rw [sign_slt_iff hs.left.canonical, hs.left.val] at hneg
      have hkpos : 0 < k := by
        by_contra hk
        have := mul_nonpos_of_nonneg_of_nonpos h.pos.le (not_lt.mp hk)
        have := h.nonneg
        omega
      have hq : s.2 - 1#32 = BitVec.ofInt 32 (k - (1#32).toInt) := by
        rw [hs.count, show (1#32).toInt = 1 from rfl, Int.sub_eq_add_neg, BitVec.ofInt_add,
          BitVec.sub_eq_add_neg]
        rfl
      refine endsOr_bind (hs.step h hab hfuel hmem (m := 1#32) (by decide) ?_ hq) fun w' hw' => ?_
      · rw [show (1#32).toInt = 1 from rfl, abs_lt]
        omega
      · refine ⟨⟨_, hw'⟩, ?_⟩
        dsimp only
        rw [hw'.toInt_count, hs.toInt_count, show (1#32).toInt = 1 from rfl]
        omega
    · rw [if_neg hneg, endsOr_done]
      rw [sign_slt_iff hs.left.canonical, hs.left.val] at hneg
      exact ⟨k, hs, not_lt.mp hneg⟩
  · have := BitVec.toInt_lt (x := s.2)
    omega

/-- **Too small a guess** is brought up until what is left is less than the divisor. -/
theorem takeOff_endsOr {s : World ι σ × BitVec 32} {k : Int} (hs : Partway w a b s k)
    (hleft : 0 ≤ val (w.ints a) - val (w.ints b) * k) (hfuel' : 2 ^ 32 < fuel) :
    EndsOr C (fun s' => ∃ k', Partway w a b s' k' ∧ 0 ≤ val (w.ints a) - val (w.ints b) * k'
        ∧ val (w.ints a) - val (w.ints b) * k' < val (w.ints b))
      (iterate (takeOff A fuel a b) fuel s) := by
  refine iterate_endsOr (fun s => ∃ k, Partway w a b s k ∧ 0 ≤ val (w.ints a) - val (w.ints b) * k) _
    (fun s => (2 ^ 31 - s.2.toInt).toNat) ?_ fuel s ⟨k, hs, hleft⟩ ?_
  · rintro s ⟨k, hs, hleft⟩
    have hsmall := abs_lt.mp hs.small
    have hb := hs.divisor hab
    rw [takeOff]
    refine endsOr_bind (compare_ends hs.left.canonical (by rw [hb]; exact h.divisor)
      (by omega)).endsOr fun c hc => ?_
    rw [hs.left.val, hb] at hc
    by_cases hge : (0#32).sle c = true
    · rw [if_pos hge]
      rw [BitVec.sle_eq_decide, decide_eq_true_eq, hc, show (0#32).toInt = 0 from rfl,
        Int.sign_nonneg_iff] at hge
      have hmore : k + 1 ≤ val (w.ints a) / val (w.ints b) := by
        rw [Int.le_ediv_iff_mul_le h.pos]
        calc (k + 1) * val (w.ints b) = val (w.ints b) * k + val (w.ints b) := by ring
          _ ≤ val (w.ints a) := by omega
      have hlt := h.small
      have hq : s.2 + 1#32 = BitVec.ofInt 32 (k - (-1#32).toInt) := by
        rw [hs.count, show (-1#32).toInt = -1 from by decide, Int.sub_neg, BitVec.ofInt_add]
        rfl
      refine endsOr_bind (hs.step h hab hfuel hmem (m := -1#32) (by decide) ?_ hq) fun w' hw' => ?_
      · rw [show (-1#32).toInt = -1 from by decide, abs_lt]
        omega
      · refine ⟨⟨_, hw', ?_⟩, ?_⟩
        · rw [show (-1#32).toInt = -1 from by decide, Int.sub_neg, Int.mul_add, Int.mul_one]
          omega
        · dsimp only
          rw [hw'.toInt_count, hs.toInt_count, show (-1#32).toInt = -1 from by decide]
          omega
    · rw [if_neg hge]
      rw [BitVec.sle_eq_decide, decide_eq_true_eq, hc, show (0#32).toInt = 0 from rfl,
        Int.sign_nonneg_iff] at hge
      exact ⟨k, hs, hleft, by omega⟩
  · have := BitVec.le_toInt s.2
    omega

/-- **The corrections are exact** from every guess that is not negative. -/
theorem correct_endsOr {q : BitVec 32} (hq : 0 ≤ q.toInt) (hfuel' : 2 ^ 32 < fuel) :
    EndsOr C (Divided w a b) (correct A fuel w a b q) := by
  have hlt := BitVec.toInt_lt (x := q)
  have hlen := h.dividend_len
  rw [correct]
  refine endsOr_bind (subMulSmall_endsOr A h.dividend h.divisor (.inr ?_)
    (hmem.imp_right fun hA => hA.mono (by omega)) hfuel) fun w₁ hw₁ => ?_
  · rw [BitVec.slt_eq_decide, decide_eq_true_eq,
      show (-2147483648#32).toInt = -2147483648 from by decide]
    omega
  have hstart : Partway w a b (w₁, q) q.toInt :=
    ⟨hw₁, BitVec.ofInt_toInt.symm, by rw [abs_of_nonneg hq]; omega⟩
  refine endsOr_bind (addBack_endsOr h hab hfuel hmem hstart (by omega)) fun s₂ hs₂ => ?_
  obtain ⟨k₂, hk₂, hleft₂⟩ := hs₂
  refine endsOr_bind (takeOff_endsOr h hab hfuel hmem hk₂ hleft₂ hfuel') fun s₃ hs₃ => ?_
  obtain ⟨k, hk, hge, hless⟩ := hs₃
  have hquotient : val (w.ints a) / val (w.ints b) = k ∧
      val (w.ints a) % val (w.ints b) = val (w.ints a) - val (w.ints b) * k :=
    (Int.ediv_emod_unique h.pos).mpr ⟨by ring, hge, hless⟩
  refine ⟨?_, ?_⟩
  · rw [hquotient.1]
    exact hk.toInt_count
  · rw [hquotient.2]
    exact hk.left

end

/-! ### A number divided by itself -/

/-- Taking a number off itself never comes to an end: it leaves a number equal to itself. -/
theorem takeOff_endless (hfuel : 2 ^ 30 ≤ fuel) (rounds : Nat) {s : World ι σ × BitVec 32}
    (hs : Canonical (s.1.ints a)) :
    Returns (fun _ => False) (iterate (takeOff A fuel a a) rounds s) := by
  refine iterate_returns (fun s => Canonical (s.1.ints a)) _ (fun s hs => ?_) rounds s hs
  rw [takeOff]
  refine returns_bind (compare_ends hs hs hfuel).sat.returns fun c hc => ?_
  rw [Int.sub_self] at hc
  have hsle : (0#32).sle c = true := by
    rw [BitVec.sle_eq_decide, decide_eq_true_eq, hc]
    decide
  rw [if_pos hsle]
  refine returns_bind (addMulSmall_endsOr A hs hs (.inl trivial) (.inl trivial) hfuel).sat.returns
    fun w' hw' => ?_
  exact hw'.canonical

theorem correct_self (ha : Canonical (w.ints a)) (hfuel : 2 ^ 30 ≤ fuel) (q : BitVec 32) :
    Returns (fun _ => False) (correct A fuel w a a q) := by
  rw [correct]
  refine returns_bind (subMulSmall_endsOr A ha ha (.inl trivial) (.inl trivial) hfuel).sat.returns
    fun w₁ hw₁ => ?_
  refine returns_bind (Q := fun s => Canonical (s.1.ints a)) ?_ fun s hs =>
    returns_bind (takeOff_endless hfuel fuel hs) fun _ hs' => hs'.elim
  refine iterate_returns (fun s => Canonical (s.1.ints a)) _ (fun s hs => ?_) fuel _ hw₁.canonical
  rw [addBack]
  split
  · refine returns_bind (addMulSmall_endsOr A hs hs (.inl trivial) (.inl trivial) hfuel).sat.returns
      fun w' hw' => ?_
    exact hw'.canonical
  · exact hs

/-! ### The call -/

/-- **The call is exact** for two different numbers, whatever the rounding of its estimate and from
every guess the estimate could give; it stops only for want of memory. -/
theorem divSmallQuotient_endsOr (hF : F.Rounding value round) (h : Divisible w a b) (hab : a ≠ b)
    {C : Prop} (hmem : C ∨ Roomy A ((w.ints b).len.toNat + 2)) (hfuel : 2 ^ 33 ≤ fuel) :
    EndsOr C (Divided w a b) (divSmallQuotient F A fuel w a b) := by
  rw [divSmallQuotient]
  refine endsOr_bind (Q := fun _ => True) (endsOr_require (fun _ => trivial)
    (.inr (zero_sle_sign h.dividend h.nonneg))) fun _ _ => ?_
  refine endsOr_bind (Q := fun _ => True) (endsOr_require (fun _ => trivial)
    (.inr (zero_slt_sign h.divisor h.pos))) fun _ _ => ?_
  refine endsOr_bind (estimate_ends hF h.dividend.toShape h.divisor h.divisor_len h.dividend_len
    (by omega)).endsOr fun q hq => ?_
  exact correct_endsOr h hab (by omega) hmem hq (by omega)

/-- **Where `div_small_quotient` is exact.**  For two different numbers that meet its contract it
returns the quotient rounded down and leaves the remainder, from every starting guess, or stops for
want of memory.  Where there is memory, it does so exactly when the numbers are different ones. -/
theorem divSmallQuotient_exact (hF : F.Rounding value round) (h : Divisible w a b)
    (hfuel : 2 ^ 33 ≤ fuel) :
    (a ≠ b →
      EndsOr (¬ Roomy A ((w.ints b).len.toNat + 2)) (Divided w a b) (divSmallQuotient F A fuel w a b) ∧
      ∀ q : BitVec 32, 0 ≤ q.toInt →
        EndsOr (¬ Roomy A ((w.ints b).len.toNat + 2)) (Divided w a b) (correct A fuel w a b q)) ∧
    (Roomy A ((w.ints b).len.toNat + 2) →
      ((Ends (Divided w a b) (divSmallQuotient F A fuel w a b) ∧
        ∀ q : BitVec 32, 0 ≤ q.toInt → Ends (Divided w a b) (correct A fuel w a b q)) ↔ a ≠ b)) := by
  have hmem := (Classical.em (Roomy A ((w.ints b).len.toNat + 2))).symm
  refine ⟨fun hab => ⟨divSmallQuotient_endsOr hF h hab hmem hfuel,
    fun q hq => correct_endsOr h hab (by omega) hmem hq (by omega)⟩, fun hroomy => ⟨?_, fun hab => ?_⟩⟩
  · rintro ⟨-, hends⟩ rfl
    obtain ⟨r, hr, -⟩ := (hends 0#32 le_rfl).exists
    exact (correct_self h.dividend (by omega) 0#32).of_eq_done hr
  · exact ⟨endsOr_false.mp (divSmallQuotient_endsOr hF h hab (.inr hroomy) hfuel),
      fun q hq => endsOr_false.mp (correct_endsOr h hab (by omega) (.inr hroomy) hq (by omega))⟩

/-! ### Two numbers -/

/-- Numbers without rounding. -/
def ratF64 : F64 ℚ where
  literal n := n
  add := (· + ·)
  mul := (· * ·)
  div := (· / ·)
  convertI64S i := i.toInt
  ge x y := decide (y ≤ x)
  truncI64S x :=
    if 0 ≤ x then (if x < 2 ^ 63 then some (BitVec.ofInt 64 ⌊x⌋) else none)
    else (if -2 ^ 63 - 1 < x then some (BitVec.ofInt 64 ⌈x⌉) else none)

theorem ratF64_rounding : ratF64.Rounding some id where
  mono := monotone_id
  zero := rfl
  pow _ _ := rfl
  literal _ _ := rfl
  convert _ := rfl
  add hx hy _ := by cases hx; cases hy; rfl
  mul hx hy _ := by cases hx; cases hy; rfl
  div hx hy _ _ := by cases hx; cases hy; rfl
  ge hx hy := by cases hx; cases hy; rfl
  trunc hx h0 hlt := by
    cases hx
    refine ⟨_, (if_pos h0).trans (if_pos hlt), ?_⟩
    have hfloor := Int.floor_nonneg.mpr h0
    have hsmall := Int.floor_lt.mpr (show _ < ((2 ^ 63 : Int) : ℚ) by exact_mod_cast hlt)
    rw [BitVec.toInt_ofInt]
    exact Int.bmod_eq_of_le (by omega) (by omega)

/-- A number of one limb. -/
def oneLimb (x : BitVec 64) : BigInt Unit :=
  { limbs := [x, 0#64, 0#64, 0#64], len := 1#32, neg := false, a := () }

theorem digit_oneLimb (x : BitVec 64) (i : Nat) :
    digit (oneLimb x).limbs i = if i = 0 then x else 0#64 := by
  rw [digit, oneLimb]
  rcases i with _ | _ | _ | _ | i <;> rfl

theorem oneLimb_canonical {x : BitVec 64} (hx : x.toNat < 2 ^ 32) (h0 : x ≠ 0#64) :
    Canonical (oneLimb x) where
  room := le_rfl
  size := show 4 < 2 ^ 28 by decide
  len := show 1 ≤ 4 by decide
  lt i := by
    rw [digits, digit_oneLimb, RADIX]
    split
    · exact_mod_cast hx
    · decide
  beyond i hi := by
    have hi' : 1 ≤ i := hi
    rw [digit_oneLimb, if_neg (by omega)]
  top k hk := by
    obtain rfl : k = 0 := Nat.succ_injective hk.symm
    exact h0
  zero h := absurd h (show (1#32 : BitVec 32) ≠ 0#32 by decide)

theorem val_oneLimb (x : BitVec 64) : val (oneLimb x) = x.toNat := by
  rw [val, mag, oneLimb]
  simp [value, digits, digit]

/-- Number 0 is 7 and number 1 is 2. -/
def sevenAndTwo : World Unit Unit :=
  { ints := fun p => if p = 0 then oneLimb 7#64 else oneLimb 2#64, made := 2, alloc := () }

theorem plenty_roomy {n : Nat} (hn : n < 2 ^ 27) : Roomy (fun _ : Unit => plenty) n :=
  ⟨fun _ => ⟨fun _ _ => rfl, fun _ _ => rfl⟩, hn⟩

theorem sevenAndTwo_divisible : Divisible sevenAndTwo 0 1 := by
  have h7 : val (sevenAndTwo.ints 0) = 7 := val_oneLimb 7#64
  have h2 : val (sevenAndTwo.ints 1) = 2 := val_oneLimb 2#64
  refine ⟨oneLimb_canonical (by decide) (by decide), oneLimb_canonical (by decide) (by decide), ?_, ?_, ?_⟩
  · rw [h7]
    decide
  · rw [h2]
    decide
  · rw [h7, h2]
    decide

theorem seven_divisible : Divisible sevenAndTwo 0 0 := by
  have h7 : val (sevenAndTwo.ints 0) = 7 := val_oneLimb 7#64
  refine ⟨oneLimb_canonical (by decide) (by decide), oneLimb_canonical (by decide) (by decide), ?_, ?_, ?_⟩
  · rw [h7]
    decide
  · rw [h7]
    decide
  · rw [h7]
    decide

/-- 7 divided by 2 is 3, and leaves 1. -/
theorem divSmallQuotient_exact_seven :
    Ends (fun r => r.1.toInt = 3 ∧ val (r.2.ints 0) = 1)
      (divSmallQuotient ratF64 (fun _ : Unit => plenty) (2 ^ 33) sevenAndTwo 0 1) := by
  have hexact := divSmallQuotient_exact (A := fun _ : Unit => plenty) ratF64_rounding
    sevenAndTwo_divisible (le_refl (2 ^ 33))
  have hends := ((hexact.2 (plenty_roomy (by decide))).mpr (by decide)).1
  refine hends.mono fun r hr => ⟨hr.quotient.trans ?_, hr.remainder.val.trans ?_⟩
  · rw [show val (sevenAndTwo.ints 0) = 7 from val_oneLimb 7#64,
      show val (sevenAndTwo.ints 1) = 2 from val_oneLimb 2#64]
    rfl
  · rw [show val (sevenAndTwo.ints 0) = 7 from val_oneLimb 7#64,
      show val (sevenAndTwo.ints 1) = 2 from val_oneLimb 2#64]
    rfl

/-- 7, given as both numbers, meets the contract, and the call never returns. -/
theorem divSmallQuotient_self :
    ¬ ∀ (w : World Unit Unit) (a b : Nat), Divisible w a b → ∃ n, ∀ fuel, n ≤ fuel →
      Ends (Divided w a b) (divSmallQuotient ratF64 (fun _ : Unit => plenty) fuel w a b) := by
  intro h
  obtain ⟨n, hn⟩ := h sevenAndTwo 0 0 seven_divisible
  obtain ⟨r, hr, -⟩ := (hn (n + 2 ^ 33) (by omega)).exists
  rw [divSmallQuotient] at hr
  obtain ⟨_, -, hr⟩ := bind_eq_done hr
  obtain ⟨_, -, hr⟩ := bind_eq_done hr
  obtain ⟨q, -, hr⟩ := bind_eq_done hr
  exact (correct_self seven_divisible.dividend (by omega) q).of_eq_done hr

end Aipl.StdBigint
