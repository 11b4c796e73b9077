import Aipl.Lib.Rounding
import Aipl.Std.Fmt.Places

/-! # `f64_fixed` is exact

* `Fixed` — the exact value, rounded half to even to so many decimals.
* `roundLast_ends` — what remains decides as the exact value does.
* `fixedFinite_ends` — the finite numbers.
* `f64Fixed_exact` — every pattern, with at most 40 decimals; no bit is lost.
-/

namespace Aipl.StdFmt

open Aipl.Lib Aipl.Lib.Outcome Aipl.Lib.Numeral Aipl.Lib.Rounding Aipl.Lib.Binary64 Aipl.StdBuf Aipl.StdBytes
open Aipl.Std (Allocator Plentiful array array_endsOr freeArray freeArray_endsOr sat_array)

variable {pre : Bytes} {fuel k d X Y T R v : Nat} {strict : Bool} {a frac rest whole : Limbs} {g : Nat → Nat} {bits : BitVec 64}

/-! ### Words in limbs -/

theorem limb_small (hv : v < 2 ^ 64) (i : Nat) : limb v i = if i = 0 then v % 2 ^ 32 else if i = 1 then v / 2 ^ 32 else 0 := by
  rw [limb]
  split
  · next h0 =>
    subst h0
    rw [Nat.mul_zero, Nat.pow_zero, Nat.div_one]
  · next h0 =>
    split
    · next h1 =>
      subst h1
      rw [Nat.mul_one]
      exact Nat.mod_eq_of_lt (Nat.div_lt_of_lt_mul (by omega))
    · next h1 =>
      have hbig : v < 2 ^ (32 * i) := hv.trans_le (Nat.pow_le_pow_right (by decide) (by omega))
      rw [Nat.div_eq_of_lt hbig, Nat.zero_mod]

theorem lt_limit_of_lt (hv : v < 2 ^ 64) : v < limit := hv.trans_le (Nat.pow_le_pow_right (by decide) (by decide))

/-- The low limb of a word is set, and the others are those of another word. -/
def Half (v X : Nat) : Limbs → Prop := Is fun i => if i = 0 then limb v 0 else limb X i

theorem setLow {x : BitVec 64} (h : Holds X a) (hx : x.toNat = limb v 0) : Ends (Half v X) (setLimb a 0 x) :=
  setLimb_is h.2 (by decide) (fun _ _ hk => if_neg hk) (hx.trans (if_pos rfl).symm)

theorem setHigh {x : BitVec 64} (hv : v < 2 ^ 64) (hX : X < 2 ^ 64) (h : Half v X a) (hx : x.toNat = limb v 1) :
    Ends (Holds v) (setLimb a 1 x) := by
  refine (setLimb_is (g := limb v) h (by decide) (fun k _ hk => ?_) hx).mono fun a' ha' => ⟨lt_limit_of_lt hv, ha'⟩
  rw [limb_small hv, limb_small hX, limb_small hv]
  by_cases h0 : k = 0
  · subst h0
    rfl
  · rw [if_neg h0, if_neg hk, if_neg h0, if_neg h0, if_neg hk]

theorem toNat_low (x : BitVec 64) : (x &&& 4294967295#64).toNat = limb x.toNat 0 := by
  rw [toNat_and_mask, limb_small x.isLt, if_pos rfl]

theorem toNat_high (x : BitVec 64) : (x >>> 32).toNat = limb x.toNat 1 := by
  rw [toNat_shiftRight, limb_small x.isLt]
  rfl

/-- No limb is set. -/
theorem holds_zeros : Holds 0 (List.replicate bigLimbs 0#64) := by
  refine ⟨Nat.two_pow_pos _, List.length_replicate, fun i hi => ⟨0#64, by rw [List.getElem?_replicate, if_pos hi], ?_⟩⟩
  simp [limb]

/-! ### Rounding what remains -/

/-- One more where what remains is more than half, or half above an odd number. -/
def rounded (T R k : Nat) : Nat := if 2 ^ k < 2 * R ∨ 2 ^ k = 2 * R ∧ T % 2 = 1 then T + 1 else T

theorem copy_ends (h : Holds R frac) (hrest : Is g rest) :
    Ends (Holds R) (foldAll (fun rest i => do setLimb rest i (← getLimb frac i)) rest (List.range bigLimbs)) := by
  refine (foldAll_range_ends (fun i => Is fun j => if j < i then limb R j else g j) ?_ bigLimbs fun i a hi ha => ?_).mono
    fun a ha => ⟨h.1, ha.congr fun i hi => if_pos hi⟩
  · exact hrest.congr fun i _ => (if_neg (by omega)).symm
  · obtain ⟨x, hx, hval⟩ := getLimb_eq h.2 hi
    rw [hx, done_bind]
    exact setLimb_is ha hi (fun j _ hj => if_congr (by omega) rfl rfl) (hval.trans (if_pos (Nat.lt_succ_self i)).symm)

/-- The half bit and what is below it tell which side of a half it is. -/
theorem half_bit (hk : 0 < k) (hR : R < 2 ^ k) :
    (R.testBit (k - 1) = true ∧ R % 2 ^ (k - 1) ≠ 0 ↔ 2 ^ k < 2 * R) ∧
      (R.testBit (k - 1) = true ∧ R % 2 ^ (k - 1) = 0 ↔ 2 ^ k = 2 * R) := by
  obtain ⟨j, rfl⟩ : ∃ j, k = j + 1 := ⟨k - 1, by omega⟩
  have hpos := Nat.two_pow_pos j
  rw [Nat.add_sub_cancel, Nat.testBit_eq_decide_div_mod_eq, decide_eq_true_eq]
  rw [pow_succ] at hR ⊢
  generalize 2 ^ j = H at hpos hR ⊢
  rcases Nat.lt_or_ge R H with hlt | hge
  · rw [Nat.div_eq_of_lt hlt]
    omega
  · obtain ⟨r, rfl⟩ := Nat.exists_eq_add_of_le hge
    rw [Nat.add_div_left _ hpos, Nat.add_mod_left, Nat.div_eq_of_lt (by omega), Nat.mod_eq_of_lt (show r < H by omega)]
    omega

theorem roundLast_ends (hk : 0 < k) (hk' : k ≤ 1074) (hR : R < 2 ^ k) (h : Holds R frac) (hrest : Is g rest)
    (hfuel : pre.length + (fixedText d T).length < fuel) :
    Ends (fun r => r = (pre ++ fixedText d (rounded T R k), (pre ++ fixedText d (rounded T R k)).length))
      (roundLast fuel (pre ++ fixedText d T) pre.length (pre ++ fixedText d T).length frac rest k) := by
  obtain ⟨habove, htie⟩ := half_bit hk hR
  obtain ⟨l, hl⟩ := fixedText_last d T
  have hlast : byteAt (pre ++ fixedText d T) ((pre ++ fixedText d T).length - 1) = done (48 + T % 10) := by
    have hlen : (pre ++ fixedText d T).length - 1 = (pre ++ l).length := by
      rw [hl, ← List.append_assoc, List.length_append]
      rfl
    rw [hlen, hl, ← List.append_assoc, byteAt_mid, digitText_of_lt (Nat.mod_lt _ (by decide)), BitVec.toNat_ofNat,
      Nat.mod_eq_of_lt (by omega)]
  rw [roundLast, bigBit_eq h (by rw [bigLimbs]; omega), done_bind]
  refine ends_bind (copy_ends h hrest) fun rest hrest => ?_
  refine ends_bind (bigMask_holds hrest (k - 1)) fun rest hrest => ?_
  have hab : (if (R.testBit (k - 1)).toNat = 1 then do pure (!(← bigIsZero rest)) else pure false : Outcome Bool) =
      done (decide (2 ^ k < 2 * R)) := by
    rw [bigIsZero_eq hrest]
    by_cases hb : R.testBit (k - 1) = true
    · simp [hb, ← habove]
    · simp [hb, ← habove]
  have hti : (if (R.testBit (k - 1)).toNat = 1 then bigIsZero rest else pure false : Outcome Bool) =
      done (decide (2 ^ k = 2 * R)) := by
    rw [bigIsZero_eq hrest]
    by_cases hb : R.testBit (k - 1) = true
    · simp [hb, ← htie]
    · simp [hb, ← htie]
  have hodd : decide ((48 + T % 10 - 48) % 2 = 1) = decide (T % 2 = 1) := decide_eq_decide.mpr (by omega)
  rw [hab, done_bind, hti, done_bind, hlast, done_bind, hodd]
  dsimp only
  rw [← Bool.decide_and, ← Bool.decide_or, rounded]
  by_cases hup : 2 ^ k < 2 * R ∨ 2 ^ k = 2 * R ∧ T % 2 = 1
  · rw [decide_eq_true hup, if_pos rfl, if_pos hup]
    refine (roundUp_ends hfuel).mono fun r hr => ?_
    rw [hr, bump_fixedText, List.reverse_reverse]
  · rw [decide_eq_false hup, if_neg Bool.false_ne_true, if_neg hup]
    exact rfl

/-! ### The finite numbers -/

/-- The number whose text is written for `m * 2 ^ e`. -/
def fixedValue (m : Nat) (e : ℤ) (d : Nat) : Nat := halfEven (m * 2 ^ e.toNat * 10 ^ d) (2 ^ (-e).toNat)

/-- One less than the most digits that the whole part has. -/
def wholeDigits : Nat := 308

theorem whole_lt {W b : Nat} (hb : b ≤ 1024) (h : W ≤ 2 ^ b) : W < 10 ^ (wholeDigits + 1) := by
  have hquarter : 2 ^ 256 < 116 * 10 ^ 75 := by decide
  have hlow : 116 ^ 4 < 10 ^ 9 := by decide
  have hle : ∀ x, b ≤ 256 * x → 2 ^ b ≤ (2 ^ 256) ^ x := fun x hx => by
    rw [← pow_mul]
    exact Nat.pow_le_pow_right (by decide) hx
  calc W ≤ 2 ^ b := h
    _ ≤ (2 ^ 256) ^ 4 := hle 4 hb
    _ < (116 * 10 ^ 75) ^ 4 := Nat.pow_lt_pow_left hquarter (by decide)
    _ = 116 ^ 4 * (10 ^ 75) ^ 4 := Nat.mul_pow _ _ 4
    _ < 10 ^ 9 * (10 ^ 75) ^ 4 := Nat.mul_lt_mul_of_pos_right hlow (by positivity)
    _ = 10 ^ (wholeDigits + 1) := by rw [show wholeDigits + 1 = 9 + 75 * 4 from rfl, pow_add, pow_mul]

/-- The whole part and the decimals of `Y * 10 ^ d / 2 ^ k`. -/
theorem fixed_split (Y k d : Nat) : Y * 10 ^ d / 2 ^ k = Y / 2 ^ k * 10 ^ d + Y % 2 ^ k * 10 ^ d / 2 ^ k ∧
    Y * 10 ^ d % 2 ^ k = Y % 2 ^ k * 10 ^ d % 2 ^ k ∧ Y % 2 ^ k * 10 ^ d / 2 ^ k < 10 ^ d := by
  have hpos := Nat.two_pow_pos k
  have hmul : Y * 10 ^ d = Y % 2 ^ k * 10 ^ d + Y / 2 ^ k * 10 ^ d * 2 ^ k := by
    conv_lhs => rw [← Nat.div_add_mod' Y (2 ^ k)]
    ring
  refine ⟨by rw [hmul, Nat.add_mul_div_right _ _ hpos, Nat.add_comm], by rw [hmul, Nat.add_mul_mod_self_right], ?_⟩
  exact Nat.div_lt_of_lt_mul (Nat.mul_lt_mul_of_pos_right (Nat.mod_lt _ hpos) (by positivity))

theorem div_of_split {W q : Nat} (hq : q < 10 ^ d) : (W * 10 ^ d + q) / 10 ^ d = W := by
  rw [Nat.add_comm, Nat.add_mul_div_right _ _ (by positivity), Nat.div_eq_of_lt hq, Nat.zero_add]

theorem fixedText_split {W q : Nat} (hq : q < 10 ^ d) :
    fixedText d (W * 10 ^ d + q) = numeral 10 false W ++ if d = 0 then [] else 46#8 :: lastDigits d q := by
  rw [fixedText, div_of_split hq, lastDigits_add]

/-- The limbs of the whole part and of the fraction. -/
theorem splits {m : BitVec 64} {e : ℤ} (hm : m.toNat < 2 ^ 53) (he : e ≤ 971) (h : Holds m.toNat whole) (hfrac : Holds 0 frac) :
    Ends (fun s => s.1 = (-e).toNat ∧ Holds (m.toNat * 2 ^ e.toNat / 2 ^ (-e).toNat) s.2.1 ∧
      Holds (m.toNat * 2 ^ e.toNat % 2 ^ (-e).toNat) s.2.2) (if 0 ≤ e then do
        let whole ← bigShl strict whole e.toNat
        pure (0, whole, frac)
      else do
        let k := (-e).toNat
        let frac ← setLimb frac 0 (← getLimb whole 0)
        let frac ← setLimb frac 1 (← getLimb whole 1)
        let frac ← bigMask frac k
        let whole ← (if 64 ≤ k then do
          let whole ← setLimb whole 0 0#64
          setLimb whole 1 0#64
        else do
          let w := m >>> k
          let whole ← setLimb whole 0 (w &&& 4294967295#64)
          setLimb whole 1 (w >>> 32) : Outcome Limbs)
        pure (k, whole, frac) : Outcome (Nat × Limbs × Limbs)) := by
  have hm64 : m.toNat < 2 ^ 64 := m.isLt
  by_cases hneg : 0 ≤ e
  · rw [if_pos hneg, show (-e).toNat = 0 by omega, Nat.pow_zero, Nat.div_one, Nat.mod_one]
    refine ends_bind (bigShl_holds h ?_) fun whole hwhole => ⟨rfl, hwhole, hfrac⟩
    calc m.toNat * 2 ^ e.toNat < 2 ^ 53 * 2 ^ e.toNat := Nat.mul_lt_mul_of_pos_right hm (Nat.two_pow_pos _)
      _ = 2 ^ (53 + e.toNat) := (pow_add 2 53 _).symm
      _ ≤ limit := Nat.pow_le_pow_right (by decide) (by rw [bigLimbs]; omega)
  rw [if_neg hneg, show e.toNat = 0 by omega, Nat.pow_zero, Nat.mul_one]
  dsimp only
  generalize hk : (-e).toNat = k
  obtain ⟨x, hx, hxv⟩ := getLimb_eq h.2 (show 0 < bigLimbs by decide)
  obtain ⟨y, hy, hyv⟩ := getLimb_eq h.2 (show 1 < bigLimbs by decide)
  rw [hx, done_bind]
  refine ends_bind (setLow hfrac hxv) fun frac hfrac => ?_
  rw [hy, done_bind]
  refine ends_bind (setHigh hm64 (by decide) hfrac hyv) fun frac hfrac => ?_
  refine ends_bind (bigMask_holds hfrac k) fun frac hfrac => ?_
  refine ends_bind (Q := Holds (m.toNat / 2 ^ k)) ?_ fun whole hwhole => ⟨rfl, hwhole, hfrac⟩
  by_cases hbig : 64 ≤ k
  · have hzero : m.toNat / 2 ^ k = 0 := Nat.div_eq_of_lt (hm64.trans_le (Nat.pow_le_pow_right (by decide) hbig))
    have hlimb : ∀ i, (0#64).toNat = limb 0 i := fun i => by simp [limb]
    rw [if_pos hbig, hzero]
    exact ends_bind (setLow h (hlimb 0)) fun whole hwhole => setHigh (by decide) hm64 hwhole (hlimb 1)
  · have hshift := toNat_shiftRight m k
    rw [if_neg hbig, ← hshift]
    exact ends_bind (setLow h (toNat_low _)) fun whole hwhole => setHigh (BitVec.isLt _) hm64 hwhole (toNat_high _)

variable (strict) in
/-- **A finite number** is written, rounded. -/
theorem fixedFinite_ends {m : BitVec 64} {e : ℤ} (hm : m.toNat < 2 ^ 53) (he : -1074 ≤ e ∧ e ≤ 971) (hpre : pre.length ≤ 1)
    (hd : d ≤ 40) (hfuel : 400 ≤ fuel) (hwhole : Holds 0 whole) (hfrac : Holds 0 frac) (hrest : Holds 0 rest) :
    Ends (fun r => r = (pre ++ fixedText d (fixedValue m.toNat e d), (pre ++ fixedText d (fixedValue m.toNat e d)).length))
      (fixedFinite fuel strict m e d pre pre.length whole frac rest) := by
  have hm64 : m.toNat < 2 ^ 64 := m.isLt
  rw [fixedFinite]
  refine ends_bind (setLow hwhole (toNat_low m)) fun whole hwhole => ?_
  refine ends_bind (setHigh hm64 (by decide) hwhole (toNat_high m)) fun whole hwhole => ?_
  refine ends_bind (splits hm he.2 hwhole hfrac) ?_
  rintro ⟨k, whole, frac⟩ ⟨hk, hwhole, hfrac⟩
  dsimp only at hk hwhole hfrac ⊢
  have hY : m.toNat * 2 ^ e.toNat ≤ 2 ^ (53 + e.toNat) := by
    rw [pow_add]
    exact Nat.mul_le_mul_right _ hm.le
  rw [fixedValue, ← hk]
  rw [← hk] at hwhole hfrac
  have hk' : k ≤ 1074 := by omega
  generalize m.toNat * 2 ^ e.toNat = Y at hY hwhole hfrac ⊢
  obtain ⟨hdiv, hmod, hlow⟩ := fixed_split Y k d
  have hW : Y / 2 ^ k < 10 ^ (wholeDigits + 1) := whole_lt (by omega) ((Nat.div_le_self _ _).trans hY)
  have hF := Nat.mod_lt Y (Nat.two_pow_pos k)
  have hdigits := length_remainders_le (by decide) hW
  have hlen : (fixedText d (Y * 10 ^ d / 2 ^ k)).length ≤ wholeDigits + 2 + d :=
    length_fixedText_le (by rw [hdiv, div_of_split hlow]; exact hW)
  rw [wholeDigits] at hdigits hlen
  refine ends_bind (putWhole_ends hwhole (by omega)) ?_
  rintro _ rfl
  have hpoint : (if 0 < d then do
        let out ← store8 (pre ++ numeral 10 false (Y / 2 ^ k)) (pre ++ numeral 10 false (Y / 2 ^ k)).length 46
        pure (out, (pre ++ numeral 10 false (Y / 2 ^ k)).length + 1)
      else pure (pre ++ numeral 10 false (Y / 2 ^ k), (pre ++ numeral 10 false (Y / 2 ^ k)).length) : Outcome (Bytes × Nat)) =
      done (pre ++ numeral 10 false (Y / 2 ^ k) ++ (if d = 0 then [] else [46#8]),
        (pre ++ numeral 10 false (Y / 2 ^ k) ++ (if d = 0 then [] else [46#8])).length) := by
    generalize pre ++ numeral 10 false (Y / 2 ^ k) = X
    by_cases hd0 : d = 0
    · rw [if_neg (by omega), if_pos hd0, List.append_nil]
      rfl
    · rw [if_pos (by omega), if_neg hd0, store8_end, done_bind, List.length_append]
      rfl
  dsimp only
  rw [hpoint, done_bind]
  refine ends_bind (decimals_ends hk' hF hfrac d) ?_
  rintro ⟨frac, out, n⟩ ⟨hfrac, hout, hn⟩
  dsimp only at hfrac hout hn ⊢
  have htext : out = pre ++ fixedText d (Y * 10 ^ d / 2 ^ k) := by
    rw [hout, hdiv, fixedText_split hlow]
    by_cases hd0 : d = 0
    · subst hd0
      simp [lastDigits]
    · simp [hd0]
  subst hn
  rw [htext]
  by_cases hk0 : k = 0
  · subst hk0
    rw [if_neg (lt_irrefl 0), Nat.pow_zero, halfEven_one, Nat.div_one]
    exact rfl
  · rw [if_pos (Nat.pos_of_ne_zero hk0)]
    rw [← hmod] at hfrac
    have hround : halfEven (Y * 10 ^ d) (2 ^ k) = rounded (Y * 10 ^ d / 2 ^ k) (Y * 10 ^ d % 2 ^ k) k := rfl
    rw [hround]
    exact roundLast_ends (Nat.pos_of_ne_zero hk0) hk' (Nat.mod_lt _ (Nat.two_pow_pos k)) hfrac hrest.2 (by omega)

/-! ### Every pattern -/

/-- The sign that is written. -/
def signText (bits : BitVec 64) : Bytes := if negative bits then [45#8] else []

/-- The text that is written. -/
def resultText (bits : BitVec 64) (d : Nat) : Bytes :=
  signText bits ++
    if exponent bits = 2047 then if fraction bits = 0 then [105#8, 110#8, 102#8] else [110#8, 97#8, 110#8]
    else fixedText d (fixedValue (significand bits) (power bits) d)

/-- **The exact value**, rounded half to even to `d` decimals; or `inf` or `nan`; after the sign. -/
def Fixed (bits : BitVec 64) (d : Nat) (text : Bytes) : Prop :=
  if exponent bits = 2047 then
    text = signText bits ++ if fraction bits = 0 then [105#8, 110#8, 102#8] else [110#8, 97#8, 110#8]
  else ∃ T, Nearest (magnitude bits * 10 ^ d) T ∧ text = signText bits ++ fixedText d T

theorem fixedValue_nearest (bits : BitVec 64) (d : Nat) :
    Nearest (magnitude bits * 10 ^ d) (fixedValue (significand bits) (power bits) d) := by
  have hnear := halfEven_nearest (a := significand bits * 2 ^ (power bits).toNat * 10 ^ d) (Nat.two_pow_pos (-power bits).toNat)
  have hvalue : magnitude bits * 10 ^ d =
      (significand bits * 2 ^ (power bits).toNat * 10 ^ d : Nat) / (2 ^ (-power bits).toNat : Nat) := by
    rw [magnitude_eq, zpow_split]
    push_cast
    ring
  rw [hvalue]
  exact hnear

theorem resultText_fixed (bits : BitVec 64) (d : Nat) : Fixed bits d (resultText bits d) := by
  rw [Fixed, resultText]
  split
  · rfl
  · exact ⟨_, fixedValue_nearest bits d, rfl⟩

theorem fixedValue_lt (h : exponent bits ≠ 2047) : fixedValue (significand bits) (power bits) d / 10 ^ d < 10 ^ (wholeDigits + 1) := by
  have hpow := power_between h
  have hY : significand bits * 2 ^ (power bits).toNat < 2 ^ (53 + (power bits).toNat) := by
    rw [pow_add]
    exact Nat.mul_lt_mul_of_pos_right (significand_lt bits) (Nat.two_pow_pos _)
  rw [fixedValue]
  generalize significand bits * 2 ^ (power bits).toNat = Y at hY
  generalize (-power bits).toNat = k
  have hle : halfEven (Y * 10 ^ d) (2 ^ k) ≤ Y * 10 ^ d / 2 ^ k + 1 := by
    rw [halfEven]
    split
    · exact le_rfl
    · exact Nat.le_succ _
  obtain ⟨hdiv, -, hlow⟩ := fixed_split Y k d
  refine whole_lt (W := halfEven (Y * 10 ^ d) (2 ^ k) / 10 ^ d) (b := 53 + (power bits).toNat) (by omega) ?_
  calc halfEven (Y * 10 ^ d) (2 ^ k) / 10 ^ d ≤ (Y * 10 ^ d / 2 ^ k + 1) / 10 ^ d := Nat.div_le_div_right hle
    _ ≤ (Y / 2 ^ k * 10 ^ d + 10 ^ d) / 10 ^ d := by
      rw [hdiv]
      exact Nat.div_le_div_right (by omega)
    _ = Y / 2 ^ k + 1 := by rw [← Nat.succ_mul, Nat.mul_div_cancel _ (by positivity)]
    _ ≤ Y + 1 := Nat.succ_le_succ (Nat.div_le_self _ _)
    _ ≤ 2 ^ (53 + (power bits).toNat) := hY

theorem length_resultText (bits : BitVec 64) (d : Nat) : (resultText bits d).length ≤ 312 + d := by
  have hsign : (signText bits).length ≤ 1 := by
    rw [signText]
    split
    · exact le_rfl
    · exact Nat.zero_le _
  rw [resultText, List.length_append]
  split
  · split
    · simp only [List.length_cons, List.length_nil]
      omega
    · simp only [List.length_cons, List.length_nil]
      omega
  · next hfinite =>
    have hlen := length_fixedText_le (fixedValue_lt (d := d) hfinite)
    rw [wholeDigits] at hlen
    omega

theorem toNat_exponent (bits : BitVec 64) : ((bits >>> 52) &&& 2047#64).toNat = exponent bits := by
  rw [BitVec.toNat_and, toNat_shiftRight, show (2047#64).toNat = 2 ^ 11 - 1 from rfl, Nat.and_two_pow_sub_one_eq_mod, exponent]

theorem toNat_fraction (bits : BitVec 64) : (bits &&& 4503599627370495#64).toNat = fraction bits := by
  rw [BitVec.toNat_and, show (4503599627370495#64).toNat = 2 ^ 52 - 1 from rfl, Nat.and_two_pow_sub_one_eq_mod, fraction]

theorem toNat_significand (bits : BitVec 64) :
    (if exponent bits = 0 then bits &&& 4503599627370495#64
      else bits &&& 4503599627370495#64 ||| 4503599627370496#64).toNat = significand bits := by
  rw [significand]
  split
  · exact toNat_fraction bits
  · have hor := Nat.two_pow_add_eq_or_of_lt (fraction_lt bits) 1
    rw [Nat.mul_one] at hor
    rw [BitVec.toNat_or, toNat_fraction, show (4503599627370496#64).toNat = 2 ^ 52 from rfl, Nat.or_comm, hor]

theorem slt_zero (bits : BitVec 64) : bits.slt 0#64 = negative bits := by
  rw [BitVec.slt_zero_eq_msb, BitVec.msb_eq_decide, negative]

/-- **With its big integers given**, each zero. -/
theorem f64FixedInto_eq (hd : d ≤ 40) (hfuel : 400 ≤ fuel) (hwhole : Holds 0 whole) (hfrac : Holds 0 frac) (hrest : Holds 0 rest) :
    f64FixedInto fuel strict bits d whole frac rest = done (resultText bits d, (resultText bits d).length) := by
  have hsign : (if bits.slt 0#64 then do
        let out ← store8 [] 0 45
        pure (out, 1)
      else pure ([], 0) : Outcome (Bytes × Nat)) = done (signText bits, (signText bits).length) := by
    rw [slt_zero, signText]
    split
    · rfl
    · rfl
  have hputs : ∀ (s : List Nat) (out : Bytes), putStr out out.length s =
      done (out ++ s.map (BitVec.ofNat 8), (out ++ s.map (BitVec.ofNat 8)).length) := by
    intro s
    induction s with
    | nil =>
      intro out
      rw [List.map_nil, List.append_nil]
      rfl
    | cons c s ih =>
      intro out
      rw [putStr, foldAll, store8_end, done_bind, pure_eq, done_bind]
      have hnext := ih (out ++ [BitVec.ofNat 8 c])
      rw [putStr, List.length_append, List.append_assoc, List.singleton_append] at hnext
      exact hnext
  rw [f64FixedInto]
  dsimp only
  rw [hsign, done_bind, toNat_exponent, resultText]
  have hmant : bits &&& 4503599627370495#64 = 0#64 ↔ fraction bits = 0 := by
    rw [← toNat_fraction]
    simp [BitVec.toNat_eq]
  by_cases hspecial : exponent bits = 2047
  · rw [if_pos hspecial, if_pos hspecial, hputs]
    by_cases hinf : fraction bits = 0
    · rw [if_pos hinf, if_pos (hmant.mpr hinf)]
      rfl
    · rw [if_neg hinf, if_neg (mt hmant.mp hinf)]
      rfl
  · rw [if_neg hspecial, if_neg hspecial]
    have hm := toNat_significand bits
    have hlen : (signText bits).length ≤ 1 := by
      rw [signText]
      split
      · exact le_rfl
      · exact Nat.zero_le _
    obtain ⟨r, hr, hval⟩ := (fixedFinite_ends strict (by rw [hm]; exact significand_lt bits) (power_between hspecial)
      hlen hd hfuel hwhole hfrac hrest).exists
    rw [hm] at hval
    rw [← hval]
    exact hr

/-- **Every pattern, with at most 40 decimals**: only an allocator keeps its text from being written, and no bit is lost. -/
theorem f64Fixed_exact {σ : Type} (A : Allocator σ) (heap : σ) (bits : BitVec 64) (hd : d ≤ 40) (hfuel : 400 ≤ fuel) :
    EndsOr (¬ Plentiful A) (fun r => Fixed bits d r.1 ∧ r.2.1 = r.1.length ∧ r.1.length ≤ 312 + d)
      (f64Fixed fuel A false heap bits d) ∧ f64Fixed fuel A true heap bits d = f64Fixed fuel A false heap bits d := by
  have hzeros : ∀ {l : Limbs}, l = List.replicate (BitVec.ofNat 32 bigLimbs).toNat i64.zero → Holds 0 l := fun h => by
    rw [h]
    exact holds_zeros
  have hmem : ¬ Plentiful A ∨ Plentiful A := (em _).symm
  have harray : ∀ heap, EndsOr (¬ Plentiful A) (fun r => Holds 0 r.1) (array A i64 heap (BitVec.ofNat 32 bigLimbs)) := fun heap =>
    (array_endsOr (hmem.imp_right fun hA => ⟨hA, by decide, by decide, by decide⟩)).mono fun r hr => hzeros hr.1
  have hgiven : ∀ heap, Returns (fun r => Holds 0 r.1) (array A i64 heap (BitVec.ofNat 32 bigLimbs)) := fun heap =>
    sat_array.returns.mono fun r hr => hzeros hr.1
  rw [f64Fixed, f64Fixed, decide_eq_true hd, show require true = done () from rfl, done_bind, done_bind]
  constructor
  · refine endsOr_bind (harray heap) fun whole hwhole => ?_
    refine endsOr_bind (harray _) fun frac hfrac => ?_
    refine endsOr_bind (harray _) fun rest hrest => ?_
    dsimp only
    rw [f64FixedInto_eq hd hfuel hwhole hfrac hrest, done_bind]
    refine endsOr_bind (freeArray_endsOr hmem) fun heap _ => ?_
    refine endsOr_bind (freeArray_endsOr hmem) fun heap _ => ?_
    refine endsOr_bind (freeArray_endsOr hmem) fun heap _ => ?_
    exact ⟨resultText_fixed bits d, rfl, length_resultText bits d⟩
  · refine bind_congr_of_returns (hgiven heap) fun whole hwhole => ?_
    refine bind_congr_of_returns (hgiven _) fun frac hfrac => ?_
    refine bind_congr_of_returns (hgiven _) fun rest hrest => ?_
    dsimp only
    rw [f64FixedInto_eq hd hfuel hwhole hfrac hrest, f64FixedInto_eq hd hfuel hwhole hfrac hrest]

/-- -9.75, with one decimal. -/
theorem f64Fixed_tie : EndsOr (¬ Plentiful Allocator.ample)
      (fun r => Fixed 0xC023800000000000#64 1 r.1 ∧ r.2.1 = r.1.length ∧ r.1.length ≤ 312 + 1)
      (f64Fixed 400 Allocator.ample false () 0xC023800000000000#64 1) ∧
    f64Fixed 400 Allocator.ample true () 0xC023800000000000#64 1 = f64Fixed 400 Allocator.ample false () 0xC023800000000000#64 1 :=
  f64Fixed_exact Allocator.ample () 0xC023800000000000#64 (by decide) (by decide)

end Aipl.StdFmt
