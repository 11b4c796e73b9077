import Aipl.Std.Buf.Numbers
import Aipl.Std.Fmt.Limbs

/-! # Writing and rounding the text of a number

* `fixedText` — the text of `T / 10 ^ d`.
* `bump` — one more in the last place, on a text read from its end; `bump_fixedText` — it is the next text.
* `putWhole_ends` — the integer digits, written lowest first and turned around.
* `decimals_ends` — the decimals, one for each round.
* `roundUp_ends` — one more in the last place, which may make the text longer.
-/

namespace Aipl.StdFmt

section

open Aipl.Lib.Numeral Aipl.StdBuf

/-- The last `d` digits of a number, the highest first. -/
def lastDigits : Nat → Nat → List (BitVec 8)
  | 0, _ => []
  | d + 1, T => lastDigits d (T / 10) ++ [digitText false (T % 10)]

/-- The text of `T / 10 ^ d` with `d` decimals. -/
def fixedText (d T : Nat) : List (BitVec 8) :=
  numeral 10 false (T / 10 ^ d) ++ if d = 0 then [] else 46#8 :: lastDigits d T

/-- One more in the last place, of a text read from its end. -/
def bump : List (BitVec 8) → List (BitVec 8)
  | [] => [49#8]
  | c :: r => if c = 46#8 then c :: bump r else if c = 57#8 then 48#8 :: bump r else (c + 1#8) :: r

variable {d T u : Nat}

@[simp] theorem length_lastDigits : ∀ (d T : Nat), (lastDigits d T).length = d
  | 0, _ => rfl
  | d + 1, T => by rw [lastDigits, List.length_append, length_lastDigits d, List.length_singleton]

/-- The digits above the last ones do not matter. -/
theorem lastDigits_add : ∀ (d W q : Nat), lastDigits d (W * 10 ^ d + q) = lastDigits d q
  | 0, _, _ => rfl
  | d + 1, W, q => by
      have hsum : W * 10 ^ (d + 1) + q = q + W * 10 ^ d * 10 := by
        rw [pow_succ]
        ring
      have hdiv : (W * 10 ^ (d + 1) + q) / 10 = W * 10 ^ d + q / 10 := by
        rw [hsum, Nat.add_mul_div_right _ _ (by decide), Nat.add_comm]
      have hmod : (W * 10 ^ (d + 1) + q) % 10 = q % 10 := by
        rw [hsum, Nat.add_mul_mod_self_right]
      rw [lastDigits, lastDigits, hdiv, hmod, lastDigits_add d]

theorem reverse_numeral (u : Nat) : (numeral 10 false u).reverse = (remainders 10 u).map (digitText false) := by
  rw [numeral_eq (by decide), List.reverse_reverse]

/-- The last digit stands at the end. -/
theorem fixedText_last (d T : Nat) : ∃ l, fixedText d T = l ++ [digitText false (T % 10)] := by
  cases d with
  | zero =>
    refine ⟨((Nat.digits 10 (T / 10)).map (digitText false)).reverse, ?_⟩
    rw [fixedText, if_pos rfl, List.append_nil, Nat.pow_zero, Nat.div_one, numeral_eq (by decide), remainders, List.map_cons,
      List.reverse_cons]
  | succ d => exact ⟨numeral 10 false (T / 10 ^ (d + 1)) ++ 46#8 :: lastDigits d (T / 10), by simp [fixedText, lastDigits]⟩

theorem length_fixedText_le {k : Nat} (h : T / 10 ^ d < 10 ^ (k + 1)) : (fixedText d T).length ≤ k + 2 + d := by
  have hlen := length_remainders_le (by decide) h
  have htail : (if d = 0 then [] else 46#8 :: lastDigits d T).length ≤ d + 1 := by
    split
    · simp
    · simp
  rw [fixedText, List.length_append, numeral_eq (by decide), List.length_reverse, List.length_map]
  omega

/-! ### One more in the last place -/

/-- A digit below nine becomes the next. -/
theorem bump_digit {g : Nat} (hg : g < 9) (r : List (BitVec 8)) :
    bump (digitText false g :: r) = digitText false (g + 1) :: r := by
  have hne : digitText false g ≠ 46#8 ∧ digitText false g ≠ 57#8 ∧ digitText false g + 1#8 = digitText false (g + 1) := by
    have hall : ∀ g < 9, digitText false g ≠ 46#8 ∧ digitText false g ≠ 57#8 ∧
        digitText false g + 1#8 = digitText false (g + 1) := by decide
    exact hall g hg
  rw [bump, if_neg hne.1, if_neg hne.2.1, hne.2.2]

/-- A nine becomes a zero, and one is carried. -/
theorem bump_nine (r : List (BitVec 8)) : bump (digitText false 9 :: r) = digitText false 0 :: bump r := rfl

theorem bump_digits (v : Nat) :
    bump ((Nat.digits 10 v).map (digitText false)) = (Nat.digits 10 (v + 1)).map (digitText false) := by
  induction v using Nat.strong_induction_on with
  | _ v ih =>
    rw [Nat.digits_def' (by decide) (Nat.succ_pos v), List.map_cons]
    by_cases hv : v = 0
    · subst hv
      rfl
    rw [Nat.digits_def' (by decide) (Nat.pos_of_ne_zero hv), List.map_cons]
    by_cases hnine : v % 10 = 9
    · rw [hnine, bump_nine, ih (v / 10) (by omega), show (v + 1) % 10 = 0 by omega, show (v + 1) / 10 = v / 10 + 1 by omega]
    · rw [bump_digit (by omega), show (v + 1) % 10 = v % 10 + 1 by omega, show (v + 1) / 10 = v / 10 by omega]

theorem bump_remainders (u : Nat) :
    bump ((remainders 10 u).map (digitText false)) = (remainders 10 (u + 1)).map (digitText false) := by
  rw [remainders_of_pos (by decide) (Nat.succ_pos u)]
  by_cases hu : u = 0
  · subst hu
    rfl
  · rw [remainders_of_pos (by decide) (Nat.pos_of_ne_zero hu), bump_digits]

/-- The decimals pass on what they carry. -/
theorem bump_lastDigits (tail : List (BitVec 8)) : ∀ (d T : Nat), bump ((lastDigits d T).reverse ++ tail) =
    (lastDigits d (T + 1)).reverse ++ if 10 ^ d ∣ T + 1 then bump tail else tail
  | 0, T => by
      rw [lastDigits, lastDigits, if_pos (by rw [pow_zero]; exact one_dvd _)]
      rfl
  | d + 1, T => by
      rw [lastDigits, lastDigits, List.reverse_append, List.reverse_append]
      simp only [List.reverse_singleton, List.nil_append, List.cons_append]
      by_cases hnine : T % 10 = 9
      · have hdvd : 10 ^ (d + 1) ∣ T + 1 ↔ 10 ^ d ∣ T / 10 + 1 := by
          rw [show T + 1 = (T / 10 + 1) * 10 by omega, pow_succ, Nat.mul_dvd_mul_iff_right (by decide)]
        rw [hnine, bump_nine, bump_lastDigits tail d, show (T + 1) % 10 = 0 by omega, show (T + 1) / 10 = T / 10 + 1 by omega,
          if_congr hdvd rfl rfl]
      · have hdvd : ¬ 10 ^ (d + 1) ∣ T + 1 := fun h => by
          have h10 : 10 ∣ T + 1 := (dvd_pow_self 10 (Nat.succ_ne_zero d)).trans h
          omega
        rw [bump_digit (by omega), if_neg hdvd, show (T + 1) % 10 = T % 10 + 1 by omega, show (T + 1) / 10 = T / 10 by omega]

/-- **One more in the last place** is the next text. -/
theorem bump_fixedText (d T : Nat) : bump (fixedText d T).reverse = (fixedText d (T + 1)).reverse := by
  cases d with
  | zero =>
    rw [fixedText, fixedText, if_pos rfl, if_pos rfl, List.append_nil, List.append_nil, Nat.pow_zero, Nat.div_one, Nat.div_one,
      reverse_numeral, reverse_numeral, bump_remainders]
  | succ d =>
    have hdiv : (T + 1) / 10 ^ (d + 1) = T / 10 ^ (d + 1) + if 10 ^ (d + 1) ∣ T + 1 then 1 else 0 := Nat.succ_div
    have hpoint : ∀ r : List (BitVec 8), bump (46#8 :: r) = 46#8 :: bump r := fun r => rfl
    rw [fixedText, fixedText, if_neg (Nat.succ_ne_zero d), if_neg (Nat.succ_ne_zero d), List.reverse_append, List.reverse_append,
      List.reverse_cons, List.reverse_cons, List.append_assoc, List.append_assoc, List.singleton_append, List.singleton_append,
      bump_lastDigits, hdiv, reverse_numeral, reverse_numeral, hpoint, bump_remainders]
    split
    · rfl
    · rfl

end

/-! ## Writing and rounding -/

section

open Aipl.Lib Aipl.Lib.Outcome Aipl.Lib.Numeral Aipl.StdBuf Aipl.StdBytes

variable {pre body out : Bytes} {fuel start n k F X : Nat} {strict : Bool} {a : Limbs}

theorem store8_end (out : Bytes) (v : Nat) : store8 out out.length v = done (out ++ [BitVec.ofNat 8 v]) := by
  rw [store8, if_neg (lt_irrefl _), if_pos rfl]
  rfl

theorem store8_mid (x : Bytes) (c : BitVec 8) (y : Bytes) (v : Nat) :
    store8 (x ++ c :: y) x.length v = done (x ++ BitVec.ofNat 8 v :: y) := by
  rw [store8, if_pos (by simp)]
  simp

theorem byteAt_mid (x : Bytes) (c : BitVec 8) (y : Bytes) : byteAt (x ++ c :: y) x.length = done c.toNat :=
  byteAt_eq (by simp)

/-- A store at a place in the text, or at its end. -/
theorem store8_next (x y : Bytes) (v : Nat) : store8 (x ++ (y.take 1 ++ y)) x.length v = done (x ++ BitVec.ofNat 8 v :: y) := by
  cases y with
  | nil =>
    rw [List.take_nil, List.append_nil, List.append_nil, store8_end]
  | cons c y => exact store8_mid x c (c :: y) v

/-! ### The integer digits -/

/-- The digits of `X` are those written after `pre`, and those of what is left of it. -/
def Making (pre : Bytes) (X : Nat) (s : Bool × Limbs × Bytes × Nat) : Prop :=
  ∃ v ds, Holds v s.2.1 ∧ s.2.2.1 = pre ++ ds ∧ s.2.2.2 = s.2.2.1.length ∧
    (remainders 10 X).map (digitText false) = ds ++ (left 10 s.1 v).map (digitText false)

theorem digitText_of_lt {d : Nat} (hd : d < 10) : digitText false d = BitVec.ofNat 8 (48 + d) := by
  rw [digitText, if_pos hd]

theorem digitRound_ends {s : Bool × Limbs × Bytes × Nat} (h : Making pre X s) :
    Ends (Sum.elim (fun s' => Making pre X s' ∧ s'.2.2.2 = s.2.2.2 + 1 ∧ s.2.2.2 < pre.length + (remainders 10 X).length)
      fun r => r.1 = pre ++ (remainders 10 X).map (digitText false) ∧ r.2 = r.1.length) (digitRound s) := by
  obtain ⟨first, whole, out, n⟩ := s
  obtain ⟨v, ds, hv, hout, hn, hdigits⟩ := h
  dsimp only at hv hout hn hdigits
  have hmore : (if first then pure true else do pure (!(← bigIsZero whole)) : Outcome Bool) =
      done (decide (first = true ∨ v ≠ 0)) := by
    cases first with
    | true => rfl
    | false =>
      rw [if_neg Bool.false_ne_true, bigIsZero_eq hv, done_bind]
      simp
  rw [digitRound]
  dsimp only
  rw [hmore, done_bind]
  by_cases hgo : first = true ∨ v ≠ 0
  · rw [decide_eq_true hgo, if_pos rfl]
    rw [left_eq_cons (by decide) hgo, List.map_cons] at hdigits
    refine ends_bind (bigDivmodSmall_holds hv (by decide) (by decide)) ?_
    rintro ⟨whole', d⟩ ⟨hwhole, hd⟩
    have h10 : (10#64).toNat = 10 := rfl
    rw [h10] at hwhole hd
    dsimp only at hwhole hd ⊢
    rw [hn, store8_end, done_bind, hd, ← digitText_of_lt (Nat.mod_lt v (by decide))]
    have hlen := congrArg List.length hdigits
    simp only [List.length_map, List.length_append, List.length_cons] at hlen
    refine ⟨⟨v / 10, ds ++ [digitText false (v % 10)], hwhole, by rw [hout, List.append_assoc], ?_, by rw [hdigits]; simp⟩,
      rfl, ?_⟩
    · simp
    · rw [hout, List.length_append]
      omega
  · obtain ⟨hf, hv0⟩ := not_or.mp hgo
    rw [decide_eq_false hgo, if_neg Bool.false_ne_true]
    rw [left_eq_nil (by simpa using hf) (not_not.mp hv0), List.map_nil, List.append_nil] at hdigits
    exact ⟨by rw [hout, hdigits], hn⟩

/-- A text is turned around from both ends. -/
theorem swaps_ends (pre body : Bytes) : Ends (fun out => out = pre ++ body.reverse)
    (foldAll (swapRound pre.length (pre ++ body).length) (pre ++ body) (List.range (body.length / 2))) := by
  refine (foldAll_range_ends (fun k out => ∃ l m r, body = l ++ (m ++ r) ∧ l.length = k ∧ r.length = k ∧
    out = pre ++ (r.reverse ++ (m ++ l.reverse))) ⟨[], body, [], by simp, rfl, rfl, by simp⟩ (body.length / 2) ?_).mono ?_
  · rintro k out hk ⟨l, m, r, hbody, hl, hr, rfl⟩
    have hlen := congrArg List.length hbody
    simp only [List.length_append] at hlen
    -- at least two bytes are left between the ends
    obtain ⟨c, m, rfl⟩ : ∃ c m', m = c :: m' := List.exists_cons_of_length_pos (by omega)
    rw [List.length_cons] at hlen
    obtain ⟨m, d, rfl⟩ : ∃ m' d, m = m' ++ [d] := by
      refine ⟨m.dropLast, m.getLast ?_, (List.dropLast_append_getLast _).symm⟩
      rintro rfl
      rw [List.length_nil] at hlen
      omega
    have hfirst : pre ++ (r.reverse ++ (c :: (m ++ [d]) ++ l.reverse)) =
        (pre ++ r.reverse) ++ c :: (m ++ d :: l.reverse) := by simp
    have hsecond : ∀ e : BitVec 8, (pre ++ r.reverse) ++ e :: (m ++ d :: l.reverse) =
        (pre ++ r.reverse ++ e :: m) ++ d :: l.reverse := fun e => by simp
    have ha : pre.length + k = (pre ++ r.reverse).length := by simp [hr]
    have hb : (pre ++ body).length - 1 - k = (pre ++ r.reverse ++ c :: m).length := by
      simp only [List.length_append, List.length_cons, List.length_nil, List.length_reverse] at hlen ⊢
      omega
    have hb' : (pre ++ r.reverse ++ c :: m).length = (pre ++ r.reverse ++ d :: m).length := by simp
    rw [swapRound, ha, hb, hfirst, byteAt_mid, done_bind, hsecond, byteAt_mid, done_bind, ← hsecond, store8_mid, done_bind, hb',
      BitVec.ofNat_toNat, BitVec.setWidth_eq, hsecond, store8_mid, BitVec.ofNat_toNat, BitVec.setWidth_eq]
    exact ⟨l ++ [c], m, d :: r, by rw [hbody]; simp, by simp [hl], by simp [hr], by simp⟩
  · rintro out ⟨l, m, r, hbody, hl, hr, rfl⟩
    have hlen := congrArg List.length hbody
    simp only [List.length_append] at hlen
    have hm : m.reverse = m := by
      rcases m with - | ⟨c, - | ⟨d, m⟩⟩
      · rfl
      · rfl
      · simp only [List.length_cons] at hlen
        omega
    rw [hbody, List.reverse_append, List.reverse_append, hm, List.append_assoc]

/-- **The integer digits** are written. -/
theorem putWhole_ends (h : Holds X a) (hfuel : (remainders 10 X).length < fuel) :
    Ends (fun r => r = (pre ++ numeral 10 false X, (pre ++ numeral 10 false X).length)) (putWhole fuel pre pre.length a) := by
  have hloop : Ends (fun r => r.1 = pre ++ (remainders 10 X).map (digitText false) ∧ r.2 = r.1.length)
      (iterate digitRound fuel (true, a, pre, pre.length)) := iterate_ends (Making pre X) _
    (fun s => pre.length + (remainders 10 X).length - s.2.2.2) (fun s hs => (digitRound_ends hs).mono fun r hr => by
      cases r with
      | inl s' => exact ⟨hr.1, by have := hr.2; omega⟩
      | inr r => exact hr) fuel (true, a, pre, pre.length)
    ⟨X, [], h, (List.append_nil _).symm, rfl, by rw [left_first, List.nil_append]⟩ (by dsimp only; omega)
  rw [putWhole]
  refine ends_bind hloop ?_
  rintro ⟨out, n⟩ ⟨hout, hn⟩
  dsimp only at hout hn ⊢
  subst hout hn
  have hhalf : ((pre ++ (remainders 10 X).map (digitText false)).length - pre.length) / 2 =
      ((remainders 10 X).map (digitText false)).length / 2 := by
    rw [List.length_append, Nat.add_sub_cancel_left]
  rw [hhalf]
  refine ends_bind (swaps_ends pre _) ?_
  rintro out rfl
  rw [pure_eq, ends_done, numeral_eq (by decide), List.length_append, List.length_append, List.length_reverse]

/-! ### The decimals -/

/-- The decimals of `F / 2 ^ k`, as far as they are written after `pre`. -/
def Decimals (pre : Bytes) (F k d : Nat) (s : Limbs × Bytes × Nat) : Prop :=
  Holds (F * 10 ^ d % 2 ^ k) s.1 ∧ s.2.1 = pre ++ lastDigits d (F * 10 ^ d / 2 ^ k) ∧ s.2.2 = s.2.1.length

/-- One more decimal. -/
theorem next_decimal (F k d : Nat) : F * 10 ^ (d + 1) / 2 ^ k = F * 10 ^ d / 2 ^ k * 10 + F * 10 ^ d % 2 ^ k * 10 / 2 ^ k ∧
    F * 10 ^ (d + 1) % 2 ^ k = F * 10 ^ d % 2 ^ k * 10 % 2 ^ k ∧ F * 10 ^ d % 2 ^ k * 10 / 2 ^ k < 10 := by
  have hpos := Nat.two_pow_pos k
  have hmul : F * 10 ^ (d + 1) = F * 10 ^ d % 2 ^ k * 10 + F * 10 ^ d / 2 ^ k * 10 * 2 ^ k := by
    rw [pow_succ, ← Nat.mul_assoc]
    conv_lhs => rw [← Nat.div_add_mod' (F * 10 ^ d) (2 ^ k)]
    ring
  refine ⟨by rw [hmul, Nat.add_mul_div_right _ _ hpos, Nat.add_comm], by rw [hmul, Nat.add_mul_mod_self_right], ?_⟩
  exact Nat.div_lt_of_lt_mul (Nat.mul_lt_mul_of_pos_right (Nat.mod_lt _ hpos) (by decide))

theorem lastDigits_snoc {q g : Nat} (hg : g < 10) (d : Nat) :
    lastDigits (d + 1) (q * 10 + g) = lastDigits d q ++ [BitVec.ofNat 8 (48 + g)] := by
  rw [lastDigits, show (q * 10 + g) / 10 = q by omega, show (q * 10 + g) % 10 = g by omega, digitText_of_lt hg]

theorem decimalRound_ends {d i : Nat} {s : Limbs × Bytes × Nat} (hk : k ≤ 1074) (h : Decimals pre F k d s) :
    Ends (Decimals pre F k (d + 1)) (decimalRound strict k s i) := by
  obtain ⟨frac, out, n⟩ := s
  obtain ⟨hfrac, hout, hn⟩ := h
  dsimp only at hfrac hout hn
  obtain ⟨hdiv, hmod, hdigit⟩ := next_decimal F k d
  rw [decimalRound]
  by_cases hk0 : k = 0
  · subst hk0
    rw [if_pos rfl, hn, store8_end, done_bind, pure_eq, ends_done]
    rw [Nat.pow_zero, Nat.mod_one] at hfrac hdiv
    refine ⟨by rw [Nat.pow_zero, Nat.mod_one]; exact hfrac, ?_, by simp⟩
    dsimp only
    rw [Nat.pow_zero, hdiv, Nat.zero_mul, Nat.zero_div, lastDigits_snoc (by decide), hout, Nat.pow_zero, List.append_assoc]
  · have hlt := Nat.mod_lt (F * 10 ^ d) (Nat.two_pow_pos k)
    have hsmall : F * 10 ^ d % 2 ^ k * 10 < 16 * 2 ^ k := by omega
    have hfit : F * 10 ^ d % 2 ^ k * 10 < limit := by
      refine hsmall.trans_le ?_
      rw [show 16 * 2 ^ k = 2 ^ (4 + k) by rw [pow_add]; rfl]
      exact Nat.pow_le_pow_right (by decide) (by rw [bigLimbs]; omega)
    rw [if_neg hk0]
    refine ends_bind (bigMulSmall_holds hfrac (by decide) hfit) fun frac' hfrac' => ?_
    have h10 : (10#64).toNat = 10 := rfl
    rw [h10] at hfrac'
    rw [bigDigitAt_eq hfrac' (by rw [bigLimbs]; omega) hsmall, done_bind, hn, store8_end, done_bind]
    refine ends_bind (bigMask_holds hfrac' k) fun frac'' hfrac'' => ?_
    refine ⟨by rw [hmod]; exact hfrac'', ?_, by simp⟩
    dsimp only
    rw [hdiv, lastDigits_snoc hdigit, hout, List.append_assoc]

/-- **The decimals** are written. -/
theorem decimals_ends (hk : k ≤ 1074) (hF : F < 2 ^ k) (h : Holds F a) (d : Nat) :
    Ends (Decimals pre F k d) (foldAll (decimalRound strict k) (a, pre, pre.length) (List.range d)) := by
  refine foldAll_range_ends (fun d => Decimals pre F k d) ⟨?_, ?_, rfl⟩ d fun i s _ hs => decimalRound_ends hk hs
  · rw [Nat.pow_zero, Nat.mul_one, Nat.mod_eq_of_lt hF]
    exact h
  · rw [lastDigits, List.append_nil]

/-! ### Rounding up -/

/-- The text from the end down to a place is done; above it one is added where one is carried. -/
def Carrying (pre r : Bytes) (s : Bytes × Nat × Bool) : Prop :=
  ∃ low high, s.1 = pre ++ (low ++ high).reverse ∧ s.2.1 = pre.length + high.length ∧ low.length + high.length = r.length ∧
    bump r = low ++ if s.2.2 then bump high else high

theorem carryRound_ends {r : Bytes} {s : Bytes × Nat × Bool} (h : Carrying pre r s) :
    Ends (Sum.elim (fun s' => Carrying pre r s' ∧ s'.2.1 < s.2.1)
      fun t => ∃ low, t.1 = pre ++ low.reverse ∧ low.length = r.length ∧ bump r = if t.2 then low ++ [49#8] else low)
      (carryRound pre.length s) := by
  obtain ⟨out, i, carry⟩ := s
  obtain ⟨low, high, hout, hi, hlen, hbump⟩ := h
  dsimp only at hout hi hbump
  rw [carryRound]
  dsimp only
  cases carry with
  | false =>
    rw [if_neg Bool.false_ne_true] at hbump
    rw [Bool.false_and, if_neg Bool.false_ne_true]
    exact ⟨low ++ high, hout, by rw [List.length_append, hlen], hbump⟩
  | true =>
    rw [if_pos rfl] at hbump
    cases high with
    | nil =>
      rw [Bool.true_and, decide_eq_false (by rw [hi, List.length_nil]; omega), if_neg Bool.false_ne_true]
      rw [List.append_nil] at hout
      exact ⟨low, hout, by simpa using hlen, hbump⟩
    | cons c high =>
      rw [List.length_cons] at hi hlen
      have hplace : i - 1 = (pre ++ high.reverse).length := by
        rw [List.length_append, List.length_reverse]
        omega
      have hat : out = (pre ++ high.reverse) ++ c :: low.reverse := by
        rw [hout]
        simp
      rw [Bool.true_and, decide_eq_true (by omega), if_pos rfl, hplace, hat, byteAt_mid, done_bind]
      by_cases hpoint : c = 46#8
      · subst hpoint
        rw [if_pos (show (46#8).toNat = 46 from rfl), pure_eq]
        refine ⟨⟨low ++ [46#8], high, by simp, by simp, by simp; omega, ?_⟩, by simp; omega⟩
        rw [hbump]
        simp [bump]
      rw [if_neg (by simpa [BitVec.toNat_eq] using hpoint)]
      by_cases hnine : c = 57#8
      · subst hnine
        rw [if_pos (show (57#8).toNat = 57 from rfl), store8_mid, done_bind, pure_eq]
        refine ⟨⟨low ++ [48#8], high, by simp, by simp, by simp; omega, ?_⟩, by simp; omega⟩
        rw [hbump]
        simp [bump]
      · rw [if_neg (by simpa [BitVec.toNat_eq] using hnine), store8_mid, done_bind, pure_eq]
        have hsucc : BitVec.ofNat 8 (c.toNat + 1) = c + 1#8 := by
          apply BitVec.eq_of_toNat_eq
          rw [BitVec.toNat_ofNat, BitVec.toNat_add]
          rfl
        refine ⟨⟨low ++ [c + 1#8], high, by simp [hsucc], by simp, by simp; omega, ?_⟩, by simp; omega⟩
        rw [hbump, bump, if_neg hpoint, if_neg hnine]
        simp

/-- The text is moved up by one. -/
theorem moves_ends (pre body : Bytes) : Ends (fun out => out = pre ++ (body.take 1 ++ body))
    (foldAll (moveRound (pre ++ body).length) (pre ++ body) (List.range body.length)) := by
  refine (foldAll_range_ends (fun j out => ∃ x y, body = x ++ y ∧ y.length = j ∧ out = pre ++ (x ++ (y.take 1 ++ y)))
    ⟨body, [], by simp, rfl, by simp⟩ body.length ?_).mono ?_
  · rintro j out hj ⟨x, y, hbody, hy, rfl⟩
    have hlen := congrArg List.length hbody
    rw [List.length_append] at hlen
    obtain ⟨x, c, rfl⟩ : ∃ x' c, x = x' ++ [c] := by
      refine ⟨x.dropLast, x.getLast ?_, (List.dropLast_append_getLast _).symm⟩
      rintro rfl
      rw [List.length_nil] at hlen
      omega
    rw [List.length_append, List.length_singleton] at hlen
    have hfrom : (pre ++ body).length - 1 - j = (pre ++ x).length := by
      rw [List.length_append, List.length_append]
      omega
    have hread : pre ++ (x ++ [c] ++ (y.take 1 ++ y)) = (pre ++ x) ++ c :: (y.take 1 ++ y) := by simp
    have hwrite : (pre ++ x) ++ c :: (y.take 1 ++ y) = (pre ++ x ++ [c]) ++ (y.take 1 ++ y) := by simp
    have hnext : (pre ++ x).length + 1 = (pre ++ x ++ [c]).length := by simp [Nat.add_assoc]
    rw [moveRound, hfrom, hread, byteAt_mid, done_bind, hwrite, hnext, store8_next,
      BitVec.ofNat_toNat, BitVec.setWidth_eq]
    exact ⟨x, c :: y, by rw [hbody]; simp, by simp [hy], by simp⟩
  · rintro out ⟨x, y, hbody, hy, rfl⟩
    have hx : x = [] := by
      have hlen := congrArg List.length hbody
      rw [List.length_append] at hlen
      exact List.eq_nil_of_length_eq_zero (by omega)
    subst hx
    rw [hbody, List.nil_append, List.nil_append]

/-- **One more in the last place**, on the text after `pre`. -/
theorem roundUp_ends (hfuel : pre.length + body.length < fuel) :
    Ends (fun r => r = (pre ++ (bump body.reverse).reverse, (pre ++ (bump body.reverse).reverse).length))
      (roundUp fuel (pre ++ body) pre.length (pre ++ body).length) := by
  have hloop := iterate_ends (Carrying pre body.reverse) _ (fun s => s.2.1) (fun s hs => carryRound_ends hs) fuel (pre ++ body, (pre ++ body).length, true)
    ⟨[], body.reverse, by simp, by simp, by simp, by simp⟩ (by dsimp only; rwa [List.length_append])
  rw [roundUp]
  refine ends_bind hloop ?_
  rintro ⟨out, carry⟩ ⟨low, hout, hlen, hbump⟩
  dsimp only at hout hbump ⊢
  rw [List.length_reverse] at hlen
  have hn : (pre ++ body).length = (pre ++ low.reverse).length := by
    rw [List.length_append, List.length_append, List.length_reverse, hlen]
  cases carry with
  | false =>
    rw [if_neg Bool.false_ne_true] at hbump ⊢
    rw [hbump, hout, hn]
    exact rfl
  | true =>
    rw [if_pos rfl] at hbump ⊢
    have hcount : (pre ++ body).length - pre.length = low.reverse.length := by
      rw [hn, List.length_append, Nat.add_sub_cancel_left]
    rw [hcount, hn, hout]
    refine ends_bind (moves_ends pre low.reverse) ?_
    rintro out rfl
    rw [store8_next, done_bind, hbump]
    simp [Nat.add_assoc]

end

end Aipl.StdFmt
