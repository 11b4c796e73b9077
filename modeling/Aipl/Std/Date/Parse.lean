import Aipl.Std.Date.Text

/-! # Reading dates

* `readField_meets`, `expect_meets`, `readFraction_meets`, `readOffset_meets` — the parts of a text.
* `parse_meets` — a date is read if and only if the text names it, and an error is within the text.
* `dates_as_text` — what is written is read back.
-/

namespace Aipl.StdDate

open Aipl.Lib Aipl.Lib.Outcome Aipl.Lib.Fallible Aipl.StdBuf Aipl.StdBytes
open Aipl.StdStr (IsDigit value)
open Aipl.Std (Allocator)

variable {t r rest rest' : List (BitVec 8)} {i n w : Nat} {v v' : Int} {c : BitVec 8} {fuel : Nat}

/-! ### The form is read one way -/

theorem Field.unique (h : Field w v t rest) (h' : Field w v' t rest') : v = v' ∧ rest = rest' := by
  obtain ⟨ds, rfl, hlen, -, rfl⟩ := h
  obtain ⟨ds', heq, hlen', -, rfl⟩ := h'
  obtain ⟨rfl, rfl⟩ := List.append_inj heq (by omega)
  exact ⟨rfl, rfl⟩

theorem Field.nonneg (h : Field w v t rest) : 0 ≤ v := by
  obtain ⟨ds, -, -, -, rfl⟩ := h
  exact Int.natCast_nonneg _

theorem Field.drop (h : Field w v (t.drop i) rest) : t.drop (i + w) = rest ∧ (0 < w → i + w ≤ t.length) := by
  obtain ⟨ds, heq, rfl, -, rfl⟩ := h
  refine ⟨?_, fun hpos => ?_⟩
  · rw [← List.drop_drop, heq, List.drop_left]
  · have hlen := congrArg List.length heq
    rw [List.length_drop, List.length_append] at hlen
    omega

theorem isDigit_iff_toNat : ¬ (c.toNat < 48 ∨ 57 < c.toNat) ↔ IsDigit c := by
  rw [IsDigit]
  omega

/-! ### Fields -/

theorem digitsLoop_ends (n : Nat) : ∀ (i : Nat) (pre : List (BitVec 8)), i + n ≤ t.length →
    Ends (fun v : Int => (∃ ds rest, t.drop i = ds ++ rest ∧ ds.length = n ∧ (∀ c ∈ ds, IsDigit c) ∧
        v = (value (pre ++ ds) : Int)) ∨
      (v = -1 ∧ ¬ ∃ ds rest, t.drop i = ds ++ rest ∧ ds.length = n ∧ ∀ c ∈ ds, IsDigit c))
      (digitsLoop t i n (value pre : Int)) := by
  induction n with
  | zero =>
    intro i pre _
    exact .inl ⟨[], t.drop i, rfl, rfl, by simp, by rw [List.append_nil]⟩
  | succ n ih =>
    intro i pre hle
    obtain ⟨c, rest, hdrop⟩ := exists_cons (show i < t.length by omega)
    rw [digitsLoop, byteAt_drop hdrop, done_bind]
    by_cases hc : c.toNat < 48 ∨ 57 < c.toNat
    · rw [if_pos hc]
      refine .inr ⟨rfl, ?_⟩
      rintro ⟨ds, rest', heq, hlen, hdigits⟩
      cases ds with
      | nil => cases hlen
      | cons c' ds =>
        rw [hdrop] at heq
        obtain ⟨rfl, -⟩ := List.cons.inj heq
        exact isDigit_iff_toNat.mpr (hdigits c List.mem_cons_self) hc
    · rw [if_neg hc]
      have hdigit := isDigit_iff_toNat.mp hc
      have hvalue : (value pre : Int) * 10 + (c.toNat - 48) = (value (pre ++ [c]) : Int) := by
        have hconcat : value (pre ++ [c]) = 10 * value pre + (c.toNat - 48) := by
          rw [value, List.map_append]
          exact Numeral.number_concat 10 _ _
        have h48 := hdigit.1
        rw [hconcat]
        omega
      rw [hvalue]
      refine (ih (i + 1) (pre ++ [c]) (by omega)).mono ?_
      rw [drop_succ hdrop]
      rintro v (⟨ds, rest', heq, hlen, hdigits, rfl⟩ | ⟨rfl, hnone⟩)
      · refine .inl ⟨c :: ds, rest', by rw [hdrop, heq]; rfl, by rw [List.length_cons, hlen], ?_, by
          rw [List.append_assoc]; rfl⟩
        intro x hx
        rcases List.mem_cons.mp hx with rfl | hx
        · exact hdigit
        · exact hdigits x hx
      · refine .inr ⟨rfl, ?_⟩
        rintro ⟨ds, rest', heq, hlen, hdigits⟩
        cases ds with
        | nil => cases hlen
        | cons c' ds =>
          rw [hdrop] at heq
          obtain ⟨rfl, htail⟩ := List.cons.inj heq
          exact hnone ⟨ds, rest', htail, Nat.succ.inj hlen, fun x hx => hdigits x (List.mem_cons_of_mem _ hx)⟩

theorem digits_ends (hi : i ≤ t.length) (n : Nat) :
    Ends (fun v => (∃ rest, Field n v (t.drop i) rest) ∨ (v = -1 ∧ ∀ v rest, ¬ Field n v (t.drop i) rest)) (digits t i n) := by
  rw [digits]
  by_cases hlen : t.length < i + n
  · rw [if_pos hlen]
    refine .inr ⟨rfl, ?_⟩
    rintro v rest ⟨ds, heq, rfl, -⟩
    have hdrop := congrArg List.length heq
    rw [List.length_drop, List.length_append] at hdrop
    omega
  · rw [if_neg hlen]
    refine (digitsLoop_ends n i [] (by omega)).mono ?_
    rintro v (⟨ds, rest, heq, hlen, hdigits, rfl⟩ | ⟨rfl, hnone⟩)
    · exact .inl ⟨rest, ds, heq, hlen, hdigits, rfl⟩
    · refine .inr ⟨rfl, ?_⟩
      rintro v rest ⟨ds, heq, hlen, hdigits, -⟩
      exact hnone ⟨ds, rest, heq, hlen, hdigits⟩

theorem byteIs_ends (t : List (BitVec 8)) (i : Nat) (c : BitVec 8) :
    Ends (fun b => b = true ↔ ∃ rest, t.drop i = c :: rest) (byteIs t i c.toNat) := by
  rw [byteIs]
  by_cases hlt : i < t.length
  · obtain ⟨x, rest, hdrop⟩ := exists_cons hlt
    rw [if_pos hlt, byteAt_drop hdrop, done_bind]
    refine decide_eq_true_iff.trans ⟨fun h => ⟨rest, ?_⟩, ?_⟩
    · rw [hdrop, BitVec.eq_of_toNat_eq h]
    · rintro ⟨rest', heq⟩
      rw [hdrop] at heq
      exact congrArg BitVec.toNat (List.cons.inj heq).1
  · rw [if_neg hlt]
    refine ⟨fun h => absurd h Bool.false_ne_true, ?_⟩
    rintro ⟨rest, heq⟩
    exact absurd (lt_of_drop heq) hlt

theorem badDigitLoop_ends (hi : i ≤ t.length) (n : Nat) : ∀ j, j ≤ t.length →
    Ends (fun k => k ≤ t.length) (badDigitLoop t i j n) := by
  induction n with
  | zero => exact fun _ _ => hi
  | succ n ih =>
    intro j hj
    rw [badDigitLoop]
    by_cases hge : t.length ≤ j
    · rw [if_pos hge]
      exact hj
    · obtain ⟨c, rest, hdrop⟩ := exists_cons (Nat.lt_of_not_le hge)
      rw [if_neg hge, byteAt_drop hdrop, done_bind]
      split_ifs
      · exact hj
      · exact ih (j + 1) (by omega)

variable {E : Nat → Prop} {bad : Int → Bool}

/-- **A field** of the text, or an error where there is none that is allowed. -/
theorem readField_meets (hi : i ≤ t.length) (hn : 0 < n) (hbad : bad (-1) = true)
    (hE : ∀ j ≤ t.length, (∀ v rest, Field n v (t.drop i) rest → bad v = true) → E j) :
    Meets E (fun v => bad v = false ∧ Field n v (t.drop i) (t.drop (i + n)) ∧ i + n ≤ t.length) (readField t i n bad) := by
  rw [readField]
  refine meets_bind (meets_lift (digits_ends hi n)) fun v hv => ?_
  cases hbv : bad v with
  | true =>
    refine meets_bind (meets_lift (badDigitLoop_ends hi n i hi)) fun j hj => ?_
    refine meets_throw (hE j hj fun v' rest hfield => ?_)
    rcases hv with ⟨rest', hfield'⟩ | ⟨-, hnone⟩
    · rw [(hfield.unique hfield').1, hbv]
    · exact absurd hfield (hnone v' rest)
  | false =>
    rcases hv with ⟨rest, hfield⟩ | ⟨rfl, -⟩
    · obtain ⟨hdrop, hle⟩ := hfield.drop
      exact ⟨hbv, hdrop ▸ hfield, hle hn⟩
    · rw [hbad] at hbv
      cases hbv

/-- **A byte** of the text. -/
theorem expect_meets (c : BitVec 8)
    (hE : ∀ j ≤ t.length, (∀ rest, t.drop i ≠ c :: rest) → E j) :
    Meets E (fun _ => t.drop i = c :: t.drop (i + 1) ∧ i + 1 ≤ t.length) (expect t i c.toNat) := by
  rw [expect]
  refine meets_bind (meets_lift (byteIs_ends t i c)) fun b hb => ?_
  cases b with
  | true =>
    obtain ⟨rest, hdrop⟩ := hb.mp rfl
    have hrest := drop_succ hdrop
    exact ⟨hrest ▸ hdrop, lt_of_drop hdrop⟩
  | false =>
    refine meets_throw (hE _ ?_ fun rest hdrop => Bool.false_ne_true (hb.mpr ⟨rest, hdrop⟩))
    rw [minAt]
    split_ifs <;> omega

/-! ### The fraction and the offset -/

/-- What is read of a fraction: the digits so far, and the number of the first nine. -/
structure Fractional (t : List (BitVec 8)) (start : Nat) (s : Nat × Int) : Prop where
  le : start ≤ s.1
  le_length : s.1 ≤ t.length
  digits : ∀ c ∈ (t.drop start).take (s.1 - start), IsDigit c
  eq : s.1 - start ≤ 9 → s.2 = (value ((t.drop start).take (s.1 - start)) : Int)

/-- The loop over the digits goes to the first byte that is none. -/
theorem fraction_ends {start : Nat} (hstart : start ≤ t.length) (hfuel : t.length < fuel) :
    Ends (fun s => Fractional t start s ∧ ∀ c rest, t.drop s.1 = c :: rest → ¬ IsDigit c)
      (iterate (fractionRound t start) fuel (start, 0)) := by
  refine iterate_ends (Fractional t start) _ (fun s => t.length - s.1) ?_ fuel _
    ⟨le_rfl, hstart, by simp, fun _ => by simp [value, Numeral.number]⟩ (by dsimp only; omega)
  rintro ⟨i, nano⟩ h
  obtain ⟨hle, hlen, hdigits, heq⟩ := id h
  dsimp only at hle hlen hdigits heq
  rw [fractionRound]
  by_cases hlt : i < t.length
  · obtain ⟨c, rest, hdrop⟩ := exists_cons hlt
    rw [if_pos hlt, byteAt_drop hdrop, done_bind]
    by_cases hc : 48 ≤ c.toNat ∧ c.toNat ≤ 57
    · rw [if_pos hc]
      have htake : (t.drop start).take (i + 1 - start) = (t.drop start).take (i - start) ++ [c] := by
        have hget : (t.drop start)[i - start]? = some c := by
          have hget' : (t.drop i)[0]? = some c := by rw [hdrop]; rfl
          rw [List.getElem?_drop, Nat.add_zero] at hget'
          rw [List.getElem?_drop, show start + (i - start) = i by omega, hget']
        rw [show i + 1 - start = i - start + 1 by omega, List.take_add_one, hget]
        rfl
      refine ⟨⟨by dsimp only; omega, hlt, ?_, fun h9 => ?_⟩, by dsimp only; omega⟩
      · dsimp only
        rw [htake]
        intro x hx
        rcases List.mem_append.mp hx with hx | hx
        · exact hdigits x hx
        · rw [List.mem_singleton.mp hx]
          exact hc
      · dsimp only at h9 ⊢
        have hconcat : value ((t.drop start).take (i - start) ++ [c]) =
            10 * value ((t.drop start).take (i - start)) + (c.toNat - 48) := by
          rw [value, List.map_append]
          exact Numeral.number_concat 10 _ _
        rw [if_pos (by omega), htake, hconcat, heq (by omega)]
        have h48 := hc.1
        omega
    · rw [if_neg hc]
      refine ⟨h, fun c' rest' hdrop' => ?_⟩
      rw [hdrop] at hdrop'
      obtain ⟨rfl, -⟩ := List.cons.inj hdrop'
      exact hc
  · rw [if_neg hlt]
    refine ⟨h, fun c rest hdrop => ?_⟩
    exact absurd (lt_of_drop hdrop) hlt

/-- An offset does not begin with a point or a digit. -/
theorem Offset.not_digit {off : Int} (h : Offset off (c :: rest)) : ¬ IsDigit c ∧ c ≠ 46#8 := by
  have hnot : ∀ c : BitVec 8, c = 90#8 ∨ c = 122#8 ∨ c = 43#8 ∨ c = 45#8 → ¬ IsDigit c ∧ c ≠ 46#8 := by
    rintro c (rfl | rfl | rfl | rfl) <;> exact ⟨by rw [IsDigit]; decide, by decide⟩
  refine hnot c ?_
  cases h with
  | zulu hc => exact hc.elim .inl fun hc => .inr (.inl hc)
  | ahead _ _ _ _ => exact .inr (.inr (.inl rfl))
  | behind _ _ _ _ => exact .inr (.inr (.inr rfl))

/-- **A fraction**, if there is one, and what follows it. -/
theorem readFraction_meets (hi : i ≤ t.length) (hfuel : t.length < fuel)
    (hE : ∀ j ≤ t.length, (∀ nano r off, Fraction nano (t.drop i) r → ¬ Offset off r) → E j) :
    Meets E (fun s => i ≤ s.1 ∧ s.1 ≤ t.length ∧ Fraction s.2 (t.drop i) (t.drop s.1) ∧ ∀ nano r off,
      Fraction nano (t.drop i) r → Offset off r → nano = s.2 ∧ r = t.drop s.1) (readFraction fuel t i) := by
  rw [readFraction]
  refine meets_bind (meets_lift (byteIs_ends t i 46#8)) fun b hb => ?_
  cases b with
  | false =>
    refine ⟨le_rfl, hi, .none, fun nano r off hf ho => ?_⟩
    have hnot : ∀ rest, t.drop i ≠ 46#8 :: rest := fun rest h => Bool.false_ne_true (hb.mpr ⟨rest, h⟩)
    generalize t.drop i = u at hf hnot
    cases hf with
    | none => exact ⟨rfl, rfl⟩
    | some _ _ _ => exact absurd rfl (hnot _)
  | true =>
    obtain ⟨u, hdrop⟩ := hb.mp rfl
    have hu := drop_succ hdrop
    have hlt := lt_of_drop hdrop
    refine meets_bind (meets_lift (fraction_ends (show i + 1 ≤ t.length from hlt) hfuel)) ?_
    rintro ⟨i', v⟩ ⟨⟨hle, hlen, hdigits, heq⟩, hend⟩
    dsimp only at hle hlen hdigits heq hend ⊢
    obtain ⟨ds, hds⟩ : ∃ ds, ds = (t.drop (i + 1)).take (i' - (i + 1)) := ⟨_, rfl⟩
    have hsplit : u = ds ++ t.drop i' := by
      rw [hds, ← hu]
      conv_lhs => rw [← List.take_append_drop (i' - (i + 1)) (t.drop (i + 1))]
      rw [List.drop_drop, Nat.add_sub_cancel' hle]
    have hdslen : ds.length = i' - (i + 1) := by
      rw [hds, List.length_take, List.length_drop]
      omega
    rw [← hds] at hdigits heq
    have hunique : ∀ nano r off, Fraction nano (t.drop i) r → Offset off r →
        1 ≤ ds.length ∧ ds.length ≤ 9 ∧ nano = ((value ds * 10 ^ (9 - ds.length) : Nat) : Int) ∧ r = t.drop i' := by
      intro nano r off hf ho
      rw [hdrop] at hf
      cases hf with
      | none => exact absurd rfl ho.not_digit.2
      | @some ds' _ hpos hle' hdigits' =>
        have hboth := cut_unique (P := fun c => ¬ IsDigit c) hsplit.symm (fun c hc => not_not_intro (hdigits c hc))
          (fun c hc => not_not_intro (hdigits' c hc)) hend fun c rest h => (h ▸ ho : Offset off (c :: rest)).not_digit.1
        obtain ⟨rfl, rfl⟩ := hboth
        exact ⟨hpos, hle', rfl, rfl⟩
    by_cases hbad : i' = i + 1 ∨ 9 < i' - (i + 1)
    · rw [if_pos hbad]
      refine meets_throw (hE _ ?_ fun nano r off hf ho => ?_)
      · split_ifs
        · rw [minAt]
          split_ifs <;> omega
        · omega
      · have h := hunique nano r off hf ho
        omega
    · rw [if_neg hbad]
      have hnano : (List.range' (i' - (i + 1)) (9 - (i' - (i + 1)))).foldl (fun v _ => v * 10) v
          = ((value ds * 10 ^ (9 - ds.length) : Nat) : Int) := by
        rw [foldl_ten, List.length_range', heq (by omega), hdslen]
        push_cast
        rfl
      refine meets_pure ⟨by dsimp only; omega, hlen, ?_, fun nano r off hf ho => ?_⟩
      · dsimp only
        rw [hnano, hdrop, hsplit]
        exact .some (by omega) (by omega) hdigits
      · have h := hunique nano r off hf ho
        exact ⟨h.2.2.1.trans hnano.symm, h.2.2.2⟩

/-- An offset that begins with a sign. -/
theorem offset_signed_iff {off : Int} (hc : c = 43#8 ∨ c = 45#8) : Offset off (c :: r) ↔
    ∃ oh om r', Field 2 oh r (58#8 :: r') ∧ oh ≤ 23 ∧ Field 2 om r' [] ∧ om ≤ 59 ∧
      off = (if c = 43#8 then 1 else -1) * (oh * 60 + om) := by
  constructor
  · intro h
    cases h with
    | zulu hz => rcases hc with rfl | rfl <;> exact absurd hz (by decide)
    | @ahead oh om _ r' hoh hh hom hm => exact ⟨oh, om, r', hoh, hh, hom, hm, by rw [if_pos rfl, Int.one_mul]⟩
    | @behind oh om _ r' hoh hh hom hm =>
      exact ⟨oh, om, r', hoh, hh, hom, hm, by rw [if_neg (by decide), Int.neg_one_mul]⟩
  · rintro ⟨oh, om, r', hoh, hh, hom, hm, rfl⟩
    rcases hc with rfl | rfl
    · rw [if_pos rfl, Int.one_mul]
      exact .ahead hoh hh hom hm
    · rw [if_neg (by decide), Int.neg_one_mul]
      exact .behind hoh hh hom hm

theorem offset_zulu_iff {off : Int} (hc : c = 90#8 ∨ c = 122#8) : Offset off (c :: r) ↔ r = [] ∧ off = 0 := by
  constructor
  · intro h
    cases h with
    | zulu _ => exact ⟨rfl, rfl⟩
    | ahead _ _ _ _ => exact absurd hc (by decide)
    | behind _ _ _ _ => exact absurd hc (by decide)
  · rintro ⟨rfl, rfl⟩
    exact .zulu hc

theorem length_of_drop_nil (hi : i ≤ t.length) : t.drop i = [] ↔ i = t.length := by
  rw [List.drop_eq_nil_iff]
  omega

/-- **An offset**, and where it ends: only where the text does is it one. -/
theorem readOffset_meets (hi : i ≤ t.length)
    (hE : ∀ j ≤ t.length, (∀ off, ¬ Offset off (t.drop i)) → E j) :
    Meets E (fun s => s.1 ≤ t.length ∧ ∀ off, Offset off (t.drop i) ↔ s.1 = t.length ∧ off = s.2) (readOffset t i) := by
  rw [readOffset]
  refine meets_bind (meets_lift (byteIs_ends t i 90#8)) fun b₁ hb₁ => ?_
  refine meets_bind (meets_lift (byteIs_ends t i 122#8)) fun b₂ hb₂ => ?_
  by_cases hz : (b₁ || b₂) = true
  · rw [if_pos hz]
    obtain ⟨c, hc, hdrop⟩ : ∃ c, (c = 90#8 ∨ c = 122#8) ∧ ∃ rest, t.drop i = c :: rest := by
      rcases Bool.or_eq_true_iff.mp hz with h | h
      · exact ⟨_, .inl rfl, hb₁.mp h⟩
      · exact ⟨_, .inr rfl, hb₂.mp h⟩
    obtain ⟨rest, hdrop⟩ := hdrop
    have hlt := lt_of_drop hdrop
    refine meets_pure ⟨hlt, fun off => ?_⟩
    rw [hdrop, offset_zulu_iff hc, ← drop_succ hdrop, length_of_drop_nil hlt]
  · rw [if_neg hz]
    refine meets_bind (meets_lift (byteIs_ends t i 43#8)) fun b₃ hb₃ => ?_
    refine meets_bind (meets_lift (byteIs_ends t i 45#8)) fun b₄ hb₄ => ?_
    by_cases hs : (b₃ || b₄) = true
    · rw [if_pos hs]
      refine meets_bind (meets_lift (byteIs_ends t i 43#8)) fun b₅ hb₅ => ?_
      obtain ⟨c, hc, hdrop, hsign⟩ : ∃ c, (c = 43#8 ∨ c = 45#8) ∧ (∃ rest, t.drop i = c :: rest) ∧
          (if b₅ = true then (1 : Int) else -1) = if c = 43#8 then 1 else -1 := by
        cases b₅ with
        | true => exact ⟨_, .inl rfl, hb₅.mp rfl, rfl⟩
        | false =>
          rcases Bool.or_eq_true_iff.mp hs with h | h
          · exact absurd (hb₅.mpr (hb₃.mp h)) Bool.false_ne_true
          · exact ⟨_, .inr rfl, hb₄.mp h, rfl⟩
      obtain ⟨rest, hdrop⟩ := hdrop
      have hlt := lt_of_drop hdrop
      have hrest := drop_succ hdrop
      refine meets_bind (readField_meets hlt (by decide) (by decide) fun j hj hnone => hE j hj fun off ho => ?_) ?_
      · rw [hdrop, offset_signed_iff hc, ← hrest] at ho
        obtain ⟨oh, om, r', hoh, hh, -⟩ := ho
        have hoh0 := hoh.nonneg
        have hbad := of_decide_eq_true (hnone _ _ hoh)
        omega
      rintro oh ⟨hoh_ok, hoh, hle⟩
      have hoh_range := of_decide_eq_false hoh_ok
      refine meets_bind (expect_meets 58#8 fun j hj hnone => hE j hj fun off ho => ?_) ?_
      · rw [hdrop, offset_signed_iff hc, ← hrest] at ho
        obtain ⟨oh', om, r', hoh', -⟩ := ho
        exact hnone _ (hoh.unique hoh').2
      rintro - ⟨hcolon, hle'⟩
      refine meets_bind (readField_meets hle' (by decide) (by decide) fun j hj hnone => hE j hj fun off ho => ?_) ?_
      · rw [hdrop, offset_signed_iff hc, ← hrest] at ho
        obtain ⟨oh', om, r', hoh', -, hom, hm, -⟩ := ho
        have heq := (hoh.unique hoh').2
        rw [hcolon] at heq
        obtain ⟨-, rfl⟩ := List.cons.inj heq
        have hom0 := hom.nonneg
        have hbad := of_decide_eq_true (hnone _ _ hom)
        omega
      rintro om ⟨hom_ok, hom, hle''⟩
      have hom_range := of_decide_eq_false hom_ok
      refine meets_pure ⟨hle'', fun off => ?_⟩
      rw [hdrop, offset_signed_iff hc, ← hrest]
      constructor
      · rintro ⟨oh', om', r', hoh', -, hom', -, rfl⟩
        obtain ⟨rfl, heq⟩ := hoh.unique hoh'
        rw [hcolon] at heq
        obtain ⟨-, rfl⟩ := List.cons.inj heq
        obtain ⟨rfl, hnil⟩ := hom.unique hom'
        exact ⟨(length_of_drop_nil hle'').mp hnil, by rw [hsign]⟩
      · rintro ⟨hend, rfl⟩
        rw [(length_of_drop_nil hle'').mpr hend] at hom
        exact ⟨oh, om, _, hcolon ▸ hoh, by omega, hom, by omega, by rw [hsign]⟩
    · rw [if_neg hs]
      refine meets_throw (hE _ ?_ fun off ho => ?_)
      · rw [minAt]
        split_ifs <;> omega
      · generalize hu : t.drop i = u at ho
        cases ho with
        | zulu hc =>
          rcases hc with rfl | rfl
          · exact hz (by rw [hb₁.mpr ⟨_, hu⟩]; rfl)
          · exact hz (by rw [hb₂.mpr ⟨_, hu⟩, Bool.or_true])
        | ahead _ _ _ _ => exact hs (by rw [hb₃.mpr ⟨_, hu⟩]; rfl)
        | behind _ _ _ _ => exact hs (by rw [hb₄.mpr ⟨_, hu⟩, Bool.or_true])

/-! ### The whole text -/

/-- A valid date is found by its instant. -/
theorem Date.Valid.eq_of_toUnix {d d' : Date} (h : d.Valid) (h' : d'.Valid) (hunix : toUnix d = toUnix d')
    (hnano : d.nano = d'.nano) : d = d' := by
  have hd := fromUnixParts_toUnix h
  rw [hunix, hnano, fromUnixParts_toUnix h'] at hd
  injection hd with hd
  exact hd.symm

/-- The date of the text has been read. -/
structure DateRead (t : List (BitVec 8)) (year month day : Int) : Prop where
  field_year : Field 4 year t (t.drop 4)
  dash : t.drop 4 = 45#8 :: t.drop 5
  field_month : Field 2 month (t.drop 5) (t.drop 7)
  dash' : t.drop 7 = 45#8 :: t.drop 8
  field_day : Field 2 day (t.drop 8) (t.drop 10)
  le : 10 ≤ t.length
  civil : Civil year month day

/-- The time of day has been read, to the second. -/
structure TimeRead (t : List (BitVec 8)) (hour minute second : Int) : Prop where
  field_hour : Field 2 hour (t.drop 11) (t.drop 13)
  colon : t.drop 13 = 58#8 :: t.drop 14
  field_minute : Field 2 minute (t.drop 14) (t.drop 16)
  colon' : t.drop 16 = 58#8 :: t.drop 17
  field_second : Field 2 second (t.drop 17) (t.drop 19)
  hour_le : hour ≤ 23
  minute_le : minute ≤ 59
  second_le : second ≤ 59

variable {year month day hour minute second off : Int} {d : Date}

theorem DateRead.text_iff (h : DateRead t year month day) : Text d off t ↔
    (d.year = year ∧ d.month = month ∧ d.day = day) ∧
      ((t.drop 10 = [] ∧ (d.hour = 0 ∧ d.minute = 0 ∧ d.second = 0 ∧ d.nano = 0) ∧ off = 0) ∨
        ∃ sep r, t.drop 10 = sep :: r ∧ (sep = 84#8 ∨ sep = 116#8 ∨ sep = 32#8) ∧ Clock d off r) := by
  constructor
  · rintro ⟨r₁, r₂, r₃, hy, hm, hd, hrest⟩
    obtain ⟨hyear, heq⟩ := hy.unique h.field_year
    rw [h.dash] at heq
    obtain ⟨-, rfl⟩ := List.cons.inj heq
    obtain ⟨hmonth, heq'⟩ := hm.unique h.field_month
    rw [h.dash'] at heq'
    obtain ⟨-, rfl⟩ := List.cons.inj heq'
    obtain ⟨hday, rfl⟩ := hd.unique h.field_day
    exact ⟨⟨hyear, hmonth, hday⟩, hrest⟩
  · rintro ⟨⟨rfl, rfl, rfl⟩, hrest⟩
    exact ⟨_, _, _, h.dash ▸ h.field_year, h.dash' ▸ h.field_month, h.field_day, hrest⟩

theorem TimeRead.clock_iff (h : TimeRead t hour minute second) : Clock d off (t.drop 11) ↔
    (d.hour = hour ∧ d.minute = minute ∧ d.second = second) ∧
      ∃ r, Fraction d.nano (t.drop 19) r ∧ Offset off r := by
  constructor
  · rintro ⟨r₁, r₂, r₃, r₄, hh, hm, hs, hf, ho⟩
    obtain ⟨hhour, heq⟩ := hh.unique h.field_hour
    rw [h.colon] at heq
    obtain ⟨-, rfl⟩ := List.cons.inj heq
    obtain ⟨hminute, heq'⟩ := hm.unique h.field_minute
    rw [h.colon'] at heq'
    obtain ⟨-, rfl⟩ := List.cons.inj heq'
    obtain ⟨hsecond, rfl⟩ := hs.unique h.field_second
    exact ⟨⟨hhour, hminute, hsecond⟩, _, hf, ho⟩
  · rintro ⟨⟨rfl, rfl, rfl⟩, r, hf, ho⟩
    exact ⟨_, _, _, _, h.colon ▸ h.field_hour, h.colon' ▸ h.field_minute, h.field_second, hf, ho⟩

/-- Where the error is, and that no date is named. -/
def NoDate (t : List (BitVec 8)) (j : Nat) : Prop := j ≤ t.length ∧ ∀ d, ¬ Names t d

/-- The one date that is named. -/
def TheDate (t : List (BitVec 8)) (d : Date) : Prop := Names t d ∧ ∀ d', Names t d' → d' = d

/-- A time of day that is named is after a separator. -/
theorem DateRead.clock_of_names (h : DateRead t year month day) (hlong : t.length ≠ 10) (hn : Names t d) :
    ∃ w off sep r, (w.year = year ∧ w.month = month ∧ w.day = day) ∧ t.drop 10 = sep :: r ∧
      (sep = 84#8 ∨ sep = 116#8 ∨ sep = 32#8) ∧ Clock w off r ∧ w.Valid ∧ d.Valid ∧
      toUnix d = toUnix w - off * 60 ∧ d.nano = w.nano := by
  obtain ⟨w, off, htext, hw, hd, hunix, hnano⟩ := hn
  obtain ⟨hdate, hnil | ⟨sep, r, hdrop, hsep, hclock⟩⟩ := h.text_iff.mp htext
  · exact absurd ((length_of_drop_nil h.le).mp hnil.1).symm hlong
  · exact ⟨w, off, sep, r, hdate, hdrop, hsep, hclock, hw, hd, hunix, hnano⟩

theorem sep_ends (t : List (BitVec 8)) :
    Ends (fun b => b = true ↔ ∃ c rest, (c = 84#8 ∨ c = 116#8 ∨ c = 32#8) ∧ t.drop 10 = c :: rest) (do
      if ← byteIs t 10 84 then pure true
      else if ← byteIs t 10 116 then pure true
      else byteIs t 10 32) := by
  refine ends_bind (byteIs_ends t 10 84#8) fun b₁ hb₁ => ?_
  cases b₁ with
  | true =>
    obtain ⟨rest, hdrop⟩ := hb₁.mp rfl
    exact ⟨fun _ => ⟨_, rest, .inl rfl, hdrop⟩, fun _ => rfl⟩
  | false =>
    refine ends_bind (byteIs_ends t 10 116#8) fun b₂ hb₂ => ?_
    cases b₂ with
    | true =>
      obtain ⟨rest, hdrop⟩ := hb₂.mp rfl
      exact ⟨fun _ => ⟨_, rest, .inr (.inl rfl), hdrop⟩, fun _ => rfl⟩
    | false =>
      refine (byteIs_ends t 10 32#8).mono fun b₃ hb₃ => hb₃.trans ⟨?_, ?_⟩
      · rintro ⟨rest, hdrop⟩
        exact ⟨_, rest, .inr (.inr rfl), hdrop⟩
      · rintro ⟨c, rest, rfl | rfl | rfl, hdrop⟩
        · exact absurd (hb₁.mpr ⟨rest, hdrop⟩) Bool.false_ne_true
        · exact absurd (hb₂.mpr ⟨rest, hdrop⟩) Bool.false_ne_true
        · exact ⟨rest, hdrop⟩

theorem value_lt : ∀ ds : List (BitVec 8), (∀ c ∈ ds, IsDigit c) → value ds < 10 ^ ds.length
  | [], _ => by simp [value, Numeral.number]
  | c :: ds, h => by
    have hlt := value_lt ds fun x hx => h x (List.mem_cons_of_mem _ hx)
    have hc := (h c List.mem_cons_self).2
    have hle : (c.toNat - 48) * 10 ^ ds.length ≤ 9 * 10 ^ ds.length := Nat.mul_le_mul_right _ (by omega)
    rw [value_cons, List.length_cons, Nat.pow_succ]
    omega

theorem Fraction.bounds {nano : Int} (h : Fraction nano t r) : 0 ≤ nano ∧ nano ≤ 999999999 := by
  cases h with
  | none => decide
  | @some ds _ _ hle hdigits =>
    have hlt : value ds * 10 ^ (9 - ds.length) < 10 ^ ds.length * 10 ^ (9 - ds.length) :=
      Nat.mul_lt_mul_of_pos_right (value_lt ds hdigits) (Nat.pow_pos (by decide))
    rw [← Nat.pow_add, Nat.add_sub_cancel' hle] at hlt
    omega

/-- A field of the time of day: an error where none is allowed. -/
theorem readTime_meets (h : DateRead t year month day) (hlong : t.length ≠ 10) (hfuel : t.length < fuel) :
    Meets (NoDate t) (TheDate t) (readTime fuel t year month day) := by
  have hle := h.le
  rw [readTime]
  refine meets_bind (meets_lift (sep_ends t)) fun b hb => ?_
  cases b with
  | false =>
    refine meets_throw ⟨hle, fun d hn => ?_⟩
    obtain ⟨w, off, sep, r, -, hdrop, hsep, -⟩ := h.clock_of_names hlong hn
    exact Bool.false_ne_true (hb.mpr ⟨sep, r, hsep, hdrop⟩)
  | true =>
    obtain ⟨sep, rest, hsep, hdrop⟩ := hb.mp rfl
    have hrest : t.drop 11 = rest := drop_succ hdrop
    have hlt := lt_of_drop hdrop
    -- what a date that is named has in the places read so far
    have hclock : ∀ d, Names t d → ∃ w off, (w.year = year ∧ w.month = month ∧ w.day = day) ∧
        Clock w off (t.drop 11) ∧ w.Valid ∧ d.Valid ∧ toUnix d = toUnix w - off * 60 ∧ d.nano = w.nano := by
      intro d hn
      obtain ⟨w, off, sep', r, hdate, hdrop', -, hclock, hw, hd, hunix, hnano⟩ := h.clock_of_names hlong hn
      rw [hdrop] at hdrop'
      obtain ⟨-, rfl⟩ := List.cons.inj hdrop'
      exact ⟨w, off, hdate, hrest ▸ hclock, hw, hd, hunix, hnano⟩
    refine meets_bind (readField_meets hlt (by decide) (by decide) fun j hj hnone => ⟨hj, fun d hn => ?_⟩) ?_
    · obtain ⟨w, off, -, ⟨r₁, r₂, r₃, r₄, hh, -⟩, hw, -⟩ := hclock d hn
      have hbad := of_decide_eq_true (hnone _ _ hh)
      have hrange := hw.hour
      omega
    rintro hour ⟨hhour_ok, hhour, hle₁₃⟩
    have hhour_range := of_decide_eq_false hhour_ok
    refine meets_bind (expect_meets 58#8 fun j hj hnone => ⟨hj, fun d hn => ?_⟩) ?_
    · obtain ⟨w, off, -, ⟨r₁, r₂, r₃, r₄, hh, -⟩, -⟩ := hclock d hn
      exact hnone _ (hhour.unique hh).2
    rintro - ⟨hcolon, hle₁₄⟩
    refine meets_bind (readField_meets hle₁₄ (by decide) (by decide) fun j hj hnone => ⟨hj, fun d hn => ?_⟩) ?_
    · obtain ⟨w, off, -, ⟨r₁, r₂, r₃, r₄, hh, hm, -⟩, hw, -⟩ := hclock d hn
      have heq := (hhour.unique hh).2
      rw [hcolon] at heq
      obtain ⟨-, rfl⟩ := List.cons.inj heq
      have hbad := of_decide_eq_true (hnone _ _ hm)
      have hrange := hw.minute
      omega
    rintro minute ⟨hminute_ok, hminute, hle₁₆⟩
    have hminute_range := of_decide_eq_false hminute_ok
    refine meets_bind (expect_meets 58#8 fun j hj hnone => ⟨hj, fun d hn => ?_⟩) ?_
    · obtain ⟨w, off, -, ⟨r₁, r₂, r₃, r₄, hh, hm, -⟩, -⟩ := hclock d hn
      have heq := (hhour.unique hh).2
      rw [hcolon] at heq
      obtain ⟨-, rfl⟩ := List.cons.inj heq
      exact hnone _ (hminute.unique hm).2
    rintro - ⟨hcolon', hle₁₇⟩
    refine meets_bind (readField_meets hle₁₇ (by decide) (by decide) fun j hj hnone => ⟨hj, fun d hn => ?_⟩) ?_
    · obtain ⟨w, off, -, ⟨r₁, r₂, r₃, r₄, hh, hm, hs, -⟩, hw, -⟩ := hclock d hn
      have heq := (hhour.unique hh).2
      rw [hcolon] at heq
      obtain ⟨-, rfl⟩ := List.cons.inj heq
      have heq' := (hminute.unique hm).2
      rw [hcolon'] at heq'
      obtain ⟨-, rfl⟩ := List.cons.inj heq'
      have hbad := of_decide_eq_true (hnone _ _ hs)
      have hrange := hw.second
      omega
    rintro second ⟨hsecond_ok, hsecond, hle₁₉⟩
    have hsecond_range := of_decide_eq_false hsecond_ok
    have htime : TimeRead t hour minute second :=
      ⟨hhour, hcolon, hminute, hcolon', hsecond, by omega, by omega, by omega⟩
    refine meets_bind (readFraction_meets hle₁₉ hfuel fun j hj hnone => ⟨hj, fun d hn => ?_⟩) ?_
    · obtain ⟨w, off, -, hclock', -⟩ := hclock d hn
      obtain ⟨-, r, hf, ho⟩ := htime.clock_iff.mp hclock'
      exact hnone _ _ _ hf ho
    rintro ⟨i, nano⟩ ⟨-, hi, hfrac, hfrac_unique⟩
    dsimp only at hi hfrac hfrac_unique ⊢
    refine meets_bind (readOffset_meets hi fun j hj hnone => ⟨hj, fun d hn => ?_⟩) ?_
    · obtain ⟨w, off, -, hclock', -⟩ := hclock d hn
      obtain ⟨-, r, hf, ho⟩ := htime.clock_iff.mp hclock'
      obtain ⟨-, rfl⟩ := hfrac_unique _ _ _ hf ho
      exact hnone _ ho
    rintro ⟨e, off⟩ ⟨he, hoff⟩
    dsimp only at he hoff ⊢
    by_cases hend : e = t.length
    · rw [if_neg (not_not_intro hend)]
      have hoffset := (hoff off).mpr ⟨hend, rfl⟩
      -- what is named is the instant that has been read
      have hinstant : ∀ d, Names t d → toUnix d = toUnix ⟨year, month, day, hour, minute, second, 0⟩ - off * 60 ∧
          d.nano = nano ∧ d.Valid := by
        intro d hn
        obtain ⟨w, off', ⟨hy, hm, hd⟩, hclock', hw, hvalid, hunix, hnano⟩ := hclock d hn
        obtain ⟨⟨hh, hmin, hs⟩, r, hf, ho⟩ := htime.clock_iff.mp hclock'
        obtain ⟨hnano', rfl⟩ := hfrac_unique _ _ _ hf ho
        obtain ⟨-, rfl⟩ := (hoff off').mp ho
        subst hy hm hd hh hmin hs
        exact ⟨hunix, hnano.trans hnano', hvalid⟩
      by_cases hrange : toUnix ⟨year, month, day, hour, minute, second, 0⟩ - off * 60 < FIRST ∨
          END ≤ toUnix ⟨year, month, day, hour, minute, second, 0⟩ - off * 60
      · rw [if_pos hrange]
        refine meets_throw ⟨by omega, fun d hn => ?_⟩
        obtain ⟨hunix, -, hvalid⟩ := hinstant d hn
        have hbounds := hvalid.toUnix_bounds
        omega
      · rw [if_neg hrange]
        have hnano := hfrac.bounds
        refine meets_lift ((fromUnixParts_ends (by omega) (by omega) hnano.1 hnano.2).mono ?_)
        rintro d ⟨hvalid, hunix, hdnano⟩
        refine ⟨⟨⟨year, month, day, hour, minute, second, nano⟩, off, ?_, ⟨h.civil, ?_, ?_, ?_, hnano⟩, hvalid, hunix, hdnano⟩,
          fun d' hn => ?_⟩
        · exact h.text_iff.mpr ⟨⟨rfl, rfl, rfl⟩, .inr ⟨sep, _, hdrop, hsep, hrest ▸
            htime.clock_iff.mpr ⟨⟨rfl, rfl, rfl⟩, _, hfrac, hoffset⟩⟩⟩
        · exact ⟨hhour.nonneg, htime.hour_le⟩
        · exact ⟨hminute.nonneg, htime.minute_le⟩
        · exact ⟨hsecond.nonneg, htime.second_le⟩
        · obtain ⟨hunix', hnano', hvalid'⟩ := hinstant d' hn
          exact hvalid'.eq_of_toUnix hvalid (hunix'.trans hunix.symm) (hnano'.trans hdnano.symm)
    · rw [if_pos hend]
      refine meets_throw ⟨he, fun d hn => ?_⟩
      obtain ⟨w, off', -, hclock', -⟩ := hclock d hn
      obtain ⟨-, r, hf, ho⟩ := htime.clock_iff.mp hclock'
      obtain ⟨-, rfl⟩ := hfrac_unique _ _ _ hf ho
      exact hend ((hoff off').mp ho).1

theorem daysInMonth_ends (hm : 1 ≤ month ∧ month ≤ 12) :
    Ends (fun len => len = monthLength year month) (daysInMonth year month) := by
  rw [daysInMonth, require, if_pos (decide_eq_true hm)]
  rfl

/-- **Reading a text.**  The date that it names is read; where it names none, the error is a place in it. -/
theorem parse_meets (t : List (BitVec 8)) (hfuel : t.length < fuel) :
    Meets (NoDate t) (TheDate t) (parse fuel t) := by
  rw [parse]
  refine meets_bind (readField_meets (Nat.zero_le _) (by decide) (by decide) fun j hj hnone => ⟨hj, fun d hn => ?_⟩) ?_
  · obtain ⟨w, off, ⟨r₁, r₂, r₃, hy, -⟩, -⟩ := hn
    have hbad := of_decide_eq_true (hnone _ _ hy)
    have hnonneg := hy.nonneg
    omega
  rintro year ⟨hyear_ok, hyear, hle₄⟩
  refine meets_bind (expect_meets 45#8 fun j hj hnone => ⟨hj, fun d hn => ?_⟩) ?_
  · obtain ⟨w, off, ⟨r₁, r₂, r₃, hy, -⟩, -⟩ := hn
    exact hnone _ (hyear.unique hy).2
  rintro - ⟨hdash, hle₅⟩
  refine meets_bind (readField_meets hle₅ (by decide) (by decide) fun j hj hnone => ⟨hj, fun d hn => ?_⟩) ?_
  · obtain ⟨w, off, ⟨r₁, r₂, r₃, hy, hm, -⟩, hw, -⟩ := hn
    have heq := (hyear.unique hy).2
    rw [hdash] at heq
    obtain ⟨-, rfl⟩ := List.cons.inj heq
    have hbad := of_decide_eq_true (hnone _ _ hm)
    have hpos := hw.civil.month_pos
    have hle := hw.civil.month_le
    omega
  rintro month ⟨hmonth_ok, hmonth, hle₇⟩
  have hmonth_range := of_decide_eq_false hmonth_ok
  refine meets_bind (expect_meets 45#8 fun j hj hnone => ⟨hj, fun d hn => ?_⟩) ?_
  · obtain ⟨w, off, ⟨r₁, r₂, r₃, hy, hm, -⟩, -⟩ := hn
    have heq := (hyear.unique hy).2
    rw [hdash] at heq
    obtain ⟨-, rfl⟩ := List.cons.inj heq
    exact hnone _ (hmonth.unique hm).2
  rintro - ⟨hdash', hle₈⟩
  have hmonthLength : Ends (fun len => len = monthLength year month) (daysInMonth year month) := daysInMonth_ends (by omega)
  refine meets_bind (meets_lift hmonthLength) ?_
  rintro _ rfl
  have hday_of : ∀ d, Names t d → ∃ w off r₃, d.Valid ∧ Field 2 w.day (t.drop 8) r₃ ∧ w.year = year ∧ w.month = month ∧
      w.Valid ∧ toUnix d = toUnix w - off * 60 ∧ d.nano = w.nano := by
    rintro d ⟨w, off, ⟨r₁, r₂, r₃, hy, hm, hd, -⟩, hw, hvalid, hunix, hnano⟩
    obtain ⟨hyear', heq⟩ := hyear.unique hy
    rw [hdash] at heq
    obtain ⟨-, rfl⟩ := List.cons.inj heq
    obtain ⟨hmonth', heq'⟩ := hmonth.unique hm
    rw [hdash'] at heq'
    obtain ⟨-, rfl⟩ := List.cons.inj heq'
    exact ⟨w, off, r₃, hvalid, hd, hyear'.symm, hmonth'.symm, hw, hunix, hnano⟩
  refine meets_bind (readField_meets hle₈ (by decide) (by simp) fun j hj hnone => ⟨hj, fun d hn => ?_⟩) ?_
  · obtain ⟨w, off, r₃, -, hd, rfl, rfl, hw, -⟩ := hday_of d hn
    have hbad := of_decide_eq_true (hnone _ _ hd)
    have hpos := hw.civil.day_pos
    have hle := hw.civil.day_le
    omega
  rintro day ⟨hday_ok, hday, hle₁₀⟩
  have hday_range := of_decide_eq_false hday_ok
  have hyear_le : year ≤ 9999 := by
    obtain ⟨ds, -, hlen, hdigits, rfl⟩ := hyear
    have hlt := value_lt ds hdigits
    rw [hlen] at hlt
    omega
  have hdate : DateRead t year month day := ⟨hyear, hdash, hmonth, hdash', hday, hle₁₀,
    ⟨hyear.nonneg, hyear_le, by omega, by omega, by omega, by omega⟩⟩
  by_cases hshort : t.length = 10
  · rw [if_pos hshort]
    have hnil : t.drop 10 = [] := (length_of_drop_nil hle₁₀).mpr hshort.symm
    have hvalid : (⟨year, month, day, 0, 0, 0, 0⟩ : Date).Valid := ⟨hdate.civil, by simp, by simp, by simp, by simp⟩
    refine meets_pure ⟨⟨⟨year, month, day, 0, 0, 0, 0⟩, 0, ?_, hvalid, hvalid, by rw [Int.zero_mul, Int.sub_zero], rfl⟩, ?_⟩
    · exact hdate.text_iff.mpr ⟨⟨rfl, rfl, rfl⟩, .inl ⟨hnil, ⟨rfl, rfl, rfl, rfl⟩, rfl⟩⟩
    · rintro d ⟨w, off, htext, hw, hd, hunix, hnano⟩
      obtain ⟨⟨hy, hm, hday⟩, ⟨-, ⟨hh, hmin, hs, hn⟩, rfl⟩ | ⟨sep, r, hdrop, -⟩⟩ := hdate.text_iff.mp htext
      · obtain rfl : w = ⟨year, month, day, 0, 0, 0, 0⟩ := by
          cases w
          subst hy hm hday hh hmin hs hn
          rfl
        exact hd.eq_of_toUnix hvalid (by rw [hunix, Int.zero_mul, Int.sub_zero]) hnano
      · rw [hnil] at hdrop
        cases hdrop
  · rw [if_neg hshort]
    exact readTime_meets hdate hshort hfuel

/-- **Date text makes the round trip, and is read strictly.**  What is written of a valid date is read back as that
date; and a text is read if and only if it names a date, which is what is read, where an error is a place in the
text or its end. -/
theorem dates_as_text {σ : Type} (A : Allocator σ) (fuel : Nat) (hfuel : 31 ≤ fuel) :
    (∀ d : Date, d.Valid → ∃ l : List (BitVec 8), parse fuel l = pure d ∧
      ∀ b : Content σ, pushIso A fuel b d = pushAll A fuel b l) ∧
    ∀ t : List (BitVec 8), t.length < fuel →
      (∃ d, (parse fuel t).run = done (.ok d) ∧ Names t d ∧ ∀ d', Names t d' → d' = d) ∨
      ∃ j, (parse fuel t).run = done (.error j) ∧ j ≤ t.length ∧ ∀ d, ¬ Names t d := by
  constructor
  · intro d hd
    obtain ⟨l, hlen, htext, hpush⟩ := pushIso_eq (A := A) hd (show 10 ≤ fuel by omega)
    refine ⟨l, ?_, hpush⟩
    have hnames : Names l d := ⟨d, 0, htext, hd, hd, by rw [Int.zero_mul, Int.sub_zero], rfl⟩
    obtain ⟨r, hrun, hr⟩ := (parse_meets l (show l.length < fuel by omega)).exists
    cases r with
    | ok d' =>
      rw [← hr.2 d hnames] at hrun
      exact ExceptT.ext hrun
    | error j => exact absurd hnames (hr.2 d)
  · intro t ht
    obtain ⟨r, hrun, hr⟩ := (parse_meets t ht).exists
    cases r with
    | ok d => exact .inl ⟨d, hrun, hr⟩
    | error j => exact .inr ⟨j, hrun, hr⟩

/-- The last second of a leap day, and a quarter of it. -/
def leapDay : Date := ⟨2000, 2, 29, 23, 59, 59, 250000000⟩

theorem leapDay_valid : leapDay.Valid := (valid_iff leapDay).mp (by decide)

/-- A leap day makes the round trip; a year alone names no date. -/
theorem leapDay_as_text :
    (∃ l : List (BitVec 8), parse 31 l = pure leapDay ∧
      ∀ b : Content Unit, pushIso Allocator.ample 31 b leapDay = pushAll Allocator.ample 31 b l) ∧
    ((∃ d, (parse 31 (padded 2000 4)).run = done (.ok d) ∧ Names (padded 2000 4) d ∧ ∀ d', Names (padded 2000 4) d' → d' = d) ∨
      ∃ j, (parse 31 (padded 2000 4)).run = done (.error j) ∧ j ≤ (padded 2000 4).length ∧ ∀ d, ¬ Names (padded 2000 4) d) :=
  ⟨(dates_as_text Allocator.ample 31 le_rfl).1 leapDay leapDay_valid,
    (dates_as_text Allocator.ample 31 le_rfl).2 (padded 2000 4) (by decide)⟩

/-- `2000-03-01T00:59:59.25+01:00` is the last second of the leap day. -/
example : (parse 31 (padded 2000 4 ++ 45#8 :: (padded 3 2 ++ 45#8 :: (padded 1 2 ++ 84#8 :: (padded 0 2 ++ 58#8 ::
    (padded 59 2 ++ 58#8 :: (padded 59 2 ++ 46#8 :: (padded 25 2 ++ 43#8 :: (padded 1 2 ++ 58#8 :: padded 0 2))))))))).run
      = done (.ok leapDay) := by decide

end Aipl.StdDate
