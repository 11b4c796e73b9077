import Aipl.Std.Encode.Base64

/-! # Hex digits and percent-encoding

* `Hex`, `Escaped` — the texts that are read, and the bytes they stand for.
* `hexDecodeTo_decodes`, `percentDecodeTo_decodes` — just these are read.
* `encodings_invert` — what is encoded is decoded, in each encoding.
-/

namespace Aipl.StdEncode

open Aipl.Lib Aipl.Lib.Outcome Aipl.StdBuf Aipl.StdBytes
open Aipl.Std (Allocator)

/-- A hex digit. -/
def IsHex (c : BitVec 8) : Prop := 0 ≤ hexValue c.toNat

/-- The byte of two hex digits. -/
def pairByte (c₁ c₂ : BitVec 8) : BitVec 8 :=
  BitVec.ofNat 8 (16 * (hexValue c₁.toNat).toNat + (hexValue c₂.toNat).toNat)

/-- `t` is two hex digits for each byte of `l`. -/
inductive Hex : List (BitVec 8) → List (BitVec 8) → Prop
  | nil : Hex [] []
  | cons {c₁ c₂ : BitVec 8} {t l : List (BitVec 8)} (h₁ : IsHex c₁) (h₂ : IsHex c₂) (h : Hex t l) :
      Hex (c₁ :: c₂ :: t) (pairByte c₁ c₂ :: l)

/-- `t` is `l` with bytes escaped and, with `plus`, spaces as `+`. -/
inductive Escaped (plus : Bool) : List (BitVec 8) → List (BitVec 8) → Prop
  | nil : Escaped plus [] []
  | escape {c₁ c₂ : BitVec 8} {t l : List (BitVec 8)} (h₁ : IsHex c₁) (h₂ : IsHex c₂) (h : Escaped plus t l) :
      Escaped plus (37#8 :: c₁ :: c₂ :: t) (pairByte c₁ c₂ :: l)
  | space {t l : List (BitVec 8)} (hplus : plus = true) (h : Escaped plus t l) : Escaped plus (43#8 :: t) (32#8 :: l)
  | byte {c : BitVec 8} {t l : List (BitVec 8)} (hc : c ≠ 37#8) (hplus : plus = true → c ≠ 43#8) (h : Escaped plus t l) :
      Escaped plus (c :: t) (c :: l)

variable {t l l' r rest : List (BitVec 8)} {plus upper : Bool} {c c₁ c₂ : BitVec 8} {fuel n i : Nat} {σ : Type}
  {A : Allocator σ}

/-! ### Hex digits -/

theorem hexValue_lt (c : Nat) : hexValue c < 16 := by
  rw [hexValue]
  split_ifs <;> omega

theorem hexDigit_lt {d : Nat} (hd : d < 16) : hexDigit d upper < 256 := by
  rw [hexDigit]
  split_ifs <;> omega

theorem hexValue_digit {d : Nat} (hd : d < 16) : hexValue (hexDigit d upper) = d := by
  have hall : ∀ d : Fin 16, hexValue (hexDigit d true) = (d : Nat) ∧ hexValue (hexDigit d false) = (d : Nat) := by decide
  cases upper with
  | true => exact (hall ⟨d, hd⟩).1
  | false => exact (hall ⟨d, hd⟩).2

theorem hexByte_eq (c₁ c₂ : Nat) : hexByte c₁ c₂ = 16 * (hexValue c₁).toNat + (hexValue c₂).toNat := by
  have hlt : (hexValue c₂).toNat < 2 ^ 4 := by
    have := hexValue_lt c₂
    omega
  rw [hexByte, ← Nat.shiftLeft_add_eq_or_of_lt hlt, Nat.shiftLeft_eq, Nat.mul_comm]

/-- The byte that two digits stand for. -/
theorem pairByte_eq (c₁ c₂ : BitVec 8) : (BitVec.ofNat 32 (hexByte c₁.toNat c₂.toNat)).setWidth 8 = pairByte c₁ c₂ := by
  rw [hexByte_eq, pairByte, BitVec.setWidth_ofNat_of_le (by decide)]

/-- The digits of a byte. -/
def hexPair (upper : Bool) (c : BitVec 8) : List (BitVec 8) :=
  [BitVec.ofNat 8 (hexDigit (c.toNat / 16) upper), BitVec.ofNat 8 (hexDigit (c.toNat % 16) upper)]

theorem hexPair_spec (upper : Bool) (c : BitVec 8) : ∃ c₁ c₂, hexPair upper c = [c₁, c₂] ∧ IsHex c₁ ∧ IsHex c₂ ∧
    pairByte c₁ c₂ = c := by
  have hc := c.isLt
  have hvalue : ∀ {d : Nat}, d < 16 → hexValue (BitVec.ofNat 8 (hexDigit d upper)).toNat = d := by
    intro d hd
    rw [BitVec.toNat_ofNat, Nat.mod_eq_of_lt (hexDigit_lt hd), hexValue_digit hd]
  have h₁ := hvalue (show c.toNat / 16 < 16 by omega)
  have h₂ := hvalue (show c.toNat % 16 < 16 by omega)
  refine ⟨_, _, rfl, ?_, ?_, ?_⟩
  · rw [IsHex, h₁]
    omega
  · rw [IsHex, h₂]
    omega
  · rw [pairByte, h₁, h₂, Int.toNat_natCast, Int.toNat_natCast, Nat.div_add_mod, BitVec.ofNat_toNat, BitVec.setWidth_eq]

theorem push_digits (o : Content σ) (c : BitVec 8) :
    (do
      let o ← o.pushByte A fuel (BitVec.ofNat 32 (hexDigit (c.toNat >>> 4) upper))
      o.pushByte A fuel (BitVec.ofNat 32 (hexDigit (c.toNat &&& 15) upper))) = pushAll A fuel o (hexPair upper c) := by
  have hdigit : ∀ d : Nat, (BitVec.ofNat 32 (hexDigit d upper)).setWidth 8 = BitVec.ofNat 8 (hexDigit d upper) :=
    fun d => BitVec.setWidth_ofNat_of_le (by decide) _
  have hand : c.toNat &&& 15 = c.toNat % 16 := Nat.and_two_pow_sub_one_eq_mod _ 4
  have hshift : c.toNat >>> 4 = c.toNat / 16 := Nat.shiftRight_eq_div_pow _ 4
  rw [hand, hshift, hexPair, pushAll_cons (hdigit (c.toNat / 16))]
  congr
  funext o'
  exact (pushAll_one (hdigit (c.toNat % 16))).symm

theorem hexTo_eq (o : Content σ) (b : List (BitVec 8)) (upper : Bool) :
    hexTo A fuel o b upper = pushAll A fuel o (b.flatMap (hexPair upper)) := by
  refine foldAll_places (fun i c hget o => ?_) o
  rw [byteAt_eq hget, done_bind]
  exact push_digits o c

theorem hex_flatMap (upper : Bool) (l : List (BitVec 8)) : Hex (l.flatMap (hexPair upper)) l := by
  induction l with
  | nil => exact .nil
  | cons c l ih =>
    obtain ⟨c₁, c₂, hpair, h₁, h₂, hbyte⟩ := hexPair_spec upper c
    rw [List.flatMap_cons, hpair]
    exact hbyte ▸ .cons h₁ h₂ ih

theorem Hex.unique (h : Hex t l) (h' : Hex t l') : l = l' := by
  induction h generalizing l' with
  | nil => cases h'; rfl
  | cons _ _ _ ih =>
    cases h' with
    | cons _ _ h' => rw [ih h']

theorem Hex.digits (h : Hex t l) : (∀ c ∈ t, IsHex c) ∧ t.length = 2 * l.length := by
  induction h with
  | nil => exact ⟨by simp, rfl⟩
  | cons h₁ h₂ _ ih =>
    simp only [List.mem_cons, List.length_cons]
    refine ⟨?_, by omega⟩
    rintro c (rfl | rfl | hc)
    · exact h₁
    · exact h₂
    · exact ih.1 c hc

theorem Hex.concat (h : Hex t l) (h₁ : IsHex c₁) (h₂ : IsHex c₂) : Hex (t ++ [c₁, c₂]) (l ++ [pairByte c₁ c₂]) := by
  induction h with
  | nil => exact .cons h₁ h₂ .nil
  | cons h₁' h₂' _ ih => exact .cons h₁' h₂' ih

/-- Digits in pairs are pushed as bytes. -/
theorem hexPairs_eq (A : Allocator σ) (fuel : Nat) (h : ∀ c ∈ t, IsHex c) (hn : 2 * n ≤ t.length) :
    ∃ l, Hex (t.take (2 * n)) l ∧ ∀ o : Content σ, foldAll (fun o i => do
        let c₀ ← byteAt t (2 * i)
        let c₁ ← byteAt t (2 * i + 1)
        o.pushByte A fuel (BitVec.ofNat 32 (hexByte c₀ c₁))) o (List.range n) = pushAll A fuel o l := by
  induction n with
  | zero => exact ⟨[], .nil, fun o => rfl⟩
  | succ n ih =>
    obtain ⟨l, hl, hfold⟩ := ih (by omega)
    obtain ⟨c₁, r, hdrop⟩ := exists_cons (show 2 * n < t.length by omega)
    obtain ⟨c₂, r', hdrop'⟩ := exists_cons (show 2 * n + 1 < t.length by omega)
    have hget := getElem?_of_drop hdrop
    have hget' := getElem?_of_drop hdrop'
    refine ⟨l ++ [pairByte c₁ c₂], ?_, fun o => ?_⟩
    · have htake : t.take (2 * (n + 1)) = t.take (2 * n) ++ [c₁, c₂] := by
        rw [show 2 * (n + 1) = 2 * n + 1 + 1 by omega, List.take_add_one, List.take_add_one, hget, hget',
          List.append_assoc]
        rfl
      rw [htake]
      exact hl.concat (h _ (List.mem_of_getElem? hget)) (h _ (List.mem_of_getElem? hget'))
    · rw [List.range_succ, foldAll_append, hfold, pushAll_append]
      congr
      funext o'
      rw [foldAll, byteAt_eq hget, done_bind, byteAt_eq hget', done_bind, ← pushAll_one (pairByte_eq c₁ c₂)]
      exact bind_pure _

theorem hexDecodeTo_decodes (A : Allocator σ) (fuel : Nat) (t : List (BitVec 8)) :
    Decodes A fuel (Hex t) (fun o => hexDecodeTo A fuel o t) t.length := by
  have hround : ∀ i ∈ List.range t.length,
      (do pure (if hexValue (← byteAt t i) < 0 then some i else none) : Outcome (Option Nat)) =
        done (if ∃ c, t[i]? = some c ∧ hexValue c.toNat < 0 then some i else none) := by
    intro i hi
    obtain ⟨c, r, hdrop⟩ := exists_cons (List.mem_range.mp hi)
    have hget := getElem?_of_drop hdrop
    rw [byteAt_eq hget, done_bind, pure_eq, hget]
    congr 1
    refine if_congr ⟨fun h => ⟨c, rfl, h⟩, ?_⟩ rfl rfl
    rintro ⟨c', hc', h⟩
    rwa [Option.some.inj hc']
  cases hfind : (List.range t.length).findSome? fun i =>
      if ∃ c, t[i]? = some c ∧ hexValue c.toNat < 0 then some i else none with
  | none =>
    have hall : ∀ c ∈ t, IsHex c := by
      intro c hc
      obtain ⟨i, hi, hget⟩ := List.mem_iff_getElem.mp hc
      have hnone := List.findSome?_eq_none_iff.mp hfind i (List.mem_range.mpr hi)
      by_contra hbad
      rw [if_pos ⟨c, by rw [List.getElem?_eq_getElem hi, hget], by rw [IsHex] at hbad; omega⟩] at hnone
      cases hnone
    by_cases hodd : t.length % 2 = 1
    · refine .inr ⟨fun l h => ?_, t.length, le_rfl, fun o => ?_⟩
      · have hlen := h.digits.2
        omega
      · show hexDecodeTo A fuel o t = _
        rw [hexDecodeTo, firstOf_eq hround, hfind, done_bind]
        dsimp only
        rw [if_pos hodd]
        rfl
    · obtain ⟨l, hl, hfold⟩ := hexPairs_eq A fuel hall (show 2 * (t.length / 2) ≤ t.length by omega)
      rw [List.take_of_length_le (by omega)] at hl
      refine .inl ⟨l, hl, ⟨fun o => ?_⟩⟩
      show hexDecodeTo A fuel o t = _
      rw [hexDecodeTo, firstOf_eq hround, hfind, done_bind]
      dsimp only
      rw [if_neg hodd, hfold, show t.length / 2 = l.length by have := hl.digits.2; omega]
  | some j =>
    obtain ⟨i, hi, hsome⟩ := List.exists_of_findSome?_eq_some hfind
    split_ifs at hsome with hbad
    injection hsome with hsome
    subst hsome
    obtain ⟨c, hget, hneg⟩ := hbad
    refine .inr ⟨fun l h => ?_, i, (List.mem_range.mp hi).le, fun o => ?_⟩
    · have hhex := h.digits.1 c (List.mem_of_getElem? hget)
      rw [IsHex] at hhex
      omega
    · show hexDecodeTo A fuel o t = _
      rw [hexDecodeTo, firstOf_eq hround, hfind]
      rfl

/-! ### Percent-encoding: writing -/

theorem findByte_eq (b : List (BitVec 8)) (c : BitVec 8) : Ends (fun v => 0 ≤ v ↔ c ∈ b) (findByte b c.toNat) := by
  have hround : ∀ i ∈ List.range b.length,
      (do pure (if (← byteAt b i) = c.toNat then some i else none) : Outcome (Option Nat)) =
        done (if b[i]? = some c then some i else none) := by
    intro i hi
    obtain ⟨x, r, hdrop⟩ := exists_cons (List.mem_range.mp hi)
    have hget := getElem?_of_drop hdrop
    rw [byteAt_eq hget, done_bind, pure_eq, hget]
    congr 1
    exact if_congr ⟨fun h => congrArg some (BitVec.eq_of_toNat_eq h), fun h => by rw [Option.some.inj h]⟩ rfl rfl
  rw [findByte, firstOf_eq hround, done_bind]
  cases hfind : (List.range b.length).findSome? fun i => if b[i]? = some c then some i else none with
  | none =>
    refine ⟨fun h => absurd h (by decide), fun hc => ?_⟩
    obtain ⟨i, hi, hget⟩ := List.mem_iff_getElem.mp hc
    have hnone := List.findSome?_eq_none_iff.mp hfind i (List.mem_range.mpr hi)
    rw [if_pos (by rw [List.getElem?_eq_getElem hi, hget])] at hnone
    cases hnone
  | some i =>
    obtain ⟨j, -, hsome⟩ := List.exists_of_findSome?_eq_some hfind
    split_ifs at hsome with hget
    exact ⟨fun _ => List.mem_of_getElem? hget, fun _ => Int.natCast_nonneg i⟩

/-- Whether a byte is written as it is. -/
def Kept (keep : List (BitVec 8)) (c : BitVec 8) : Prop := unreserved c.toNat = true ∨ (c.toNat < 128 ∧ c ∈ keep)

instance (keep : List (BitVec 8)) (c : BitVec 8) : Decidable (Kept keep c) := inferInstanceAs (Decidable (_ ∨ _))

/-- What is written of a byte. -/
def percentByte (keep : List (BitVec 8)) (plus : Bool) (c : BitVec 8) : List (BitVec 8) :=
  if plus = true ∧ c = 32#8 then [43#8] else if Kept keep c then [c] else 37#8 :: hexPair true c

variable {keep : List (BitVec 8)}

theorem percentRound_eq {b : List (BitVec 8)} (hget : b[i]? = some c) (o : Content σ) :
    percentRound A fuel b keep plus o i = pushAll A fuel o (percentByte keep plus c) := by
  rw [percentRound, byteAt_eq hget, done_bind, percentByte]
  have hspace : c.toNat = 32 ↔ c = 32#8 := ⟨fun h => BitVec.eq_of_toNat_eq h, fun h => by rw [h]; rfl⟩
  by_cases hplus : plus = true ∧ c = 32#8
  · rw [if_pos ⟨hplus.1, hspace.mpr hplus.2⟩, if_pos hplus]
    exact (pushAll_one (show (43#32).setWidth 8 = 43#8 from rfl)).symm
  · rw [if_neg (fun h => hplus ⟨h.1, hspace.mp h.2⟩), if_neg hplus]
    have hkept : (if unreserved c.toNat = true then pure true
        else if c.toNat < 128 then do pure (decide (0 ≤ (← findByte keep c.toNat)))
        else pure false : Outcome Bool) = done (decide (Kept keep c)) := by
      by_cases hun : unreserved c.toNat = true
      · rw [if_pos hun, decide_eq_true (show Kept keep c from .inl hun)]
        rfl
      · rw [if_neg hun]
        by_cases hascii : c.toNat < 128
        · obtain ⟨v, hv, hmem⟩ := (findByte_eq keep c).exists
          have hiff : 0 ≤ v ↔ Kept keep c :=
            hmem.trans ⟨fun h => .inr ⟨hascii, h⟩, fun h => (h.resolve_left hun).2⟩
          rw [if_pos hascii, hv, done_bind, pure_eq, decide_eq_decide.mpr hiff]
        · rw [if_neg hascii, decide_eq_false (show ¬ Kept keep c from fun h => hascii (h.resolve_left hun).1)]
          rfl
    rw [hkept, done_bind]
    by_cases hk : Kept keep c
    · rw [if_pos (decide_eq_true hk), if_pos hk]
      have hbyte : (BitVec.ofNat 32 c.toNat).setWidth 8 = c := by
        rw [BitVec.setWidth_ofNat_of_le (by decide), BitVec.ofNat_toNat, BitVec.setWidth_eq]
      exact (pushAll_one hbyte).symm
    · rw [if_neg (by simpa using hk), if_neg hk, pushAll_cons (show (37#32).setWidth 8 = 37#8 from rfl)]
      congr
      funext o'
      exact push_digits o' c

theorem percentEncodeTo_eq (o : Content σ) (b keep : List (BitVec 8)) (plus : Bool) :
    percentEncodeTo A fuel o b keep plus = pushAll A fuel o (b.flatMap (percentByte keep plus)) :=
  foldAll_places (fun _ _ hget o => percentRound_eq hget o) o

/-- What is written of bytes stands for them, when what is kept is not what reading looks for. -/
theorem escaped_flatMap (hpercent : 37#8 ∉ keep) (hplus : plus = true → 43#8 ∉ keep) (l : List (BitVec 8)) :
    Escaped plus (l.flatMap (percentByte keep plus)) l := by
  induction l with
  | nil => exact .nil
  | cons c l ih =>
    rw [List.flatMap_cons, percentByte]
    split_ifs with hspace hkept
    · obtain ⟨hp, rfl⟩ := hspace
      exact .space hp ih
    · refine .byte ?_ ?_ ih
      · rintro rfl
        rcases hkept with hun | ⟨-, hmem⟩
        · exact absurd hun (by decide)
        · exact hpercent hmem
      · rintro hp rfl
        rcases hkept with hun | ⟨-, hmem⟩
        · exact absurd hun (by decide)
        · exact hplus hp hmem
    · obtain ⟨c₁, c₂, hpair, h₁, h₂, hbyte⟩ := hexPair_spec true c
      rw [hpair]
      exact hbyte ▸ .escape h₁ h₂ ih

theorem length_percent_le (keep : List (BitVec 8)) (plus : Bool) (l : List (BitVec 8)) :
    (l.flatMap (percentByte keep plus)).length ≤ 3 * l.length := by
  induction l with
  | nil => exact le_rfl
  | cons c l ih =>
    have hbyte : (percentByte keep plus c).length ≤ 3 := by
      rw [percentByte]
      split_ifs <;> simp [hexPair]
    rw [List.flatMap_cons, List.length_append, List.length_cons]
    omega

/-! ### Percent-encoding: reading -/

theorem IsHex.ne_percent (h : IsHex c) : c ≠ 37#8 := by
  rintro rfl
  rw [IsHex] at h
  exact absurd h (by decide)

theorem Escaped.unique (h : Escaped plus t l) (h' : Escaped plus t l') : l = l' := by
  induction h generalizing l' with
  | nil => cases h'; rfl
  | escape _ _ _ ih =>
    cases h' with
    | escape _ _ h' => rw [ih h']
    | byte hc _ _ => exact absurd rfl hc
  | space hp _ ih =>
    cases h' with
    | space _ h' => rw [ih h']
    | byte _ hplus _ => exact absurd rfl (hplus hp)
  | byte hc hplus _ ih =>
    cases h' with
    | escape _ _ _ => exact absurd rfl hc
    | space hp _ => exact absurd rfl (hplus hp)
    | byte _ _ h' => rw [ih h']

theorem Escaped.length_le (h : Escaped plus t l) : l.length ≤ t.length := by
  induction h with
  | nil => exact le_rfl
  | escape _ _ _ ih => simp only [List.length_cons]; omega
  | space _ _ ih => simp only [List.length_cons]; omega
  | byte _ _ _ ih => simp only [List.length_cons]; omega

/-- The text does not begin with a `%` without two hex digits after it. -/
def GoodEscape (t : List (BitVec 8)) : Prop :=
  ∀ r, t = 37#8 :: r → ∃ c₁ c₂ r', r = c₁ :: c₂ :: r' ∧ IsHex c₁ ∧ IsHex c₂

theorem goodEscape_of_ne (hc : c ≠ 37#8) : GoodEscape (c :: t) := fun _ h => absurd (List.cons.inj h).1 hc

/-- In a text that stands for something, each `%` has its digits. -/
theorem Escaped.good (h : Escaped plus t l) : ∀ i, GoodEscape (t.drop i) := by
  induction h with
  | nil =>
    intro i r hr
    rw [List.drop_nil] at hr
    cases hr
  | escape h₁ h₂ _ ih =>
    intro i
    match i with
    | 0 => exact fun r hr => ⟨_, _, _, (List.cons.inj hr).2.symm, h₁, h₂⟩
    | 1 => exact goodEscape_of_ne h₁.ne_percent
    | 2 => exact goodEscape_of_ne h₂.ne_percent
    | i + 3 => exact ih i
  | space _ _ ih =>
    intro i
    cases i with
    | zero => exact goodEscape_of_ne (by decide)
    | succ i => exact ih i
  | byte hc _ _ ih =>
    intro i
    cases i with
    | zero => exact goodEscape_of_ne hc
    | succ i => exact ih i

open Classical in
theorem badEscape_eq (hi : i < t.length) : badEscape t i = done (if GoodEscape (t.drop i) then none else some i) := by
  obtain ⟨c, r, hdrop⟩ := exists_cons hi
  rw [badEscape, byteAt_drop hdrop, done_bind]
  by_cases hc : c.toNat = 37
  · rw [if_pos hc]
    obtain rfl : c = 37#8 := BitVec.eq_of_toNat_eq hc
    have hlen := congrArg List.length hdrop
    rw [List.length_drop, List.length_cons] at hlen
    by_cases hshort : t.length ≤ i + 2
    · rw [if_pos hshort, if_neg]
      · rfl
      · intro hgood
        obtain ⟨c₁, c₂, r', rfl, -⟩ := hgood r hdrop
        simp only [List.length_cons] at hlen
        omega
    · obtain ⟨c₁, r₁, hdrop₁⟩ := exists_cons (show i + 1 < t.length by omega)
      obtain ⟨c₂, r₂, hdrop₂⟩ := exists_cons (show i + 2 < t.length by omega)
      have hr : r = c₁ :: c₂ :: r₂ := by rw [← drop_succ hdrop, hdrop₁, ← drop_succ hdrop₁, hdrop₂]
      rw [if_neg hshort, byteAt_drop hdrop₁, done_bind, byteAt_drop hdrop₂, done_bind, pure_eq]
      by_cases hbad : hexValue c₁.toNat < 0 ∨ hexValue c₂.toNat < 0
      · rw [if_pos hbad, if_neg]
        intro hgood
        obtain ⟨c₁', c₂', r', heq, h₁, h₂⟩ := hgood r hdrop
        rw [hr] at heq
        obtain ⟨rfl, htail⟩ := List.cons.inj heq
        obtain ⟨rfl, -⟩ := List.cons.inj htail
        rw [IsHex] at h₁ h₂
        omega
      · rw [if_neg hbad, if_pos]
        intro r' hr'
        rw [hdrop] at hr'
        refine ⟨c₁, c₂, r₂, (List.cons.inj hr').2 ▸ hr, ?_, ?_⟩ <;> rw [IsHex] <;> omega
  · rw [if_neg hc, if_pos]
    · rfl
    · intro r' hr'
      rw [hdrop] at hr'
      exact absurd (congrArg BitVec.toNat (List.cons.inj hr').1) hc

variable (A fuel plus) in
/-- **The loop** appends what the rest of the text stands for. -/
theorem unescape_eq (hgood : ∀ i, GoodEscape (t.drop i)) : ∀ (fuel' i : Nat), i ≤ t.length → t.length < fuel' + i →
    ∃ l, Escaped plus (t.drop i) l ∧ ∀ (o : Content σ) (out : Nat),
      iterate (unescapeRound A fuel t plus) fuel' (o, i, out) = pushAll A fuel o l >>= fun o => pure (o, out + l.length) := by
  intro fuel'
  induction fuel' with
  | zero => intro i hi hfuel; omega
  | succ fuel' ih =>
    intro i hi hfuel
    by_cases hlt : i < t.length
    · obtain ⟨c, r, hdrop⟩ := exists_cons hlt
      have hr := drop_succ hdrop
      -- what stands for one byte at the beginning of the rest of the text
      have hstep : ∀ (x : BitVec 8) (y : BitVec 32) (d : Nat), y.setWidth 8 = x → 0 < d → i + d ≤ t.length →
          (∀ (o : Content σ) (out : Nat), unescapeRound A fuel t plus (o, i, out) =
            o.pushByte A fuel y >>= fun o => pure (.inl (o, i + d, out + 1))) →
          (∀ l, Escaped plus (t.drop (i + d)) l → Escaped plus (t.drop i) (x :: l)) →
          ∃ l, Escaped plus (t.drop i) l ∧ ∀ (o : Content σ) (out : Nat),
            iterate (unescapeRound A fuel t plus) (fuel' + 1) (o, i, out) =
              pushAll A fuel o l >>= fun o => pure (o, out + l.length) := by
        intro x y d hy hd hle hround hcons
        obtain ⟨l, hl, hrest⟩ := ih (i + d) hle (by omega)
        refine ⟨x :: l, hcons l hl, fun o out => ?_⟩
        rw [iterate, hround, bind_assoc, pushAll_cons hy, bind_assoc]
        congr
        funext o'
        rw [pure_eq, done_bind]
        refine (hrest o' (out + 1)).trans ?_
        rw [List.length_cons, Nat.add_right_comm, Nat.add_assoc]
      by_cases hpercent : c = 37#8
      · subst hpercent
        obtain ⟨c₁, c₂, r', hr', h₁, h₂⟩ := hgood i r hdrop
        have hdrop₁ : t.drop (i + 1) = c₁ :: c₂ :: r' := by rw [hr, hr']
        have hdrop₂ : t.drop (i + 2) = c₂ :: r' := drop_succ hdrop₁
        have hdrop₃ : t.drop (i + 3) = r' := drop_succ hdrop₂
        refine hstep _ _ 3 (pairByte_eq c₁ c₂) (by decide) (lt_of_drop hdrop₂) (fun o out => ?_) fun l hl => ?_
        · rw [unescapeRound, if_pos hlt, byteAt_drop hdrop, done_bind, if_pos (show (37#8).toNat = 37 from rfl),
            byteAt_drop hdrop₁, done_bind,
            byteAt_drop hdrop₂, done_bind]
        · rw [hdrop₃] at hl
          rw [hdrop, hr']
          exact .escape h₁ h₂ hl
      · have hne : c.toNat ≠ 37 := fun h => hpercent (BitVec.eq_of_toNat_eq h)
        by_cases hplus : plus = true ∧ c.toNat = 43
        · have hc : c = 43#8 := BitVec.eq_of_toNat_eq hplus.2
          refine hstep 32#8 32#32 1 rfl (by decide) hlt (fun o out => ?_) fun l hl => ?_
          · rw [unescapeRound, if_pos hlt, byteAt_drop hdrop, done_bind, if_neg hne, if_pos hplus]
          · rw [hr] at hl
            rw [hdrop, hc]
            exact .space hplus.1 hl
        · refine hstep c (BitVec.ofNat 32 c.toNat) 1 ?_ (by decide) hlt (fun o out => ?_) fun l hl => ?_
          · rw [BitVec.setWidth_ofNat_of_le (by decide), BitVec.ofNat_toNat, BitVec.setWidth_eq]
          · rw [unescapeRound, if_pos hlt, byteAt_drop hdrop, done_bind, if_neg hne, if_neg hplus]
          · rw [hr] at hl
            rw [hdrop]
            refine .byte hpercent ?_ hl
            rintro hp rfl
            exact hplus ⟨hp, rfl⟩
    · refine ⟨[], ?_, fun o out => ?_⟩
      · rw [List.drop_eq_nil_of_le (by omega)]
        exact .nil
      · rw [iterate, unescapeRound, if_neg hlt]
        rfl

theorem percentDecodeTo_decodes (A : Allocator σ) (t : List (BitVec 8)) (plus : Bool) (hfuel : t.length < fuel) :
    Decodes A fuel (Escaped plus t) (fun o => percentDecodeTo A fuel o t plus) t.length := by
  classical
  have hround : ∀ i ∈ List.range t.length, badEscape t i = done (if GoodEscape (t.drop i) then none else some i) :=
    fun i hi => badEscape_eq (List.mem_range.mp hi)
  cases hfind : (List.range t.length).findSome? fun i => if GoodEscape (t.drop i) then none else some i with
  | none =>
    have hgood : ∀ i, GoodEscape (t.drop i) := by
      intro i
      by_cases hi : i < t.length
      · have hnone := List.findSome?_eq_none_iff.mp hfind i (List.mem_range.mpr hi)
        by_contra hbad
        rw [if_neg hbad] at hnone
        cases hnone
      · rw [List.drop_eq_nil_of_le (Nat.le_of_not_lt hi)]
        intro r hr
        cases hr
    obtain ⟨l, hl, hrun⟩ := unescape_eq plus fuel A hgood fuel 0 (Nat.zero_le _) (by omega)
    refine .inl ⟨l, hl, ⟨fun o => ?_⟩⟩
    show percentDecodeTo A fuel o t plus = _
    rw [percentDecodeTo, firstOf_eq hround, hfind, done_bind]
    dsimp only
    rw [hrun, bind_assoc]
    congr
    funext o'
    rw [pure_eq, done_bind, Nat.zero_add]
  | some j =>
    obtain ⟨i, hi, hsome⟩ := List.exists_of_findSome?_eq_some hfind
    split_ifs at hsome with hbad
    injection hsome with hsome
    subst hsome
    refine .inr ⟨fun l h => hbad (h.good i), i, (List.mem_range.mp hi).le, fun o => ?_⟩
    show percentDecodeTo A fuel o t plus = _
    rw [percentDecodeTo, firstOf_eq hround, hfind]
    rfl

/-! ### Each encoding -/

/-- **What is encoded is decoded**, and each decoder reads just the texts that stand for bytes: it appends them, and
where it returns an error it appends nothing. -/
theorem encodings_invert (A : Allocator σ) (fuel : Nat) :
    (∀ (b : List (BitVec 8)) (alphabet : Alphabet) (padding : Padding), 2 * b.length + 4 < fuel →
      ∃ t, (∀ o, base64To A fuel o b alphabet padding = pushAll A fuel o t) ∧
        Accepts A fuel (fun o => base64DecodeTo A fuel o t alphabet padding) b) ∧
    (∀ (b : List (BitVec 8)) (upper : Bool),
      ∃ t, (∀ o, hexTo A fuel o b upper = pushAll A fuel o t) ∧ Accepts A fuel (fun o => hexDecodeTo A fuel o t) b) ∧
    (∀ (b keep : List (BitVec 8)) (plus : Bool), 3 * b.length < fuel → 37#8 ∉ keep → (plus = true → 43#8 ∉ keep) →
      ∃ t, (∀ o, percentEncodeTo A fuel o b keep plus = pushAll A fuel o t) ∧
        Accepts A fuel (fun o => percentDecodeTo A fuel o t plus) b) ∧
    ∀ t : List (BitVec 8), t.length < fuel →
      (∀ (alphabet : Alphabet) (padding : Padding),
        Decodes A fuel (Base64 alphabet padding t) (fun o => base64DecodeTo A fuel o t alphabet padding) t.length) ∧
      Decodes A fuel (Hex t) (fun o => hexDecodeTo A fuel o t) t.length ∧
      ∀ plus : Bool, Decodes A fuel (Escaped plus t) (fun o => percentDecodeTo A fuel o t plus) t.length := by
  refine ⟨fun b alphabet padding => base64_roundTrip A alphabet padding b, fun b upper => ?_, fun b keep plus hfuel hp hplus => ?_,
    fun t ht => ⟨fun alphabet padding => base64DecodeTo_decodes A t ht, hexDecodeTo_decodes A fuel t,
      fun plus => percentDecodeTo_decodes A t plus ht⟩⟩
  · exact ⟨_, fun o => hexTo_eq o b upper, (hexDecodeTo_decodes A fuel _).accepts (hex_flatMap upper b)
      fun _ h => h.unique (hex_flatMap upper b)⟩
  · have hlen := (length_percent_le keep plus b).trans_lt hfuel
    exact ⟨_, fun o => percentEncodeTo_eq o b keep plus, (percentDecodeTo_decodes A _ plus hlen).accepts
      (escaped_flatMap hp hplus b) fun _ h => h.unique (escaped_flatMap hp hplus b)⟩

/-- The bytes `=`, a space, `%` and 255. -/
def awkward : List (BitVec 8) := [61#8, 32#8, 37#8, 255#8]

/-- These bytes make the round trips; whether they are hex digits is decided. -/
theorem awkward_inverts :
    (∃ t, (∀ o, base64To Allocator.ample 13 o awkward .urlSafe .padded = pushAll Allocator.ample 13 o t) ∧
      Accepts Allocator.ample 13 (fun o => base64DecodeTo Allocator.ample 13 o t .urlSafe .padded) awkward) ∧
    (∃ t, (∀ o, percentEncodeTo Allocator.ample 13 o awkward [61#8] true = pushAll Allocator.ample 13 o t) ∧
      Accepts Allocator.ample 13 (fun o => percentDecodeTo Allocator.ample 13 o t true) awkward) ∧
    Decodes Allocator.ample 13 (Hex awkward) (fun o => hexDecodeTo Allocator.ample 13 o awkward) awkward.length :=
  ⟨(encodings_invert Allocator.ample 13).1 awkward .urlSafe .padded (by decide),
    (encodings_invert Allocator.ample 13).2.2.1 awkward [61#8] true (by decide) (by decide) (by decide),
    ((encodings_invert Allocator.ample 13).2.2.2 awkward (by decide)).2.1⟩

example : base64Text .urlSafe .padded awkward = [80#8, 83#8, 65#8, 108#8, 95#8, 119#8, 61#8, 61#8] := by decide

end Aipl.StdEncode
