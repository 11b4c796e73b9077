import Aipl.Std.Html.References
import Mathlib.Data.List.TakeWhile

/-! # Texts read back

* `Recognised`, `Unescaped` — the references, and a text with each place's longest one replaced.
* `recognise_spec`, `recognise_longest` — the scan finds a reference, and the longest there is.
* `exists_unescaped`, `Unescaped.isUtf8` — every text is read back as one.
-/

namespace Aipl.StdHtml

open Aipl.Lib Aipl.Lib.Outcome Aipl.StdBuf Aipl.StdBytes
open Aipl.Std (Allocator)

/-! ### Which texts are references -/

/-- The value of digits. -/
def number (hex : Bool) (ds : Bytes) : Nat := ds.foldl (fun v c => v * (if hex then 16 else 10) + digitValue hex c.toNat) 0

/-- A reference, after its `&`, and what it stands for. -/
inductive Recognised : Bytes → Bytes → Prop
  | name {n : Bytes} (h : 0 ≤ named n) : Recognised (n ++ [59#8]) (Utf8.encode (named n).toNat)
  | legacy {n : Bytes} (h : legacy n = true) : Recognised n (Utf8.encode (named n).toNat)
  | number {hex : Bool} {x ds semi : Bytes} (hx : if hex then x = [120#8] ∨ x = [88#8] else x = []) (hne : ds ≠ [])
      (hds : ∀ c ∈ ds, digit hex c.toNat = true) (hsemi : semi = [59#8] ∨ semi = []) :
      Recognised (35#8 :: (x ++ (ds ++ semi))) (numberText (StdHtml.number hex ds))

/-- `out` is the text with the longest reference at each place replaced, and every other byte as it is. -/
inductive Unescaped : Bytes → Bytes → Prop
  | nil : Unescaped [] []
  | byte {c : BitVec 8} {rest out : Bytes} (hc : c ≠ 38#8) (h : Unescaped rest out) : Unescaped (c :: rest) (c :: out)
  | amp {rest out : Bytes} (hno : ∀ r v, Recognised r v → ¬ r <+: rest) (h : Unescaped rest out) :
      Unescaped (38#8 :: rest) (38#8 :: out)
  | reference {r v rest out : Bytes} (hr : Recognised r v)
      (hmax : ∀ r' v', Recognised r' v' → r' <+: r ++ rest → r'.length ≤ r.length) (h : Unescaped rest out) :
      Unescaped (38#8 :: (r ++ rest)) (v ++ out)

/-! ### The scan finds a reference -/

variable {n t rest out r v : Bytes} {c : BitVec 8} {k m : Nat}

theorem replacements_small : ∀ e ∈ replacements, e.1 ≤ 1114111 := by
  decide +kernel

theorem replaced_large {v : Nat} (h : 1114111 < v) : replaced v = -1 := by
  rw [replaced]
  cases hfind : replacements.find? fun e => e.1 = v with
  | none => rfl
  | some e =>
    have hle := replacements_small e (List.mem_of_find?_eq_some hfind)
    have hfound := List.find?_some hfind
    have heq : e.1 = v := of_decide_eq_true hfound
    omega

theorem numberText_large {v : Nat} (h : 1114111 < v) : numberText v = Utf8.encode 65533 := by
  rw [numberText, replaced_large h, if_neg (by decide), if_pos (.inr h)]

/-- A number that stops growing stands for what the number does. -/
theorem grown_number (hex : Bool) (ds : Bytes) : ds.foldl (grown hex) 0 = number hex ds ∧ number hex ds ≤ 1114111 ∨
    1114111 < ds.foldl (grown hex) 0 ∧ 1114111 < number hex ds := by
  induction ds using List.reverseRecOn with
  | nil => exact .inl ⟨rfl, Nat.zero_le _⟩
  | append_singleton ds c ih =>
    rw [number] at ih ⊢
    rw [List.foldl_concat, List.foldl_concat]
    generalize ds.foldl (grown hex) 0 = v at ih ⊢
    generalize ds.foldl (fun v c => v * (if hex then 16 else 10) + digitValue hex c.toNat) 0 = w at ih ⊢
    rcases ih with ⟨rfl, hle⟩ | ⟨hv, hw⟩
    · rw [grown, if_pos hle]
      omega
    · rw [grown, if_neg (by omega)]
      refine .inr ⟨hv, Nat.lt_of_lt_of_le hw ?_⟩
      cases hex
      · rw [if_neg Bool.false_ne_true]
        omega
      · rw [if_pos rfl]
        omega

theorem numberText_grown (hex : Bool) (ds : Bytes) : numberText (ds.foldl (grown hex) 0) = numberText (number hex ds) := by
  rcases grown_number hex ds with ⟨h, -⟩ | ⟨h, h'⟩
  · rw [h]
  · rw [numberText_large h, numberText_large h']

theorem longest_some : ∀ {m k : Nat}, longest t m = some k → 2 ≤ k ∧ k ≤ m ∧ legacy (t.take k) = true
  | 0, _, h => by cases h
  | m + 1, k, h => by
      rw [longest] at h
      split at h
      · split at h
        · rename_i hm hl
          cases h
          exact ⟨by omega, le_rfl, hl.2⟩
        · have hrest := longest_some h
          exact ⟨hrest.1, Nat.le_succ_of_le hrest.2.1, hrest.2.2⟩
      · cases h

theorem nameOf_spec (h : nameOf t = some (k, v)) : Recognised (t.take k) v ∧ k ≤ t.length := by
  have hle := nameLen_le 32 t
  rw [nameOf] at h
  generalize nameLen 32 t = e at h hle
  dsimp only at h
  by_cases he : e = 0
  · rw [if_pos he] at h
    cases h
  · rw [if_neg he] at h
    by_cases hsemi : t[e]? = some 59#8
    · obtain ⟨hlt, -⟩ := List.getElem?_eq_some_iff.mp hsemi
      simp only [if_pos hsemi] at h
      by_cases hcp : 0 ≤ named (t.take e)
      · rw [if_pos hcp] at h
        cases h
        rw [List.take_add_one, hsemi]
        exact ⟨.name hcp, hlt⟩
      · rw [if_neg hcp] at h
        obtain ⟨m, hm, heq⟩ := Option.map_eq_some_iff.mp h
        cases heq
        obtain ⟨-, hmle, hl⟩ := longest_some hm
        exact ⟨.legacy hl, hmle.trans hle⟩
    · simp only [if_neg hsemi] at h
      by_cases hl : legacy (t.take e) = true
      · rw [if_pos hl, if_pos (named_legacy hl)] at h
        cases h
        exact ⟨.legacy hl, hle⟩
      · rw [if_neg hl, if_neg (by decide)] at h
        obtain ⟨m, hm, heq⟩ := Option.map_eq_some_iff.mp h
        cases heq
        obtain ⟨-, hmle, hl⟩ := longest_some hm
        exact ⟨.legacy hl, by omega⟩

theorem numberOf_spec (h : numberOf t = some (k, v)) : Recognised (35#8 :: t.take k) v ∧ k ≤ t.length := by
  rw [numberOf] at h
  generalize hh : (t.head?.any fun c => decide (c.toNat = 120 ∨ c.toNat = 88)) = hex at h
  dsimp only at h
  obtain ⟨x, t', rfl, hx, hxlen⟩ : ∃ x t', t = x ++ t' ∧ (if hex then x = [120#8] ∨ x = [88#8] else x = []) ∧
      x.length = if hex then 1 else 0 := by
    cases hex with
    | false => exact ⟨[], t, rfl, rfl, rfl⟩
    | true =>
      cases t with
      | nil => cases hh
      | cons c t' =>
        refine ⟨[c], t', rfl, ?_, rfl⟩
        have hc : c.toNat = 120 ∨ c.toNat = 88 := of_decide_eq_true hh
        exact hc.imp (fun h => by rw [BitVec.eq_of_toNat_eq (y := 120#8) h]) fun h => by rw [BitVec.eq_of_toNat_eq (y := 88#8) h]
  rw [← hxlen, List.drop_left] at h
  have hpre := List.takeWhile_prefix (l := t') (fun c => digit hex c.toNat)
  generalize hds : (t'.takeWhile fun c => digit hex c.toNat) = ds at h hpre
  obtain ⟨tail, rfl⟩ := hpre
  split at h
  · cases h
  · rename_i hne
    cases h
    have hdigits : ∀ c ∈ ds, digit hex c.toNat = true := by
      intro c hc
      rw [← hds] at hc
      exact List.mem_takeWhile_imp (p := fun c : BitVec 8 => digit hex c.toNat) hc
    have hget : (x ++ (ds ++ tail))[x.length + ds.length]? = tail[0]? := by
      rw [← List.append_assoc, ← List.length_append, List.getElem?_append_right le_rfl, Nat.sub_self]
    have htake : ∀ k, (x ++ (ds ++ tail)).take (x.length + ds.length + k) = x ++ (ds ++ tail.take k) := by
      intro k
      rw [← List.append_assoc, ← List.length_append, List.take_length_add_append, List.append_assoc]
    rw [hget, numberText_grown]
    by_cases hsemi : tail[0]? = some 59#8
    · obtain ⟨hlt, h0⟩ := List.getElem?_eq_some_iff.mp hsemi
      obtain ⟨c, tail, rfl⟩ := List.exists_cons_of_length_pos hlt
      have hc : c = 59#8 := h0
      rw [if_pos hsemi, htake 1, hc]
      refine ⟨.number hx hne hdigits (.inl rfl), ?_⟩
      simp only [List.length_append, List.length_cons]
      omega
    · have h0 := htake 0
      rw [Nat.add_zero, List.take_zero] at h0
      rw [if_neg hsemi, h0]
      refine ⟨.number hx hne hdigits (.inr rfl), ?_⟩
      simp only [List.length_append]
      omega

/-- **What the scan finds** is a reference. -/
theorem recognise_spec (h : recognise t = some (k, v)) : Recognised (t.take k) v ∧ k ≤ t.length := by
  rw [recognise] at h
  split at h
  · rename_i hhead
    obtain ⟨⟨k', v'⟩, hnum, heq⟩ := Option.map_eq_some_iff.mp h
    cases heq
    cases t with
    | nil => cases hhead
    | cons c t =>
      have hc : c = 35#8 := Option.some.inj hhead
      obtain ⟨hr, hle⟩ := numberOf_spec hnum
      rw [hc, List.take_succ_cons]
      exact ⟨hr, Nat.succ_le_succ hle⟩
  · exact nameOf_spec h

/-! ### The longest one -/

theorem nameChar_lt (h : nameChar c.toNat = true) : c.toNat < 128 := by
  rw [nameChar, decide_eq_true_eq] at h
  omega

theorem not_ends_nameChar (h : nameChar c.toNat = true) : ends c.toNat = false := by
  rw [nameChar, decide_eq_true_eq] at h
  rw [ends, decide_eq_false_iff_not]
  omega

theorem charLen_ascii (hc : c.toNat < 128) (rest : Bytes) : charLen (c :: rest) = 1 := by
  have hencode : Utf8.encode c.toNat = [c] := by rw [Utf8.encode, if_pos hc, BitVec.ofNat_toNat, BitVec.setWidth_eq]
  have hread : Utf8.read (Utf8.encode c.toNat ++ rest) = some (c.toNat, (Utf8.encode c.toNat).length) :=
    Utf8.read_encode ⟨by omega, by omega⟩ rest
  rw [hencode] at hread
  rw [charLen, show c :: rest = [c] ++ rest from rfl, hread]
  rfl

/-- A name is gone through whole. -/
theorem nameLen_name : ∀ {n : Bytes} {k : Nat}, (∀ c ∈ n, nameChar c.toNat = true) → n.length ≤ k →
    nameLen k (n ++ rest) = n.length + nameLen (k - n.length) rest
  | [], k, _, _ => by rw [List.nil_append, List.length_nil, Nat.sub_zero, Nat.zero_add]
  | c :: n, k + 1, h, hk => by
      have hc := h c List.mem_cons_self
      have hrest := nameLen_name (fun c hc => h c (List.mem_cons_of_mem _ hc)) (Nat.le_of_succ_le_succ hk)
      rw [List.cons_append, nameLen, not_ends_nameChar hc, if_neg Bool.false_ne_true, charLen_ascii (nameChar_lt hc),
        List.drop_succ_cons, List.drop_zero, hrest, List.length_cons, Nat.succ_sub_succ]
      omega

theorem nameLen_semi (k : Nat) (rest : Bytes) : nameLen k (59#8 :: rest) = 0 := by
  cases k <;> rfl

/-- The longest name is no shorter than another. -/
theorem longest_le : ∀ {m j : Nat}, 2 ≤ j → j ≤ m → (t[j]?.any fun c => c.toNat &&& 192 ≠ 128) = true → legacy (t.take j) = true →
    ∃ k, longest t m = some k ∧ j ≤ k
  | 0, j, h2, hjm, _, _ => by omega
  | m + 1, j, h2, hjm, hbound, hl => by
      rw [longest, if_pos (by omega)]
      by_cases hfirst : (t[m + 1]?.any fun c => c.toNat &&& 192 ≠ 128) ∧ legacy (t.take (m + 1))
      · rw [if_pos hfirst]
        exact ⟨m + 1, rfl, hjm⟩
      · have hne : j ≠ m + 1 := by
          rintro rfl
          exact hfirst ⟨hbound, hl⟩
        rw [if_neg hfirst]
        exact longest_le h2 (by omega) hbound hl

theorem and_192 : ∀ n < 256, n < 128 ∨ 194 ≤ n → n &&& 192 ≠ 128 := by
  decide +kernel

/-- A text begins with no byte after the first of a character. -/
theorem isUtf8_head (h : Utf8.IsUtf8 (c :: rest)) : c.toNat &&& 192 ≠ 128 := by
  have hread : Utf8.read (c :: rest) ≠ none := fun hnone => Utf8.not_isUtf8 hnone (List.cons_ne_nil _ _) h
  refine and_192 _ c.isLt ?_
  rcases Utf8.following_cases c with ⟨-, hc⟩ | ⟨-, hc, -⟩ | ⟨-, hc, -⟩ | ⟨-, hc, -⟩ | hnone
  · exact .inl hc
  · exact .inr hc
  · exact .inr (by omega)
  · exact .inr (by omega)
  · exact absurd (Utf8.read_none hnone rest) hread

/-- What comes after bytes below 128 in a text is a text. -/
theorem isUtf8_after : ∀ {n : Bytes}, (∀ c ∈ n, c.toNat < 128) → Utf8.IsUtf8 (n ++ rest) → Utf8.IsUtf8 rest
  | [], _, h => h
  | c :: n, hn, h => by
      have hcut : Utf8.IsUtf8 ([] ++ c :: (n ++ rest)) := h
      exact isUtf8_after (fun c hc => hn c (List.mem_cons_of_mem _ hc)) ((Utf8.isUtf8_at (hn c List.mem_cons_self)).mp hcut).2

theorem named_chars (h : 0 ≤ named n) : (∀ c ∈ n, nameChar c.toNat = true) ∧ 2 ≤ n.length ∧ n.length ≤ 8 := by
  obtain ⟨e, he, rfl, -⟩ := named_nonneg h
  exact ⟨fun c hc => name_char he hc, name_length he⟩

theorem nameChar_head (hchars : ∀ c ∈ n, nameChar c.toNat = true) (hne : n ≠ []) (rest : Bytes) :
    (n ++ rest).head? ≠ some 35#8 := by
  obtain ⟨c, n', rfl⟩ := List.exists_cons_of_ne_nil hne
  rw [List.cons_append, List.head?_cons, Option.some_inj.ne]
  rintro rfl
  exact absurd (hchars _ List.mem_cons_self) (by decide)

theorem ne_nil_of_two (h : 2 ≤ n.length) : n ≠ [] := by
  rintro rfl
  exact absurd h (by decide)

/-- A name with its `;` is found. -/
theorem recognise_name (h : 0 ≤ named n) (rest : Bytes) :
    recognise (n ++ 59#8 :: rest) = some (n.length + 1, Utf8.encode (named n).toNat) := by
  obtain ⟨hchars, h2, h8⟩ := named_chars h
  have hlen : nameLen 32 (n ++ 59#8 :: rest) = n.length := by
    rw [nameLen_name hchars (by omega), nameLen_semi, Nat.add_zero]
  have hsemi : (n ++ 59#8 :: rest)[n.length]? = some 59#8 := by simp
  rw [recognise, if_neg (nameChar_head hchars (ne_nil_of_two h2) _), nameOf, hlen]
  simp only [if_pos hsemi, List.take_left]
  rw [if_neg (by omega), if_pos h]

/-- A name without its `;` is found, or a longer one. -/
theorem recognise_legacy (h : legacy n = true) (hutf : Utf8.IsUtf8 (n ++ rest)) :
    ∃ k v, recognise (n ++ rest) = some (k, v) ∧ (n.length < k ∨ k = n.length ∧ v = Utf8.encode (named n).toNat) := by
  have hn := named_legacy h
  obtain ⟨hchars, h2, h8⟩ := named_chars hn
  have hrest := isUtf8_after (fun c hc => nameChar_lt (hchars c hc)) hutf
  have hlen : nameLen 32 (n ++ rest) = n.length + nameLen (32 - n.length) rest := nameLen_name hchars (by omega)
  have hle := nameLen_le 32 (n ++ rest)
  rw [recognise, if_neg (nameChar_head hchars (ne_nil_of_two h2) _), nameOf]
  generalize nameLen (32 - n.length) rest = e' at hlen
  generalize nameLen 32 (n ++ rest) = e at hlen hle
  dsimp only
  rw [if_neg (by omega)]
  have hshort : ∀ m, n.length ≤ m → n.length < (n ++ rest).length →
      ∃ k, longest (n ++ rest) m = some k ∧ n.length ≤ k := by
    intro m hm hlt
    rw [List.length_append] at hlt
    obtain ⟨c, rest', rfl⟩ := List.exists_cons_of_length_pos (show 0 < rest.length by omega)
    refine longest_le h2 hm ?_ (by rwa [List.take_left])
    rw [List.getElem?_append_right le_rfl, Nat.sub_self]
    exact decide_eq_true (isUtf8_head hrest)
  have hvalue : ∀ k, n.length ≤ k → (n.length < k ∨ k = n.length ∧
      Utf8.encode (named ((n ++ rest).take k)).toNat = Utf8.encode (named n).toNat) := by
    intro k hk
    rcases Nat.lt_or_eq_of_le hk with hlt | rfl
    · exact .inl hlt
    · exact .inr ⟨rfl, by rw [List.take_left]⟩
  by_cases hsemi : (n ++ rest)[e]? = some 59#8
  · simp only [if_pos hsemi]
    obtain ⟨hlt, -⟩ := List.getElem?_eq_some_iff.mp hsemi
    by_cases hcp : 0 ≤ named ((n ++ rest).take e)
    · rw [if_pos hcp]
      exact ⟨_, _, rfl, .inl (by omega)⟩
    · rw [if_neg hcp]
      obtain ⟨k, hk, hnk⟩ := hshort e (by omega) (by omega)
      rw [hk]
      exact ⟨_, _, rfl, hvalue k hnk⟩
  · simp only [if_neg hsemi]
    by_cases hl : legacy ((n ++ rest).take e) = true
    · rw [if_pos hl, if_pos (named_legacy hl)]
      exact ⟨_, _, rfl, hvalue e (by omega)⟩
    · have hne : e ≠ n.length := by
        rintro rfl
        rw [List.take_left] at hl
        exact hl h
      rw [if_neg hl, if_neg (by decide)]
      obtain ⟨k, hk, hnk⟩ := hshort (e - 1) (by omega) (by omega)
      rw [hk]
      exact ⟨_, _, rfl, hvalue k hnk⟩

theorem digit_semi (hex : Bool) : digit hex (59#8).toNat = false := by
  cases hex <;> rfl

/-- A digit is no mark of a hexadecimal number. -/
theorem digit_ne_x (hc : digit false c.toNat = true) : ¬ (c.toNat = 120 ∨ c.toNat = 88) := by
  have hdigit : isDigit c.toNat = true := hc
  rw [isDigit, decide_eq_true_eq] at hdigit
  omega

/-- Digits are taken, and those that come after them. -/
theorem recognise_digits {hex : Bool} {x ds : Bytes} (hx : if hex then x = [120#8] ∨ x = [88#8] else x = []) (hne : ds ≠ [])
    (hds : ∀ c ∈ ds, digit hex c.toNat = true) (tail : Bytes) {more : Bytes}
    (hmore : tail.takeWhile (fun c => digit hex c.toNat) = more) : recognise (35#8 :: (x ++ (ds ++ tail))) =
      some ((if (x ++ (ds ++ tail))[x.length + (ds ++ more).length]? = some 59#8 then x.length + (ds ++ more).length + 1
        else x.length + (ds ++ more).length) + 1, numberText (number hex (ds ++ more))) := by
  have hhex : ((x ++ (ds ++ tail)).head?.any fun c => decide (c.toNat = 120 ∨ c.toNat = 88)) = hex := by
    cases hex with
    | false =>
      obtain rfl : x = [] := hx
      obtain ⟨c, ds', rfl⟩ := List.exists_cons_of_ne_nil hne
      exact decide_eq_false (digit_ne_x (hds c List.mem_cons_self))
    | true => rcases hx with rfl | rfl <;> rfl
  have hxlen : (if hex then 1 else 0) = x.length := by
    cases hex with
    | false => rw [show x = [] from hx]; rfl
    | true => rcases hx with rfl | rfl <;> rfl
  have htake : (ds ++ tail).takeWhile (fun c => digit hex c.toNat) = ds ++ more := by
    rw [List.takeWhile_append_of_pos hds, hmore]
  rw [recognise, List.head?_cons, if_pos rfl, List.tail_cons, numberOf, hhex, hxlen, List.drop_left, htake, numberText_grown]
  dsimp only
  rw [if_neg (fun h => hne (List.append_eq_nil_iff.mp h).1)]
  rfl

theorem recognise_number_semi {hex : Bool} {x ds : Bytes} (hx : if hex then x = [120#8] ∨ x = [88#8] else x = []) (hne : ds ≠ [])
    (hds : ∀ c ∈ ds, digit hex c.toNat = true) (rest : Bytes) : recognise (35#8 :: (x ++ (ds ++ 59#8 :: rest))) =
      some (x.length + ds.length + 2, numberText (number hex ds)) := by
  have hnone : (59#8 :: rest).takeWhile (fun c => digit hex c.toNat) = [] := by
    rw [List.takeWhile_cons, digit_semi, if_neg Bool.false_ne_true]
  have hget : (x ++ (ds ++ 59#8 :: rest))[x.length + ds.length]? = some 59#8 := by
    rw [← List.append_assoc, ← List.length_append, List.getElem?_append_right le_rfl, Nat.sub_self]
    rfl
  have hfound := recognise_digits hx hne hds (59#8 :: rest) hnone
  rw [List.append_nil, hget, if_pos rfl] at hfound
  exact hfound

/-- A number is found, or one with more digits. -/
theorem recognise_number {hex : Bool} {x ds semi : Bytes} (hx : if hex then x = [120#8] ∨ x = [88#8] else x = []) (hne : ds ≠ [])
    (hds : ∀ c ∈ ds, digit hex c.toNat = true) (hsemi : semi = [59#8] ∨ semi = []) (rest : Bytes) :
    ∃ k v, recognise (35#8 :: (x ++ (ds ++ semi)) ++ rest) = some (k, v) ∧ ((35#8 :: (x ++ (ds ++ semi))).length < k ∨
      k = (35#8 :: (x ++ (ds ++ semi))).length ∧ v = numberText (number hex ds)) := by
  have hassoc : 35#8 :: (x ++ (ds ++ semi)) ++ rest = 35#8 :: (x ++ (ds ++ (semi ++ rest))) := by simp
  rw [hassoc]
  rcases hsemi with rfl | rfl
  · refine ⟨_, _, recognise_number_semi hx hne hds rest, .inr ⟨?_, rfl⟩⟩
    simp only [List.length_cons, List.length_append, List.length_nil]
    omega
  · refine ⟨_, _, recognise_digits hx hne hds rest rfl, ?_⟩
    cases hmore : rest.takeWhile fun c => digit hex c.toNat with
    | nil =>
      rw [List.append_nil]
      split
      · left
        simp only [List.length_cons, List.length_append]
        omega
      · right
        refine ⟨?_, rfl⟩
        simp only [List.length_cons, List.length_append]
    | cons c more =>
      left
      split <;> (simp only [List.length_cons, List.length_append, List.length_nil]; omega)

/-- **The scan finds the longest reference.** -/
theorem recognise_longest (h : Recognised r v) (hutf : Utf8.IsUtf8 (r ++ rest)) :
    ∃ k v', recognise (r ++ rest) = some (k, v') ∧ (r.length < k ∨ k = r.length ∧ v' = v) := by
  cases h with
  | @name n h =>
    refine ⟨n.length + 1, _, ?_, .inr ⟨by rw [List.length_append, List.length_singleton], rfl⟩⟩
    rw [List.append_assoc]
    exact recognise_name h rest
  | legacy h => exact recognise_legacy h hutf
  | number hx hne hds hsemi => exact recognise_number hx hne hds hsemi rest

/-! ### The text that is read back -/

theorem digit_lt {hex : Bool} (h : digit hex c.toNat = true) : c.toNat < 128 := by
  cases hex with
  | false =>
    have hdigit : isDigit c.toNat = true := h
    rw [isDigit, decide_eq_true_eq] at hdigit
    omega
  | true =>
    have hdigit : 0 ≤ hexValue c.toNat := of_decide_eq_true h
    rw [hexValue, isDigit] at hdigit
    simp only [decide_eq_true_eq] at hdigit
    split_ifs at hdigit <;> omega

/-- A reference is of bytes below 128. -/
theorem Recognised.ascii (h : Recognised r v) : ∀ c ∈ r, c.toNat < 128 := by
  have hsingle : ∀ x : BitVec 8, x.toNat < 128 → ∀ c ∈ [x], c.toNat < 128 := fun x hx c hc => by
    rwa [List.mem_singleton.mp hc]
  cases h with
  | name h =>
    obtain ⟨hchars, -⟩ := named_chars h
    intro c hc
    rcases List.mem_append.mp hc with hc | hc
    · exact nameChar_lt (hchars c hc)
    · exact hsingle _ (by decide) c hc
  | legacy h => exact fun c hc => nameChar_lt ((named_chars (named_legacy h)).1 c hc)
  | @number hex x ds semi hx hne hds hsemi =>
    intro c hc
    rw [List.mem_cons, List.mem_append, List.mem_append] at hc
    rcases hc with rfl | hc | hc | hc
    · decide
    · cases hex with
      | false =>
        rw [show x = [] from hx] at hc
        cases hc
      | true =>
        rcases hx with rfl | rfl
        · exact hsingle _ (by decide) c hc
        · exact hsingle _ (by decide) c hc
    · exact digit_lt (hds c hc)
    · rcases hsemi with rfl | rfl
      · exact hsingle _ (by decide) c hc
      · cases hc

theorem isUtf8_encode {cp : Nat} (h : Utf8.IsScalar cp) : Utf8.IsUtf8 (Utf8.encode cp) :=
  ⟨[cp], fun x hx => by rwa [List.mem_singleton.mp hx], by rw [List.flatMap_singleton]⟩

theorem isUtf8_numberText (k : Nat) : Utf8.IsUtf8 (numberText k) := by
  rw [numberText]
  split_ifs with hr hs hi
  · exact isUtf8_encode (replaced_scalar hr)
  · exact isUtf8_encode ⟨by decide, by decide⟩
  · exact Utf8.isUtf8_nil
  · exact isUtf8_encode ⟨by omega, by omega⟩

/-- A reference stands for a text. -/
theorem Recognised.isUtf8 (h : Recognised r v) : Utf8.IsUtf8 v := by
  cases h with
  | name h => exact isUtf8_encode (named_scalar h)
  | legacy h => exact isUtf8_encode (named_scalar (named_legacy h))
  | number => exact isUtf8_numberText _

/-- **What is read back from a text** is a text. -/
theorem Unescaped.isUtf8 (h : Unescaped t out) : ∀ pre, Utf8.IsUtf8 (pre ++ t) → Utf8.IsUtf8 (pre ++ out) := by
  induction h with
  | nil => exact fun pre h => h
  | @byte c rest out hc _ ih =>
    intro pre h
    have hrest := ih (pre ++ [c]) (by rwa [List.append_assoc])
    rwa [List.append_assoc] at hrest
  | amp hno _ ih =>
    intro pre h
    obtain ⟨hpre, hrest⟩ := (Utf8.isUtf8_at (by decide)).mp h
    exact (Utf8.isUtf8_at (by decide)).mpr ⟨hpre, ih [] hrest⟩
  | reference hr _ _ ih =>
    intro pre h
    obtain ⟨hpre, hrest⟩ := (Utf8.isUtf8_at (by decide)).mp h
    exact hpre.append (hr.isUtf8.append (ih [] (isUtf8_after hr.ascii hrest)))

/-- A reference that is found, read back. -/
theorem Unescaped.of_recognise (hutf : Utf8.IsUtf8 t) (h : recognise t = some (k, v)) (hrest : Unescaped (t.drop k) out) :
    Unescaped (38#8 :: t) (v ++ out) := by
  obtain ⟨hr, hk⟩ := recognise_spec h
  have hmax : ∀ r' v', Recognised r' v' → r' <+: t.take k ++ t.drop k → r'.length ≤ (t.take k).length := by
    rw [List.take_append_drop]
    rintro r' v' hr' ⟨rest', rfl⟩
    obtain ⟨k', v'', hfound, hle⟩ := recognise_longest hr' hutf
    rw [h] at hfound
    cases hfound
    rw [List.length_take]
    omega
  have hread := Unescaped.reference hr hmax hrest
  rwa [List.take_append_drop] at hread

/-- No reference is found where there is none. -/
theorem recognise_none (hno : ∀ r v, Recognised r v → ¬ r <+: t) : recognise t = none := by
  cases h : recognise t with
  | none => rfl
  | some found =>
    obtain ⟨k, v⟩ := found
    exact absurd (List.take_prefix k t) (hno _ _ (recognise_spec h).1)

/-- Every text is read back as something. -/
theorem exists_unescaped : ∀ (t : Bytes) (pre : Bytes), Utf8.IsUtf8 (pre ++ t) → ∃ out, Unescaped t out
  | [], _, _ => ⟨[], .nil⟩
  | c :: rest, pre, h => by
      by_cases hc : c = 38#8
      · subst hc
        obtain ⟨-, hrest⟩ := (Utf8.isUtf8_at (by decide)).mp h
        cases hfound : recognise rest with
        | none =>
          obtain ⟨out, hout⟩ := exists_unescaped rest [] hrest
          refine ⟨_, .amp (fun r v hr hpre => ?_) hout⟩
          obtain ⟨rest', rfl⟩ := hpre
          obtain ⟨k, v', hk, -⟩ := recognise_longest hr hrest
          rw [hfound] at hk
          cases hk
        | some found =>
          obtain ⟨k, v⟩ := found
          obtain ⟨hr, hk⟩ := recognise_spec hfound
          have hdrop : Utf8.IsUtf8 (rest.drop k) := by
            refine isUtf8_after hr.ascii ?_
            rwa [List.take_append_drop]
          obtain ⟨out, hout⟩ := exists_unescaped (rest.drop k) [] hdrop
          exact ⟨_, .of_recognise hrest hfound hout⟩
      · obtain ⟨out, hout⟩ := exists_unescaped rest (pre ++ [c]) (by rwa [List.append_assoc])
        exact ⟨_, .byte hc hout⟩
termination_by t => t.length
decreasing_by all_goals (simp only [List.length_cons, List.length_drop]; omega)

end Aipl.StdHtml
