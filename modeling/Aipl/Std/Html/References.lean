import Aipl.Std.Html.Model

/-! # Character references

* `recognise` — the reference a text begins with, after its `&`, and what it stands for.
* `reference_eq` — the source's scan finds it.
-/

namespace Aipl.StdHtml

open Aipl.Lib Aipl.Lib.Outcome Aipl.StdBuf Aipl.StdBytes
open Aipl.Std (Allocator)

/-! ### The tables -/

theorem names_scalar : ∀ e ∈ names, Utf8.IsScalar e.2 := by
  unfold Utf8.IsScalar
  decide +kernel

/-- A letter or a digit. -/
def nameChar (c : Nat) : Bool := (48 ≤ c ∧ c ≤ 57) ∨ (65 ≤ c ∧ c ≤ 90) ∨ (97 ≤ c ∧ c ≤ 122)

theorem names_chars : (names.all fun e => e.1.toList.all fun c => nameChar c.toNat) = true := by
  decide +kernel

theorem names_length : (names.all fun e => decide (2 ≤ e.1.toList.length ∧ e.1.toList.length ≤ 8)) = true := by
  decide +kernel

theorem legacyNames_sublist : legacyNames.Sublist (names.map Prod.fst) := by
  decide +kernel

theorem replacements_scalar : ∀ e ∈ replacements, Utf8.IsScalar e.2 := by
  unfold Utf8.IsScalar
  decide +kernel

theorem length_ascii (s : String) : (ascii s).length = s.toList.length := List.length_map _

theorem name_length {e : String × Nat} (he : e ∈ names) : 2 ≤ (ascii e.1).length ∧ (ascii e.1).length ≤ 8 := by
  have h := List.all_eq_true.mp names_length e he
  rw [length_ascii]
  exact of_decide_eq_true h

theorem name_char {e : String × Nat} (he : e ∈ names) {c : BitVec 8} (hc : c ∈ ascii e.1) : nameChar c.toNat = true := by
  obtain ⟨ch, hch, rfl⟩ := List.mem_map.mp hc
  have h := List.all_eq_true.mp (List.all_eq_true.mp names_chars e he) ch hch
  have hlt : ch.toNat < 256 := by
    rw [nameChar, decide_eq_true_eq] at h
    omega
  rwa [Utf8.toNat_ofNat_byte hlt]

theorem exists_of_legacy {s : String} (hs : s ∈ legacyNames) : ∃ cp, (s, cp) ∈ names := by
  obtain ⟨⟨s', cp⟩, he, rfl⟩ := List.mem_map.mp (legacyNames_sublist.mem hs)
  exact ⟨cp, he⟩

variable {n t rest b : Bytes} {c : BitVec 8}

theorem named_nonneg (h : 0 ≤ named n) : ∃ e ∈ names, n = ascii e.1 ∧ named n = e.2 := by
  rw [named] at h ⊢
  cases hfind : names.find? fun e => n = ascii e.1 with
  | none =>
    rw [hfind] at h
    exact absurd h (by decide)
  | some e =>
    have hname := List.find?_some hfind
    exact ⟨e, List.mem_of_find?_eq_some hfind, of_decide_eq_true hname, rfl⟩

theorem named_ascii {e : String × Nat} (he : e ∈ names) : 0 ≤ named (ascii e.1) := by
  rw [named]
  cases hfind : names.find? fun e' => ascii e.1 = ascii e'.1 with
  | none =>
    have hnone := List.find?_eq_none.mp hfind e he
    exact absurd (decide_eq_true (Eq.refl (ascii e.1))) hnone
  | some e' => exact Int.natCast_nonneg _

theorem legacy_iff : legacy n = true ↔ ∃ s ∈ legacyNames, n = ascii s := by
  rw [legacy, List.any_eq_true]
  simp only [decide_eq_true_eq]

theorem named_legacy (h : legacy n = true) : 0 ≤ named n := by
  obtain ⟨s, hs, hn⟩ := legacy_iff.mp h
  obtain ⟨cp, he⟩ := exists_of_legacy hs
  rw [hn]
  exact named_ascii (e := (s, cp)) he

theorem replaced_nonneg {v : Nat} (h : 0 ≤ replaced v) : ∃ e ∈ replacements, replaced v = e.2 := by
  rw [replaced] at h ⊢
  cases hfind : replacements.find? fun e => e.1 = v with
  | none =>
    rw [hfind] at h
    exact absurd h (by decide)
  | some e => exact ⟨e, List.mem_of_find?_eq_some hfind, rfl⟩

/-! ### References -/

/-- The bytes of the character a text begins with. -/
def charLen (t : Bytes) : Nat := Utf8.width ((Utf8.read t).getD (0, 0))

/-- The length of the name a text begins with, of up to `k` characters. -/
def nameLen : Nat → Bytes → Nat
  | 0, _ => 0
  | _, [] => 0
  | k + 1, c :: rest => if ends c.toNat then 0 else charLen (c :: rest) + nameLen k ((c :: rest).drop (charLen (c :: rest)))

/-- The longest name without its `;`, of 2 to `m` bytes. -/
def longest (t : Bytes) : Nat → Option Nat
  | 0 => none
  | m + 1 =>
    if 1 ≤ m then
      if (t[m + 1]?.any fun c => c.toNat &&& 192 ≠ 128) ∧ legacy (t.take (m + 1)) then some (m + 1) else longest t m
    else none

/-- The name a text begins with, and what it stands for. -/
def nameOf (t : Bytes) : Option (Nat × Bytes) :=
  let e := nameLen 32 t
  if e = 0 then none
  else
    let semi := t[e]? = some 59#8
    let name := t.take e
    let cp := if semi then named name else if legacy name then named name else -1
    if 0 ≤ cp then some (if semi then e + 1 else e, Utf8.encode cp.toNat)
    else (longest t (if semi then e else e - 1)).map fun m => (m, Utf8.encode (named (t.take m)).toNat)

/-- A digit of a number. -/
def digit (hex : Bool) (c : Nat) : Bool := if hex then 0 ≤ hexValue c else isDigit c

def digitValue (hex : Bool) (c : Nat) : Nat := if hex then (hexValue c).toNat else c - 48

/-- The number so far, which stops growing past U+10FFFF. -/
def grown (hex : Bool) (v : Nat) (c : BitVec 8) : Nat :=
  if v ≤ 1114111 then v * (if hex then 16 else 10) + digitValue hex c.toNat else v

/-- What a number stands for. -/
def numberText (v : Nat) : Bytes :=
  if 0 ≤ replaced v then Utf8.encode (replaced v).toNat
  else if (55296 ≤ v ∧ v ≤ 57343) ∨ 1114111 < v then Utf8.encode 65533
  else if invalid v then []
  else Utf8.encode v

/-- The number a text begins with, after its `#`, and what it stands for. -/
def numberOf (t : Bytes) : Option (Nat × Bytes) :=
  let hex := t.head?.any fun c => c.toNat = 120 ∨ c.toNat = 88
  let start := if hex then 1 else 0
  let ds := (t.drop start).takeWhile fun c => digit hex c.toNat
  if ds = [] then none
  else
    let p := start + ds.length
    some (if t[p]? = some 59#8 then p + 1 else p, numberText (ds.foldl (grown hex) 0))

/-- The reference a text begins with, after its `&`: its length, and what it stands for. -/
def recognise (t : Bytes) : Option (Nat × Bytes) :=
  if t.head? = some 35#8 then (numberOf t.tail).map fun r => (r.1 + 1, r.2) else nameOf t

section Buffer

variable {σ : Type} {A : Allocator σ} {fuel i : Nat} {o : Content σ}

theorem charLen_eq (c : BitVec 8) (rest : Bytes) :
    charLen (c :: rest) = (StdUtf8.step (StdUtf8.charOf c (Utf8.read (c :: rest)))).toNat := by
  rw [StdUtf8.toNat_step, StdUtf8.item_charOf, charLen]
  cases Utf8.read (c :: rest) <;> rfl

/-- A character is no longer than the text. -/
theorem charLen_le (c : BitVec 8) (rest : Bytes) : charLen (c :: rest) ≤ (c :: rest).length := by
  rw [charLen]
  cases hread : Utf8.read (c :: rest) with
  | none => exact Nat.succ_le_of_lt (Nat.succ_pos _)
  | some r =>
    obtain ⟨cp, k⟩ := r
    obtain ⟨-, -, hk⟩ := Utf8.read_sound hread
    have hpos := Utf8.read_width_pos hread
    have hlen := congrArg List.length (Utf8.read_eq_append hread)
    rw [List.length_append, ← hk] at hlen
    rw [Option.getD_some, Utf8.width, if_neg (by omega)]
    omega

/-- **The loop over a name.** -/
theorem nameLoop_eq (hb : b.length + 8 < 2 ^ 31) : ∀ (k : Nat) {i : Nat} {t : Bytes} {f : Nat}, k ≤ 32 → b.drop i = t →
    i ≤ b.length → k < f → iterate (nameRound b) f (i, 32 - k) = done (i + nameLen k t)
  | 0, i, t, f + 1, _, _, _, _ => by
      rw [iterate, nameRound, if_neg (by omega), nameLen]
      rfl
  | k + 1, i, [], f + 1, hk, ht, hi, _ => by
      have hlen := congrArg List.length ht
      rw [List.length_drop, List.length_nil] at hlen
      rw [iterate, nameRound, if_neg (by omega)]
      rfl
  | k + 1, i, c :: rest, f + 1, hk, ht, hi, hfuel => by
      have hlen := congrArg List.length ht
      rw [List.length_drop, List.length_cons] at hlen
      have hi32 : (BitVec.ofNat 32 i).toNat = i := toNat_ofNat_of_lt (by omega)
      have hdecode := StdUtf8.decode_eq (i := BitVec.ofNat 32 i) hb (by rw [hi32]; exact ht)
      rw [iterate, nameRound, if_pos (by omega), byteAt_drop ht, done_bind, nameLen]
      by_cases hc : ends c.toNat = true
      · rw [if_pos hc, if_pos hc]
        rfl
      · have hle := charLen_le c rest
        rw [List.length_cons] at hle
        rw [if_neg hc, if_neg hc, hdecode, done_bind, ← charLen_eq]
        have hrest := nameLoop_eq hb k (i := i + charLen (c :: rest)) (t := (c :: rest).drop (charLen (c :: rest))) (f := f)
          (by omega) (by rw [← List.drop_drop, ht]) (by omega) (by omega)
        rw [show 32 - (k + 1) + 1 = 32 - k by omega, ← Nat.add_assoc]
        exact hrest

theorem encode_scalar {k : Nat} (hk : Utf8.IsScalar k) :
    StdUtf8.encode A fuel o (BitVec.ofNat 32 k) = pushAll A fuel o (Utf8.encode k) := by
  have hnat : (BitVec.ofNat 32 k).toNat = k := toNat_ofNat_of_lt (by have := hk.1; omega)
  rw [StdUtf8.encode_eq ((StdUtf8.scalar_eq _).mpr (by rwa [hnat])), hnat]

theorem encode_named {cp : Int} (hcp : 0 ≤ cp) (hscalar : Utf8.IsScalar cp.toNat) :
    StdUtf8.encode A fuel o (BitVec.ofInt 32 cp) = pushAll A fuel o (Utf8.encode cp.toNat) := by
  obtain ⟨k, rfl⟩ := Int.eq_ofNat_of_zero_le hcp
  rw [BitVec.ofInt_natCast]
  exact encode_scalar hscalar

theorem named_scalar (h : 0 ≤ named n) : Utf8.IsScalar (named n).toNat := by
  obtain ⟨e, he, -, hcp⟩ := named_nonneg h
  rw [hcp]
  exact names_scalar e he

theorem replaced_scalar {v : Nat} (h : 0 ≤ replaced v) : Utf8.IsScalar (replaced v).toNat := by
  obtain ⟨e, he, hcp⟩ := replaced_nonneg h
  rw [hcp]
  exact replacements_scalar e he

/-- **The loop** that looks for the longest name without its `;`. -/
theorem prefixLoop_eq {t : Bytes} (hb : b.length + 8 < 2 ^ 31) (ht : b.drop i = t) : ∀ (m : Nat) {f : Nat}, m < t.length → m < f →
    iterate (prefixRound A fuel o b i) f (i + m) = match longest t m with
      | some k => pushAll A fuel o (Utf8.encode (named (t.take k)).toNat) >>= fun o => done (some (o, i + k))
      | none => done none
  | 0, f + 1, _, _ => by
      rw [iterate, prefixRound, if_neg (by omega)]
      rfl
  | m + 1, f + 1, hm, hfuel => by
      rw [iterate, prefixRound, longest]
      by_cases h1 : 1 ≤ m
      · have hlen := congrArg List.length ht
        rw [List.length_drop] at hlen
        have hget := List.getElem?_eq_getElem hm
        have hbyte : byteAt b (i + (m + 1)) = done t[m + 1].toNat := byteAt_eq (by rw [← List.getElem?_drop, ht, hget])
        have hrest := prefixLoop_eq hb ht m (f := f) (by omega) (by omega)
        rw [if_pos (by omega), if_pos h1, hbyte, done_bind, hget, Option.any_some]
        by_cases hc : t[m + 1].toNat &&& 192 ≠ 128
        · rw [if_pos hc, Nat.add_sub_cancel_left, slice_eq (by omega), ht, done_bind]
          by_cases hl : legacy (t.take (m + 1)) = true
          · have hcp := named_legacy hl
            rw [if_pos hl, if_pos ⟨decide_eq_true hc, hl⟩, encode_named hcp (named_scalar hcp)]
            dsimp only
            rw [bind_assoc]
            rfl
          · rw [if_neg hl, if_neg (fun h => hl h.2)]
            exact hrest
        · rw [if_neg hc, if_neg (fun h => hc (of_decide_eq_true h.1))]
          exact hrest
      · rw [if_neg (by omega), if_neg h1]
        rfl

/-! ### Numbers -/

/-- **The loop over digits.** -/
theorem numberLoop_eq (hex : Bool) : ∀ {t : Bytes} {p v f : Nat}, b.drop p = t → t.length < f →
    iterate (numericRound b hex) f (p, v) = done (p + (t.takeWhile fun c => digit hex c.toNat).length,
      (t.takeWhile fun c => digit hex c.toNat).foldl (grown hex) v)
  | [], p, v, f + 1, ht, _ => by
      have hlen := congrArg List.length ht
      rw [List.length_drop, List.length_nil] at hlen
      rw [iterate, numericRound, if_neg (by omega)]
      rfl
  | c :: t, p, v, f + 1, ht, hfuel => by
      have hlen := congrArg List.length ht
      rw [List.length_drop, List.length_cons] at hlen
      have hdigit : (if hex then 0 ≤ hexValue c.toNat else isDigit c.toNat = true) ↔ digit hex c.toNat = true := by
        cases hex <;> simp [digit]
      rw [iterate, numericRound, if_pos (by omega), byteAt_drop ht, done_bind, List.takeWhile_cons]
      by_cases hc : digit hex c.toNat = true
      · have hrest := numberLoop_eq hex (p := p + 1) (v := grown hex v c) (drop_succ ht) (Nat.lt_of_succ_lt_succ hfuel)
        rw [if_pos (hdigit.mpr hc), if_pos hc, List.length_cons, List.foldl_cons, ← Nat.add_assoc, Nat.add_right_comm]
        exact hrest
      · rw [if_neg (mt hdigit.mp hc), if_neg hc]
        rfl

/-- **What is written for a number.** -/
theorem numberText_eq (v : Nat) :
    (if 0 ≤ replaced v then StdUtf8.encode A fuel o (BitVec.ofInt 32 (replaced v))
      else if (55296 ≤ v ∧ v ≤ 57343) ∨ 1114111 < v then StdUtf8.encode A fuel o 65533#32
      else if invalid v then pure o
      else StdUtf8.encode A fuel o (BitVec.ofNat 32 v) : Outcome (Content σ)) = pushAll A fuel o (numberText v) := by
  rw [numberText]
  by_cases hr : 0 ≤ replaced v
  · rw [if_pos hr, if_pos hr, encode_named hr (replaced_scalar hr)]
  · rw [if_neg hr, if_neg hr]
    by_cases hs : (55296 ≤ v ∧ v ≤ 57343) ∨ 1114111 < v
    · rw [if_pos hs, if_pos hs]
      exact encode_scalar (k := 65533) ⟨by decide, by decide⟩
    · rw [if_neg hs, if_neg hs]
      cases invalid v with
      | true => rfl
      | false =>
        rw [if_neg Bool.false_ne_true, if_neg Bool.false_ne_true]
        exact encode_scalar ⟨by omega, by omega⟩

/-- **A numeric reference.** -/
theorem numeric_eq {t : Bytes} (ht : b.drop i = t) (hi : i ≤ b.length) (hfuel : b.length < fuel) :
    numeric A fuel o b i = match numberOf t with
      | some (k, v) => pushAll A fuel o v >>= fun o => done (o, i + k)
      | none => pushAll A fuel o [38#8] >>= fun o => done (o, i - 1) := by
  have hlen := congrArg List.length ht
  rw [List.length_drop] at hlen
  have hhex : (if i < b.length then do
      let c ← byteAt b i
      pure (decide (c = 120 ∨ c = 88))
    else pure false : Outcome Bool) = done (t.head?.any fun c => c.toNat = 120 ∨ c.toNat = 88) := by
    cases t with
    | nil =>
      rw [List.length_nil] at hlen
      rw [if_neg (by omega)]
      rfl
    | cons c t =>
      rw [List.length_cons] at hlen
      rw [if_pos (by omega), byteAt_drop ht]
      rfl
  rw [numeric, hhex, done_bind, numberOf]
  generalize hh : (t.head?.any fun c => decide (c.toNat = 120 ∨ c.toNat = 88)) = hex
  have hstart : (if hex then i + 1 else i) = i + if hex then 1 else 0 := by cases hex <;> rfl
  have hstart_le : (if hex then 1 else 0) ≤ t.length := by
    cases hex with
    | false => exact Nat.zero_le _
    | true =>
      cases t with
      | nil => cases hh
      | cons c t => exact Nat.succ_le_of_lt (Nat.succ_pos _)
  have hdrop : b.drop (i + if hex then 1 else 0) = t.drop (if hex then 1 else 0) := by rw [← List.drop_drop, ht]
  have hloop := numberLoop_eq hex (v := 0) (f := fuel) hdrop (by rw [List.length_drop]; omega)
  dsimp only
  generalize hs : (if hex then 1 else 0) = start at hstart hstart_le hdrop hloop ⊢
  generalize hds : ((t.drop start).takeWhile fun c => digit hex c.toNat) = ds at hloop ⊢
  have hds_le : ds.length ≤ t.length - start := by
    rw [← hds, ← List.length_drop]
    exact (List.takeWhile_prefix _).length_le
  rw [hstart, hloop, done_bind]
  dsimp only
  by_cases hnil : ds = []
  · rw [if_pos hnil, hnil, List.length_nil, Nat.add_zero, if_pos rfl, ← pushAll_one (x := 38#8) (y := 38#32) rfl]
    rfl
  · have hpos := List.length_pos_iff.mpr hnil
    have hsemi : (if i + start + ds.length < b.length then do
        pure (if (← byteAt b (i + start + ds.length)) = 59 then i + start + ds.length + 1 else i + start + ds.length)
      else pure (i + start + ds.length) : Outcome Nat) =
        done (if t[start + ds.length]? = some 59#8 then i + start + ds.length + 1 else i + start + ds.length) := by
      have hget : b[i + start + ds.length]? = t[start + ds.length]? := by
        rw [← ht, List.getElem?_drop, Nat.add_assoc]
      by_cases hlt : i + start + ds.length < b.length
      · have hc := List.getElem?_eq_getElem hlt
        have h59 : b[i + start + ds.length].toNat = 59 ↔ t[start + ds.length]? = some 59#8 := by
          rw [← hget, hc, Option.some_inj]
          exact ⟨fun h => BitVec.eq_of_toNat_eq h, fun h => by rw [h]; rfl⟩
        rw [if_pos hlt, byteAt_eq hc, done_bind]
        exact congrArg done (if_congr h59 rfl rfl)
      · rw [if_neg hlt, if_neg]
        · rfl
        · rw [← hget, List.getElem?_eq_none (Nat.le_of_not_lt hlt)]
          exact fun h => by cases h
    rw [if_neg (by omega), if_neg hnil, hsemi, done_bind, numberText_eq]
    dsimp only
    congr
    funext o'
    rw [pure_eq]
    congr 2
    split <;> omega

/-! ### Names -/

theorem nameLen_le : ∀ (k : Nat) (t : Bytes), nameLen k t ≤ t.length
  | 0, _ => Nat.zero_le _
  | _ + 1, [] => Nat.zero_le _
  | k + 1, c :: rest => by
      rw [nameLen]
      split
      · exact Nat.zero_le _
      · have hle := charLen_le c rest
        have hrest := nameLen_le k ((c :: rest).drop (charLen (c :: rest)))
        rw [List.length_drop] at hrest
        omega

/-- **A reference.** -/
theorem reference_eq {t : Bytes} (hb : b.length + 8 < 2 ^ 31) (ht : b.drop i = t) (hi : i ≤ b.length)
    (hfuel : b.length + 32 < fuel) : reference A fuel o b i = match recognise t with
      | some (k, v) => pushAll A fuel o v >>= fun o => done (o, i + k)
      | none => pushAll A fuel o [38#8] >>= fun o => done (o, i) := by
  have hlen := congrArg List.length ht
  rw [List.length_drop] at hlen
  have hbyte : ∀ (k x : Nat), x < 256 → (if i + k < b.length then do pure (decide ((← byteAt b (i + k)) = x)) else pure false : Outcome Bool) =
      done (decide (t[k]? = some (BitVec.ofNat 8 x))) := by
    intro k x hx
    have hget : b[i + k]? = t[k]? := by rw [← ht, List.getElem?_drop]
    by_cases hlt : i + k < b.length
    · have hc := List.getElem?_eq_getElem hlt
      rw [if_pos hlt, byteAt_eq hc, done_bind, pure_eq, ← hget, hc]
      refine congrArg done (decide_eq_decide.mpr ?_)
      rw [Option.some_inj, ← BitVec.toNat_inj, Utf8.toNat_ofNat_byte hx]
    · rw [if_neg hlt, ← hget, List.getElem?_eq_none (Nat.le_of_not_lt hlt)]
      rfl
  have hfirst := hbyte 0 35 (by decide)
  rw [Nat.add_zero] at hfirst
  have hpush : (do let o ← o.pushByte A fuel 38#32; pure (o, i) : Outcome (Content σ × Nat)) =
      pushAll A fuel o [38#8] >>= fun o => done (o, i) := by
    rw [pushAll_one (x := 38#8) (y := 38#32) rfl]
    rfl
  rw [reference, hfirst, done_bind, recognise, List.head?_eq_getElem?]
  by_cases hnumber : t[0]? = some 35#8
  · obtain ⟨c, t', rfl⟩ : ∃ c t', t = c :: t' := by
      cases t with
      | nil => cases hnumber
      | cons c t' => exact ⟨c, t', rfl⟩
    rw [List.length_cons] at hlen
    rw [if_pos hnumber, if_pos (decide_eq_true hnumber), numeric_eq (drop_succ ht) (by omega) (by omega),
      List.tail_cons, Nat.add_sub_cancel]
    cases numberOf t' with
    | none => rfl
    | some r =>
      obtain ⟨k, v⟩ := r
      dsimp only [Option.map_some]
      rw [show i + 1 + k = i + (k + 1) by omega]
  · have hloop := nameLoop_eq hb 32 (f := fuel) le_rfl ht hi (by omega)
    have hle := nameLen_le 32 t
    rw [if_neg hnumber, if_neg (by rw [decide_eq_true_eq]; exact hnumber), hloop, done_bind, nameOf]
    generalize nameLen 32 t = e at hle ⊢
    dsimp only
    by_cases he : e = 0
    · rw [if_pos (by omega), if_pos he, hpush]
    · rw [if_neg (by omega), if_neg he, hbyte e 59 (by decide), done_bind, Nat.add_sub_cancel_left, slice_eq (by omega), ht,
        done_bind]
      have hcp : (if decide (t[e]? = some 59#8) = true then named (t.take e) else if legacy (t.take e) then named (t.take e) else -1) =
          if t[e]? = some 59#8 then named (t.take e) else if legacy (t.take e) then named (t.take e) else -1 :=
        if_congr (by rw [decide_eq_true_eq]) rfl rfl
      have hscalar : ∀ cp : Int, (cp = if t[e]? = some 59#8 then named (t.take e) else if legacy (t.take e) then named (t.take e) else -1) →
          0 ≤ cp → Utf8.IsScalar cp.toNat := by
        rintro cp rfl h
        split at h
        · rw [if_pos (by assumption)]
          exact named_scalar h
        · rw [if_neg (by assumption)]
          split at h
          · rw [if_pos (by assumption)]
            exact named_scalar h
          · exact absurd h (by decide)
      rw [hcp]
      generalize hgen : (if t[e]? = some 59#8 then named (t.take e) else if legacy (t.take e) then named (t.take e) else -1) = cp
      by_cases hnonneg : 0 ≤ cp
      · rw [if_pos hnonneg, if_pos hnonneg, encode_named hnonneg (hscalar cp hgen.symm hnonneg)]
        dsimp only
        congr
        funext o'
        rw [pure_eq]
        congr 2
        by_cases hsemi : t[e]? = some 59#8
        · rw [if_pos (decide_eq_true hsemi), if_pos hsemi, Nat.add_assoc]
        · rw [if_neg (by rw [decide_eq_true_eq]; exact hsemi), if_neg hsemi]
      · have hstart : (if decide (t[e]? = some 59#8) = true then i + e else i + e - 1) =
            i + if t[e]? = some 59#8 then e else e - 1 := by
          by_cases hsemi : t[e]? = some 59#8
          · rw [if_pos (decide_eq_true hsemi), if_pos hsemi]
          · rw [if_neg (by rw [decide_eq_true_eq]; exact hsemi), if_neg hsemi, Nat.add_sub_assoc (Nat.one_le_iff_ne_zero.mpr he)]
        have hlt : (if t[e]? = some 59#8 then e else e - 1) < t.length := by
          by_cases hsemi : t[e]? = some 59#8
          · rw [if_pos hsemi]
            exact (List.getElem?_eq_some_iff.mp hsemi).1
          · rw [if_neg hsemi]
            omega
        rw [if_neg hnonneg, if_neg hnonneg, hstart, prefixLoop_eq hb ht _ hlt (by omega)]
        cases longest t (if t[e]? = some 59#8 then e else e - 1) with
        | none => exact hpush
        | some k =>
          dsimp only [Option.map_some]
          rw [bind_assoc]
          rfl

end Buffer

end Aipl.StdHtml
