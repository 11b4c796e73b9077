import Aipl.Net.Connect
import Aipl.Lib.Utf8
import Aipl.Lib.Wasm.Ints
import Aipl.Std.Str.Bytes

/-! # Host names

`std/ip`'s `is_host_name`, which reads a text in one scan, beside the splits of `net.rs`.  The one takes one final dot off a
name, the other all of them.

* `isHostName_scan` — the scan's answer.
* `namesFrom_labels` — the scan, as the labels of a split.
* `isHostName_iff` — the two beside each other.
-/

namespace Aipl.StdIp

open Aipl.Lib Aipl.Lib.Outcome Aipl.StdBytes

abbrev Bytes := List (BitVec 8)

/-! ### The source's functions -/

/-- A round of the loop of `is_host_name`: the place, where the label starts, and whether it is all digits so far. -/
def nameRound (t : Bytes) (end_ : Nat) (s : Nat × Nat × Bool) : Outcome (Nat × Nat × Bool ⊕ Bool) :=
  let (i, start, allDigits) := s
  if i < end_ + 1 then do
    let c ← (if i < end_ then byteAt t i else pure 46 : Outcome Nat)
    if c = 46 then
      let len := i - start
      if len = 0 ∨ 63 < len then pure (.inr false)
      else do
        let first ← byteAt t start
        let dashed ← (if first = 45 then pure true else do pure (decide ((← byteAt t (i - 1)) = 45)) : Outcome Bool)
        if dashed then pure (.inr false)
        else if i = end_ then pure (.inr !allDigits)
        else pure (.inl (i + 1, i + 1, true))
    else if 48 ≤ c ∧ c ≤ 57 then pure (.inl (i + 1, start, allDigits))
    else if 65 ≤ c ∧ c ≤ 90 ∨ 97 ≤ c ∧ c ≤ 122 ∨ c = 45 then pure (.inl (i + 1, start, false))
    else pure (.inr false)
  else pure (.inr false)

def isHostName (fuel : Nat) (t : Bytes) : Outcome Bool :=
  let n := t.length
  if n = 0 ∨ 253 < n then pure false
  else do
    let last ← byteAt t (n - 1)
    let end_ := if last = 46 then n - 1 else n
    if end_ = 0 then pure false else iterate (nameRound t end_) fuel (0, 0, true)

/-! ### The scan -/

def isDigitByte (c : BitVec 8) : Bool := decide (48 ≤ c.toNat ∧ c.toNat ≤ 57)

/-- A letter, a digit or a dash. -/
def nameByte (c : BitVec 8) : Bool :=
  isDigitByte c || decide (65 ≤ c.toNat ∧ c.toNat ≤ 90 ∨ 97 ≤ c.toNat ∧ c.toNat ≤ 122 ∨ c.toNat = 45)

/-- The length of a label, and its ends. -/
def labelEnds (l : Bytes) : Bool :=
  decide (0 < l.length ∧ l.length ≤ 63 ∧ l.head? ≠ some 45#8 ∧ l.getLast? ≠ some 45#8)

/-- The scan from a place on, with what it has of a label. -/
def namesFrom : Bytes → Bytes → Bool
  | l, [] => labelEnds l && !l.all isDigitByte
  | l, c :: rest => if c.toNat = 46 then labelEnds l && namesFrom [] rest else nameByte c && namesFrom (l ++ [c]) rest

variable {p l rest tail t : Bytes} {c : BitVec 8} {end_ fuel : Nat} {d : Bool}

theorem byteAt_append (p : Bytes) (c : BitVec 8) (rest : Bytes) : byteAt (p ++ c :: rest) p.length = done c.toNat :=
  byteAt_eq (by simp)

theorem toNat_eq_45 (c : BitVec 8) : c.toNat = 45 ↔ c = 45#8 :=
  ⟨fun h => BitVec.eq_of_toNat_eq h, fun h => by rw [h]; rfl⟩

/-- At the end of a label. -/
theorem nameRound_dot (hend : p.length + l.length < end_ + 1)
    (hc : (if p.length + l.length < end_ then byteAt (p ++ (l ++ rest)) (p.length + l.length) else pure 46 : Outcome Nat) = done 46) :
    nameRound (p ++ (l ++ rest)) end_ (p.length + l.length, p.length, d) =
      done (if labelEnds l then if p.length + l.length = end_ then .inr !d else
        .inl (p.length + l.length + 1, p.length + l.length + 1, true) else .inr false) := by
  rw [nameRound]
  dsimp only
  rw [if_pos hend, hc, done_bind, if_pos rfl, Nat.add_sub_cancel_left]
  by_cases hlen : l.length = 0 ∨ 63 < l.length
  · rw [if_pos hlen, labelEnds, if_neg]
    · rfl
    · rw [decide_eq_true_eq]
      omega
  · rw [if_neg hlen]
    obtain ⟨c₀, l₀, rfl⟩ := List.exists_cons_of_length_pos (show 0 < l.length by omega)
    have hfirst : byteAt (p ++ (c₀ :: l₀ ++ rest)) p.length = done c₀.toNat := byteAt_append p c₀ (l₀ ++ rest)
    obtain ⟨c₁, hc₁⟩ : ∃ c₁, (c₀ :: l₀).getLast? = some c₁ := ⟨_, List.getLast?_eq_some_getLast (List.cons_ne_nil c₀ l₀)⟩
    obtain ⟨l₁, hl₁⟩ := List.getLast?_eq_some_iff.mp hc₁
    have hlast : byteAt (p ++ (c₀ :: l₀ ++ rest)) (p.length + (c₀ :: l₀).length - 1) = done c₁.toNat := by
      rw [hl₁, List.append_assoc, ← List.append_assoc p, List.length_append, List.length_singleton,
        show p.length + (l₁.length + 1) - 1 = (p ++ l₁).length by rw [List.length_append]; omega]
      exact byteAt_append (p ++ l₁) c₁ rest
    rw [hfirst, done_bind, hlast]
    have hends : labelEnds (c₀ :: l₀) = !(decide (c₀.toNat = 45) || decide (c₁.toNat = 45)) := by
      have hsome : (some c₀ = some 45#8) = (c₀.toNat = 45) := by rw [Option.some_inj, toNat_eq_45]
      have hsome₁ : (some c₁ = some 45#8) = (c₁.toNat = 45) := by rw [Option.some_inj, toNat_eq_45]
      rw [labelEnds, hc₁, List.head?_cons]
      simp only [ne_eq, hsome, hsome₁]
      grind
    rw [hends]
    by_cases h0 : c₀.toNat = 45
    · simp [h0]
    · by_cases h1 : c₁.toNat = 45
      · simp [h0, h1]
      · simp only [h0, h1, if_false, decide_false, pure_eq, done_bind, Bool.or_self, Bool.not_false, Bool.false_eq_true, if_true]
        split <;> rfl

/-- In a label. -/
theorem nameRound_in (hc : c.toNat ≠ 46) (hend : p.length + l.length < end_) :
    nameRound (p ++ (l ++ (c :: rest))) end_ (p.length + l.length, p.length, l.all isDigitByte) =
      done (if nameByte c then .inl (p.length + (l ++ [c]).length, p.length, (l ++ [c]).all isDigitByte) else .inr false) := by
  have hget : byteAt (p ++ (l ++ (c :: rest))) (p.length + l.length) = done c.toNat := by
    rw [← List.append_assoc, ← List.length_append]
    exact byteAt_append (p ++ l) c rest
  rw [nameRound]
  dsimp only
  rw [if_pos (Nat.lt_succ_of_lt hend), if_pos hend, hget, done_bind, if_neg hc, List.length_append, List.all_append,
    List.length_singleton, ← Nat.add_assoc, List.all_cons, List.all_nil, Bool.and_true, nameByte, isDigitByte]
  by_cases hdigit : 48 ≤ c.toNat ∧ c.toNat ≤ 57
  · simp [hdigit]
  · rw [if_neg hdigit]
    by_cases hletter : 65 ≤ c.toNat ∧ c.toNat ≤ 90 ∨ 97 ≤ c.toNat ∧ c.toNat ≤ 122 ∨ c.toNat = 45
    · simp [hdigit, hletter]
    · simp [hdigit, hletter]

/-- **The loop**, from a place on. -/
theorem nameLoop_eq (tail : Bytes) : ∀ (rest p l : Bytes) (fuel : Nat), rest.length < fuel →
    iterate (nameRound (p ++ (l ++ (rest ++ tail))) (p.length + (l.length + rest.length))) fuel
      (p.length + l.length, p.length, l.all isDigitByte) = done (namesFrom l rest)
  | [], p, l, fuel + 1, _ => by
      rw [iterate, nameRound_dot (by rw [List.length_nil]; omega) (if_neg (by rw [List.length_nil]; omega)), done_bind, namesFrom]
      cases labelEnds l with
      | true => simp
      | false => simp
  | c :: rest, p, l, fuel + 1, hfuel => by
      rw [List.length_cons] at hfuel ⊢
      have hlt : p.length + l.length < p.length + (l.length + (rest.length + 1)) := by omega
      rw [iterate, namesFrom, List.cons_append]
      by_cases hc : c.toNat = 46
      · have hget : byteAt (p ++ (l ++ (c :: (rest ++ tail)))) (p.length + l.length) = done c.toNat := by
          rw [← List.append_assoc, ← List.length_append]
          exact byteAt_append (p ++ l) c _
        rw [nameRound_dot (Nat.lt_succ_of_lt hlt) (by rw [if_pos hlt, hget, hc]), done_bind, if_pos hc, if_neg hlt.ne]
        cases labelEnds l with
        | true =>
          have hrest := nameLoop_eq tail rest (p ++ (l ++ [c])) [] fuel (by omega)
          rw [List.length_append, List.length_append, List.length_singleton, List.length_nil, Nat.add_zero, Nat.zero_add,
            List.append_assoc, List.append_assoc, List.nil_append, List.singleton_append] at hrest
          rw [show p.length + (l.length + (rest.length + 1)) = p.length + (l.length + 1) + rest.length by omega]
          exact hrest
        | false => rfl
      · rw [nameRound_in hc hlt, done_bind, if_neg hc]
        cases nameByte c with
        | true =>
          have hrest := nameLoop_eq tail rest p (l ++ [c]) fuel (by omega)
          rw [List.length_append, List.length_singleton, List.append_assoc, List.singleton_append,
            show l.length + 1 + rest.length = l.length + (rest.length + 1) by omega] at hrest
          rw [List.length_append, List.length_singleton]
          exact hrest
        | false => rfl

/-- A text without one final dot. -/
def undotted (t : Bytes) : Bytes := if t.getLast? = some 46#8 then t.dropLast else t

/-- **`is_host_name`**, as the scan of the text without one final dot. -/
theorem isHostName_scan (hfuel : t.length < fuel) :
    isHostName fuel t = done (decide (t.length ≤ 253) && namesFrom [] (undotted t)) := by
  rw [isHostName]
  rcases List.eq_nil_or_concat' t with rfl | ⟨l, c, rfl⟩
  · rfl
  · have hlen : (l ++ [c]).length = l.length + 1 := by rw [List.length_append, List.length_singleton]
    have hlast : byteAt (l ++ [c]) ((l ++ [c]).length - 1) = done c.toNat := by
      rw [hlen, Nat.add_sub_cancel]
      exact byteAt_append l c []
    by_cases hlong : 253 < (l ++ [c]).length
    · rw [if_pos (.inr hlong), decide_eq_false (by omega)]
      rfl
    · rw [if_neg (by omega), hlast, done_bind, decide_eq_true (by omega), Bool.true_and, undotted, List.getLast?_concat,
        List.dropLast_concat, hlen, Nat.add_sub_cancel]
      have hdot : c.toNat = 46 ↔ some c = some 46#8 := by
        rw [Option.some_inj]
        exact ⟨fun h => BitVec.eq_of_toNat_eq h, fun h => by rw [h]; rfl⟩
      by_cases hc : c.toNat = 46
      · rw [if_pos hc, if_pos (hdot.mp hc)]
        by_cases hnil : l.length = 0
        · obtain rfl := List.eq_nil_of_length_eq_zero hnil
          rfl
        · have hloop := nameLoop_eq [c] l [] [] fuel (by omega)
          rw [if_neg hnil]
          simpa using hloop
      · have hloop := nameLoop_eq [] (l ++ [c]) [] [] fuel (by omega)
        rw [if_neg hc, if_neg (mt hdot.mpr hc), if_neg (Nat.succ_ne_zero _)]
        simpa using hloop

/-! ### As labels -/

/-- The bytes of a text. -/
def bytes (s : List Char) : Bytes := s.flatMap fun c => Utf8.encode c.toNat

/-- A character of a label. -/
def nameChar (c : Char) : Bool := c.isAlphanum || c == '-'

/-- What `net.rs` asks of labels. -/
def okLabels (ls : List (List Char)) : Bool := !(ls.getLast?.any fun l => l.all Char.isDigit) && ls.all Net.labelOk

variable {s l' : List Char} {ch : Char}

theorem labelsOk_eq (s : List Char) : Net.labelsOk s = okLabels (Net.labels s) := rfl

theorem bytes_cons (ch : Char) (s : List Char) : bytes (ch :: s) = Utf8.encode ch.toNat ++ bytes s := List.flatMap_cons

theorem bytes_append (s s' : List Char) : bytes (s ++ s') = bytes s ++ bytes s' := List.flatMap_append

theorem encode_ascii (h : ch.toNat < 128) : Utf8.encode ch.toNat = [BitVec.ofNat 8 ch.toNat] := by rw [Utf8.encode, if_pos h]

theorem encode_wide (h : 128 ≤ ch.toNat) : ∃ b r, Utf8.encode ch.toNat = b :: r ∧ 128 ≤ b.toNat := by
  rw [Utf8.encode, if_neg (by omega)]
  have hmax : ch.toNat < 1114112 := by
    rcases ch.valid with hlow | ⟨-, hhigh⟩
    · exact Nat.lt_trans hlow (by decide)
    · exact hhigh
  split
  · exact ⟨_, _, rfl, by rw [BitVec.toNat_ofNat]; omega⟩
  · split
    · exact ⟨_, _, rfl, by rw [BitVec.toNat_ofNat]; omega⟩
    · exact ⟨_, _, rfl, by rw [BitVec.toNat_ofNat]; omega⟩

theorem isScalar_char (ch : Char) : Utf8.IsScalar ch.toNat := by
  rcases ch.valid with hlow | ⟨hmid, hhigh⟩
  · have h : ch.toNat < 0xD800 := hlow
    exact ⟨by omega, by omega⟩
  · have h : 0xDFFF < ch.toNat := hmid
    have h' : ch.toNat < 0x110000 := hhigh
    exact ⟨by omega, by omega⟩

theorem length_encode_char (ch : Char) : (Utf8.encode ch.toNat).length = ch.utf8Size := by
  rw [Utf8.encode, Char.utf8Size]
  simp only [UInt32.le_iff_toNat_le, Char.toNat_val, UInt32.toNat_ofNatLT]
  by_cases h128 : ch.toNat < 128
  · rw [if_pos h128, if_pos (Nat.le_of_lt_succ h128)]
    rfl
  rw [if_neg h128, if_neg (mt Nat.lt_succ_of_le h128)]
  by_cases h2048 : ch.toNat < 2048
  · rw [if_pos h2048, if_pos (Nat.le_of_lt_succ h2048)]
    rfl
  rw [if_neg h2048, if_neg (mt Nat.lt_succ_of_le h2048)]
  by_cases h65536 : ch.toNat < 65536
  · rw [if_pos h65536, if_pos (Nat.le_of_lt_succ h65536)]
    rfl
  rw [if_neg h65536, if_neg (mt Nat.lt_succ_of_le h65536)]
  rfl

theorem length_bytes (s : List Char) : (bytes s).length = Net.byteLen s := by
  rw [bytes, List.length_flatMap, Net.byteLen]
  simp only [length_encode_char]

theorem nameChar_iff : nameChar ch = true ↔ (65 ≤ ch.toNat ∧ ch.toNat ≤ 90) ∨ (97 ≤ ch.toNat ∧ ch.toNat ≤ 122) ∨
    (48 ≤ ch.toNat ∧ ch.toNat ≤ 57) ∨ ch.toNat = 45 := by
  have hdash : ch = '-' ↔ ch.toNat = 45 := by
    rw [← Char.toNat_inj]
    rfl
  rw [nameChar, Bool.or_eq_true, Net.isAlphanum_iff, beq_iff_eq, hdash]
  tauto

theorem nameByte_asByte (h : ch.toNat < 128) : nameByte (BitVec.ofNat 8 ch.toNat) = nameChar ch := by
  have hnat : (BitVec.ofNat 8 ch.toNat).toNat = ch.toNat := Utf8.toNat_ofNat_byte (by omega)
  rw [Bool.eq_iff_iff, nameChar_iff, nameByte, isDigitByte, hnat, Bool.or_eq_true, decide_eq_true_eq, decide_eq_true_eq]
  tauto

theorem isDigitByte_asByte (h : ch.toNat < 128) : isDigitByte (BitVec.ofNat 8 ch.toNat) = ch.isDigit := by
  have hnat : (BitVec.ofNat 8 ch.toNat).toNat = ch.toNat := Utf8.toNat_ofNat_byte (by omega)
  have hdigit : ch.isDigit = true ↔ 48 ≤ ch.toNat ∧ ch.toNat ≤ 57 := Char.isDigit_iff_toNat
  rw [Bool.eq_iff_iff, isDigitByte, hnat, hdigit, decide_eq_true_eq]

/-- Characters of a label are a byte each. -/
theorem bytes_eq_map (h : ∀ c ∈ l', c.toNat < 128) : bytes l' = l'.map fun c => BitVec.ofNat 8 c.toNat := by
  induction l' with
  | nil => rfl
  | cons c l' ih =>
    rw [bytes_cons, encode_ascii (h c List.mem_cons_self), ih fun x hx => h x (List.mem_cons_of_mem _ hx)]
    rfl

theorem lt_of_nameChar (h : nameChar ch = true) : ch.toNat < 128 := by
  rw [nameChar_iff] at h
  omega

theorem asByte_eq_dash (h : ch.toNat < 128) : BitVec.ofNat 8 ch.toNat = 45#8 ↔ ch = '-' := by
  rw [← toNat_eq_45, Utf8.toNat_ofNat_byte (by omega), ← Char.toNat_inj]
  rfl

/-- A label of its characters, as its bytes. -/
theorem labelEnds_bytes (h : ∀ c ∈ l', nameChar c = true) : labelEnds (bytes l') = Net.labelOk l' := by
  have hascii : ∀ c ∈ l', c.toNat < 128 := fun c hc => lt_of_nameChar (h c hc)
  have hlen := length_bytes l'
  have hall : l'.all (fun c => c.isAlphanum || c == '-') = true := List.all_eq_true.mpr h
  rw [Bool.eq_iff_iff, labelEnds, Net.labelOk, hall, decide_eq_true_eq, hlen]
  rw [bytes_eq_map hascii] at hlen ⊢
  rw [List.length_map] at hlen
  have hhead : ((l'.map fun c => BitVec.ofNat 8 c.toNat).head? = some 45#8) ↔ l'.head? = some '-' := by
    rw [List.head?_map, Option.map_eq_some_iff]
    constructor
    · rintro ⟨c, hc, heq⟩
      rw [hc, (asByte_eq_dash (hascii c (List.mem_of_head? hc))).mp heq]
    · exact fun hc => ⟨'-', hc, rfl⟩
  have hlast : ((l'.map fun c => BitVec.ofNat 8 c.toNat).getLast? = some 45#8) ↔ l'.getLast? = some '-' := by
    rw [List.getLast?_map, Option.map_eq_some_iff]
    constructor
    · rintro ⟨c, hc, heq⟩
      rw [hc, (asByte_eq_dash (hascii c (List.mem_of_getLast? hc))).mp heq]
    · exact fun hc => ⟨'-', hc, rfl⟩
  rw [ne_eq, ne_eq, hhead, hlast, ← hlen, List.length_pos_iff]
  simp [and_assoc]

theorem all_isDigit_bytes (s : List Char) : (bytes s).all isDigitByte = s.all Char.isDigit := by
  induction s with
  | nil => rfl
  | cons ch s ih =>
    rw [bytes_cons, List.all_append, ih, List.all_cons]
    by_cases hascii : ch.toNat < 128
    · rw [encode_ascii hascii, List.all_cons, List.all_nil, Bool.and_true, isDigitByte_asByte hascii]
    · obtain ⟨b, r, hencode, hwide⟩ := encode_wide (Nat.le_of_not_lt hascii)
      have hbyte : isDigitByte b = false := by
        rw [isDigitByte, decide_eq_false_iff_not]
        omega
      have hiff : ch.isDigit = true ↔ 48 ≤ ch.toNat ∧ ch.toNat ≤ 57 := Char.isDigit_iff_toNat
      have hdigit : ch.isDigit = false := by
        rw [← Bool.not_eq_true, hiff]
        omega
      rw [hencode, List.all_cons, hbyte, hdigit]
      rfl

theorem labels_ne_nil (s : List Char) : Net.labels s ≠ [] := by
  cases s with
  | nil => exact List.cons_ne_nil _ _
  | cons c s =>
    rw [Net.labels]
    split
    · exact List.cons_ne_nil _ _
    · exact fun h => labels_ne_nil s (List.modifyHead_eq_nil_iff.mp h)

theorem okLabels_cons (l : List Char) {ls : List (List Char)} (h : ls ≠ []) :
    okLabels (l :: ls) = (Net.labelOk l && okLabels ls) := by
  obtain ⟨l₁, ls, rfl⟩ := List.exists_cons_of_ne_nil h
  rw [okLabels, okLabels, List.getLast?_cons_cons, List.all_cons]
  exact Bool.and_left_comm _ _ _

/-- A label with a character that is none of a label's. -/
theorem okLabels_of_mem (hmem : ch ∈ l') (hch : nameChar ch = false) (ls : List (List Char)) : okLabels (l' :: ls) = false := by
  have hlabel : Net.labelOk l' = false := by
    rw [Net.labelOk, Bool.and_eq_false_iff, List.all_eq_false]
    exact .inr ⟨ch, hmem, by rw [← nameChar, hch]; exact Bool.false_ne_true⟩
  rw [okLabels, List.all_cons, hlabel, Bool.false_and, Bool.and_false]

/-- The first byte of a character that is none of a label's. -/
theorem encode_other (hch : nameChar ch = false) (hdot : ch ≠ '.') :
    ∃ b r, Utf8.encode ch.toNat = b :: r ∧ b.toNat ≠ 46 ∧ nameByte b = false := by
  by_cases hascii : ch.toNat < 128
  · refine ⟨_, _, encode_ascii hascii, ?_, by rw [nameByte_asByte hascii, hch]⟩
    rw [Utf8.toNat_ofNat_byte (by omega)]
    exact fun h => hdot (Char.toNat_inj.mp h)
  · obtain ⟨b, r, hencode, hwide⟩ := encode_wide (Nat.le_of_not_lt hascii)
    refine ⟨b, r, hencode, by omega, ?_⟩
    rw [nameByte, isDigitByte, Bool.or_eq_false_iff, decide_eq_false_iff_not, decide_eq_false_iff_not]
    omega

/-- **The scan**, as labels. -/
theorem namesFrom_labels : ∀ (s l : List Char), (∀ c ∈ l, nameChar c = true) →
    namesFrom (bytes l) (bytes s) = okLabels ((Net.labels s).modifyHead (l ++ ·))
  | [], l, hl => by
      have hascii : ∀ c ∈ l, c.toNat < 128 := fun c hc => lt_of_nameChar (hl c hc)
      rw [show bytes [] = [] from rfl, namesFrom, labelEnds_bytes hl, all_isDigit_bytes]
      simp [Net.labels, okLabels, Bool.and_comm]
  | ch :: s, l, hl => by
      rw [bytes_cons, Net.labels]
      by_cases hdot : ch = '.'
      · subst hdot
        have hrest := namesFrom_labels s [] fun c hc => absurd hc List.not_mem_nil
        have hbyte : Utf8.encode '.'.toNat = [46#8] := rfl
        have hid : (Net.labels s).modifyHead ([] ++ ·) = Net.labels s := congrFun List.modifyHead_id _
        rw [hid] at hrest
        rw [if_pos rfl, hbyte, List.singleton_append, namesFrom, if_pos (show (46#8).toNat = 46 from rfl), labelEnds_bytes hl,
          List.modifyHead_cons, List.append_nil, okLabels_cons l (labels_ne_nil s), ← hrest]
        rfl
      · rw [if_neg hdot]
        obtain ⟨l₁, ls, hlabels⟩ := List.exists_cons_of_ne_nil (labels_ne_nil s)
        cases hch : nameChar ch with
        | true =>
          have hascii := lt_of_nameChar hch
          have hrest := namesFrom_labels s (l ++ [ch]) fun c hc => by
            rcases List.mem_append.mp hc with h | h
            · exact hl c h
            · rw [List.mem_singleton.mp h, hch]
          have hne : (BitVec.ofNat 8 ch.toNat).toNat ≠ 46 := by
            rw [Utf8.toNat_ofNat_byte (by omega)]
            exact fun h => hdot (Char.toNat_inj.mp h)
          have hone : bytes [ch] = [BitVec.ofNat 8 ch.toNat] := by rw [bytes_cons, encode_ascii hascii]; rfl
          rw [bytes_append, hone, hlabels] at hrest
          rw [encode_ascii hascii, List.singleton_append, namesFrom, if_neg hne, nameByte_asByte hascii, hch, Bool.true_and,
            hrest, hlabels, List.modifyHead_cons, List.modifyHead_cons, List.modifyHead_cons, List.append_assoc,
            List.singleton_append]
        | false =>
          obtain ⟨b, r, hencode, hne, hbyte⟩ := encode_other hch hdot
          rw [hencode, List.cons_append, namesFrom, if_neg hne, hbyte, Bool.false_and, hlabels, List.modifyHead_cons,
            List.modifyHead_cons, okLabels_of_mem (List.mem_append_right l List.mem_cons_self) hch]

/-- An ASCII byte is in the bytes of its own character only. -/
theorem eq_of_byte_mem {x : Char} (hx : x.toNat < 128) (hmem : BitVec.ofNat 8 x.toNat ∈ Utf8.encode ch.toNat) : ch = x := by
  have hnat : (BitVec.ofNat 8 x.toNat).toNat = x.toNat := Utf8.toNat_ofNat_byte (by omega)
  have hencode := Utf8.encode_of_mem (isScalar_char ch) hmem (by omega)
  by_cases hascii : ch.toNat < 128
  · rw [encode_ascii hascii, List.cons.injEq] at hencode
    have heq := congrArg BitVec.toNat hencode.1
    rw [hnat, Utf8.toNat_ofNat_byte (by omega)] at heq
    exact Char.toNat_inj.mp heq
  · obtain ⟨b, r, hbytes, hwide⟩ := encode_wide (Nat.le_of_not_lt hascii)
    rw [hbytes, List.cons.injEq] at hencode
    rw [hencode.1] at hwide
    omega

theorem byte_mem_iff {x : Char} (hx : x.toNat < 128) (s : List Char) : BitVec.ofNat 8 x.toNat ∈ bytes s ↔ x ∈ s := by
  rw [bytes, List.mem_flatMap]
  constructor
  · rintro ⟨c, hc, hmem⟩
    rwa [← eq_of_byte_mem hx hmem]
  · exact fun h => ⟨x, h, by rw [encode_ascii hx]; exact List.mem_cons_self⟩

theorem bytes_singleton (ch : Char) : bytes [ch] = Utf8.encode ch.toNat := by
  rw [bytes_cons]
  exact List.append_nil _

theorem undotted_bytes (s : List Char) : undotted (bytes s) = bytes (Net.dropDot s) := by
  rcases List.eq_nil_or_concat' s with rfl | ⟨s, c, rfl⟩
  · rfl
  · rw [undotted, Net.dropDot, List.getLast?_concat, List.dropLast_concat]
    by_cases hc : c = '.'
    · subst hc
      have hbyte : bytes ['.'] = [46#8] := rfl
      rw [if_pos rfl, bytes_append, hbyte, List.getLast?_concat, if_pos rfl, List.dropLast_concat]
    · rw [if_neg (fun h => hc (Option.some.inj h)), if_neg]
      rw [bytes_append, bytes_singleton, List.getLast?_append_of_ne_nil _ (Utf8.encode_ne_nil _)]
      exact fun h => hc (eq_of_byte_mem (x := '.') (by decide) (List.mem_of_getLast? h))

/-- **`std/ip`'s host names**: labels, but for one final dot. -/
theorem isHostName_eq (s : List Char) {fuel : Nat} (hfuel : (bytes s).length < fuel) :
    isHostName fuel (bytes s) = done (decide (Net.byteLen s ≤ 253) && Net.labelsOk (Net.dropDot s)) := by
  have hid : (Net.labels (Net.dropDot s)).modifyHead ([] ++ ·) = Net.labels (Net.dropDot s) := congrFun List.modifyHead_id _
  have hscan := namesFrom_labels (Net.dropDot s) [] fun c hc => absurd hc List.not_mem_nil
  rw [hid] at hscan
  rw [isHostName_scan hfuel, length_bytes, undotted_bytes, labelsOk_eq, ← hscan]
  rfl

/-! ### Final dots -/

/-- Two final dots or more. -/
def TwoDots (s : List Char) : Prop := ['.', '.'] <:+ s

instance (s : List Char) : Decidable (TwoDots s) := inferInstanceAs (Decidable (['.', '.'] <:+ s))

theorem labels_dot (s : List Char) : ∃ ls, ls ≠ [] ∧ Net.labels (s ++ ['.']) = ls ++ [[]] := by
  induction s with
  | nil => exact ⟨[[]], List.cons_ne_nil _ _, rfl⟩
  | cons c s ih =>
    obtain ⟨ls, hne, hls⟩ := ih
    obtain ⟨l₁, ls, rfl⟩ := List.exists_cons_of_ne_nil hne
    rw [List.cons_append, Net.labels, hls]
    split
    · exact ⟨[] :: l₁ :: ls, List.cons_ne_nil _ _, rfl⟩
    · exact ⟨(c :: l₁) :: ls, List.cons_ne_nil _ _, rfl⟩

/-- A name with a final dot has an empty label. -/
theorem labelsOk_dot (s : List Char) : Net.labelsOk (s ++ ['.']) = false := by
  obtain ⟨ls, -, hls⟩ := labels_dot s
  rw [labelsOk_eq, hls, okLabels, List.getLast?_concat]
  rfl

theorem net_isHostName_eq (s : List Char) : Net.isHostName s = (decide (Net.byteLen s ≤ 253) && Net.labelsOk (Net.trimDots s)) := by
  cases s with
  | nil => rfl
  | cons c s => rw [Net.isHostName, List.isEmpty_cons, Bool.not_false, Bool.true_and]

theorem dropDot_or_two (s : List Char) : Net.dropDot s = Net.trimDots s ∨ TwoDots s := by
  obtain ⟨k, hk⟩ := Net.exists_dots s
  generalize ht : Net.trimDots s = t at hk
  have htrim : Net.trimDots t = t := by rw [← ht, Net.trimDots_trimDots]
  subst hk
  rcases k with _ | _ | k
  · rw [Net.dropDot_append_dots htrim]
    exact .inl (List.append_nil t)
  · rw [Net.dropDot_append_dots htrim]
    exact .inl (List.append_nil t)
  · refine .inr ⟨t ++ Net.dots k, ?_⟩
    simp [Net.dots, List.replicate_succ']

theorem labelsOk_twoDots {s : List Char} (h : TwoDots s) : Net.labelsOk (Net.dropDot s) = false := by
  obtain ⟨s, rfl⟩ := h
  have hdrop : Net.dropDot (s ++ ['.', '.']) = s ++ ['.'] := by
    rw [show s ++ ['.', '.'] = s ++ ['.'] ++ ['.'] by simp, Net.dropDot, List.getLast?_concat, if_pos rfl, List.dropLast_concat]
  rw [hdrop, labelsOk_dot]

/-- A host name to `net.rs`, and to `std/ip` where it has one final dot or none. -/
theorem isHostName_iff (s : List Char) {fuel : Nat} (hfuel : (bytes s).length < fuel) :
    isHostName fuel (bytes s) = done (Net.isHostName s && !decide (TwoDots s)) := by
  rw [isHostName_eq s hfuel, net_isHostName_eq]
  by_cases htwo : TwoDots s
  · rw [labelsOk_twoDots htwo, decide_eq_true htwo, Bool.and_false, Bool.not_true, Bool.and_false]
  · rw [(dropDot_or_two s).resolve_right htwo, decide_eq_false htwo, Bool.not_false, Bool.and_true]

end Aipl.StdIp
