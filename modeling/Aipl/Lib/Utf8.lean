import Mathlib.Data.BitVec
import Mathlib.Data.List.Basic

/-! # Library — UTF-8

Scalar values, their bytes, and what a text of bytes begins with.  Nothing here names a program.

* `encode` — the bytes of a code point; `read` — the code point that bytes begin with.
* `read_iff` — it is the scalar value whose bytes they begin with.
* `Splits` — bytes taken apart into characters, and bytes that begin none.
* `Splits.isUtf8_iff` — bytes are those of scalar values exactly when every part is a character.
-/

namespace Aipl.Lib.Utf8

/-- A code point that is not a surrogate. -/
def IsScalar (cp : Nat) : Prop := cp ≤ 1114111 ∧ ¬ (55296 ≤ cp ∧ cp ≤ 57343)

/-- The bytes of a code point. -/
def encode (cp : Nat) : List (BitVec 8) :=
  if cp < 128 then [BitVec.ofNat 8 cp]
  else if cp < 2048 then [BitVec.ofNat 8 (192 + cp / 64), BitVec.ofNat 8 (128 + cp % 64)]
  else if cp < 65536 then
    [BitVec.ofNat 8 (224 + cp / 4096), BitVec.ofNat 8 (128 + cp / 64 % 64), BitVec.ofNat 8 (128 + cp % 64)]
  else
    [BitVec.ofNat 8 (240 + cp / 262144), BitVec.ofNat 8 (128 + cp / 4096 % 64),
      BitVec.ofNat 8 (128 + cp / 64 % 64), BitVec.ofNat 8 (128 + cp % 64)]

/-- A byte after the first of a character. -/
def Tail (c : BitVec 8) : Prop := 128 ≤ c.toNat ∧ c.toNat ≤ 191

/-- The range of the second byte, which shuts out overlong forms, surrogates and what is too large. -/
def Second (c c₁ : BitVec 8) : Prop :=
  Tail c₁ ∧ (c.toNat = 224 → 160 ≤ c₁.toNat) ∧ (c.toNat = 240 → 144 ≤ c₁.toNat) ∧
    (c.toNat = 237 → c₁.toNat ≤ 159) ∧ (c.toNat = 244 → c₁.toNat ≤ 143)

instance (c : BitVec 8) : Decidable (Tail c) := inferInstanceAs (Decidable (_ ∧ _))

instance (c c₁ : BitVec 8) : Decidable (Second c c₁) := inferInstanceAs (Decidable (_ ∧ _))

/-- How many bytes come after the first, if it can be one. -/
def following (c : BitVec 8) : Option Nat :=
  if c.toNat < 128 then some 0
  else if 194 ≤ c.toNat ∧ c.toNat ≤ 223 then some 1
  else if 224 ≤ c.toNat ∧ c.toNat ≤ 239 then some 2
  else if 240 ≤ c.toNat ∧ c.toNat ≤ 244 then some 3
  else none

/-- The code point of a first byte with so many more after it, and the number of its bytes. -/
def readAfter (c : BitVec 8) : Nat → List (BitVec 8) → Option (Nat × Nat)
  | 0, _ => some (c.toNat, 1)
  | 1, c₁ :: _ => if Second c c₁ then some ((c.toNat - 192) * 64 + (c₁.toNat - 128), 2) else none
  | 2, c₁ :: c₂ :: _ =>
    if Second c c₁ ∧ Tail c₂ then
      some (((c.toNat - 224) * 64 + (c₁.toNat - 128)) * 64 + (c₂.toNat - 128), 3)
    else none
  | 3, c₁ :: c₂ :: c₃ :: _ =>
    if Second c c₁ ∧ Tail c₂ ∧ Tail c₃ then
      some ((((c.toNat - 240) * 64 + (c₁.toNat - 128)) * 64 + (c₂.toNat - 128)) * 64 + (c₃.toNat - 128), 4)
    else none
  | _, _ => none

/-- The code point that bytes begin with, and the number of its bytes. -/
def read : List (BitVec 8) → Option (Nat × Nat)
  | [] => none
  | c :: rest => (following c).bind fun n => readAfter c n rest

theorem read_cons {c : BitVec 8} {n : Nat} (h : following c = some n) (rest : List (BitVec 8)) :
    read (c :: rest) = readAfter c n rest := by
  rw [read, h]
  rfl

theorem read_none {c : BitVec 8} (h : following c = none) (rest : List (BitVec 8)) : read (c :: rest) = none := by
  rw [read, h]
  rfl

/-- A code point with the bits of more bytes. -/
def more (cp : Nat) : List (BitVec 8) → Option Nat
  | [] => some cp
  | x :: xs => if Tail x then more (cp * 64 + (x.toNat - 128)) xs else none

/-- The bits of a first byte that say how many come after it. -/
def leadBits (n : Nat) : Nat := if n = 1 then 192 else if n = 2 then 224 else 240

theorem readAfter_cons {c c₁ : BitVec 8} {rest : List (BitVec 8)} {n : Nat} (hpos : 0 < n) (hlt : n < 4)
    (hlen : n ≤ rest.length + 1) : readAfter c n (c₁ :: rest) =
      if Second c c₁ then
        (more ((c.toNat - leadBits n) * 64 + (c₁.toNat - 128)) (rest.take (n - 1))).map fun cp => (cp, n + 1)
      else none := by
  match n, rest with
  | 1, _ => rfl
  | 2, [] | 3, [] | 3, [_] =>
    simp only [List.length_cons, List.length_nil] at hlen
    omega
  | 2, c₂ :: _ =>
    rw [readAfter, List.take_succ_cons, more]
    by_cases hs : Second c c₁ <;> by_cases h₂ : Tail c₂ <;> simp [hs, h₂, more, leadBits]
  | 3, c₂ :: c₃ :: _ =>
    rw [readAfter, List.take_succ_cons, List.take_succ_cons, more, more]
    by_cases hs : Second c c₁ <;> by_cases h₂ : Tail c₂ <;> by_cases h₃ : Tail c₃ <;>
      simp [hs, h₂, h₃, more, leadBits]

theorem toNat_ofNat_byte {n : Nat} (h : n < 256) : (BitVec.ofNat 8 n).toNat = n := Nat.mod_eq_of_lt h

theorem ofNat_byte_eq {n : Nat} {c : BitVec 8} (h : n = c.toNat) : BitVec.ofNat 8 n = c := by
  rw [h, BitVec.ofNat_toNat, BitVec.setWidth_eq]

theorem following_cases (c : BitVec 8) :
    (following c = some 0 ∧ c.toNat < 128) ∨ (following c = some 1 ∧ 194 ≤ c.toNat ∧ c.toNat ≤ 223) ∨
      (following c = some 2 ∧ 224 ≤ c.toNat ∧ c.toNat ≤ 239) ∨
      (following c = some 3 ∧ 240 ≤ c.toNat ∧ c.toNat ≤ 244) ∨ following c = none := by
  rw [following]
  split
  · exact .inl ⟨rfl, ‹_›⟩
  split
  · exact .inr (.inl ⟨rfl, ‹_›⟩)
  split
  · exact .inr (.inr (.inl ⟨rfl, ‹_›⟩))
  split
  · exact .inr (.inr (.inr (.inl ⟨rfl, ‹_›⟩)))
  · exact .inr (.inr (.inr (.inr rfl)))

theorem following_eq {c : BitVec 8} {k : Nat}
    (h : (k = 0 ∧ c.toNat < 128) ∨ (k = 1 ∧ 194 ≤ c.toNat ∧ c.toNat ≤ 223) ∨
      (k = 2 ∧ 224 ≤ c.toNat ∧ c.toNat ≤ 239) ∨ (k = 3 ∧ 240 ≤ c.toNat ∧ c.toNat ≤ 244)) :
    following c = some k := by
  rw [following]
  rcases h with ⟨rfl, h⟩ | ⟨rfl, h⟩ | ⟨rfl, h⟩ | ⟨rfl, h⟩
  · rw [if_pos h]
  · rw [if_neg (by omega), if_pos h]
  · rw [if_neg (by omega), if_neg (by omega), if_pos h]
  · rw [if_neg (by omega), if_neg (by omega), if_neg (by omega), if_pos h]

theorem following_lt {c : BitVec 8} {n : Nat} (h : following c = some n) : n < 4 := by
  rcases following_cases c with ⟨hf, -⟩ | ⟨hf, -⟩ | ⟨hf, -⟩ | ⟨hf, -⟩ | hf <;> rw [h] at hf
  · exact Option.some.inj hf ▸ by decide
  · exact Option.some.inj hf ▸ by decide
  · exact Option.some.inj hf ▸ by decide
  · exact Option.some.inj hf ▸ by decide
  · cases hf

theorem toNat_lead_lt {c : BitVec 8} {n : Nat} (h : following c = some n) (hpos : 0 < n) :
    c.toNat - leadBits n < 64 := by
  rcases following_cases c with ⟨hf, hr⟩ | ⟨hf, hr⟩ | ⟨hf, hr⟩ | ⟨hf, hr⟩ | hf <;> rw [h] at hf
  · obtain rfl := Option.some.inj hf
    omega
  · obtain rfl := Option.some.inj hf
    have hlead : leadBits 1 = 192 := rfl
    omega
  · obtain rfl := Option.some.inj hf
    have hlead : leadBits 2 = 224 := rfl
    omega
  · obtain rfl := Option.some.inj hf
    have hlead : leadBits 3 = 240 := rfl
    omega
  · cases hf

theorem readAfter_short {c : BitVec 8} {rest : List (BitVec 8)} {n : Nat} (hpos : 0 < n) (hn : n < 4)
    (hrest : rest.length < n) : readAfter c n rest = none := by
  match n, rest with
  | 1, [] | 2, [] | 2, [_] | 3, [] | 3, [_] | 3, [_, _] => rfl
  | 1, _ :: _ | 2, _ :: _ :: _ | 3, _ :: _ :: _ :: _ =>
    simp only [List.length_cons] at hrest
    omega

theorem read_len {c : BitVec 8} {rest : List (BitVec 8)} {n : Nat} {r : Nat × Nat} (h : following c = some n)
    (hr : read (c :: rest) = some r) : r.2 = n + 1 := by
  have hn := following_lt h
  rw [read_cons h] at hr
  rcases Nat.eq_zero_or_pos n with rfl | hpos
  · obtain rfl := Option.some.inj hr
    rfl
  by_cases hlen : rest.length < n
  · rw [readAfter_short hpos hn hlen] at hr
    cases hr
  obtain ⟨c₁, rest, rfl⟩ : ∃ c₁ rest', rest = c₁ :: rest' := List.exists_cons_of_length_pos (by omega)
  rw [List.length_cons] at hlen
  rw [readAfter_cons hpos hn (by omega), Option.ite_none_right_eq_some, Option.map_eq_some_iff] at hr
  obtain ⟨-, cp, -, rfl⟩ := hr
  rfl

/-- **What is read** is a scalar value, and its bytes. -/
theorem read_sound {l : List (BitVec 8)} {cp k : Nat} (h : read l = some (cp, k)) :
    IsScalar cp ∧ encode cp <+: l ∧ k = (encode cp).length := by
  cases l with
  | nil => cases h
  | cons c rest =>
    have hc := c.isLt
    rcases following_cases c with ⟨hf, hr⟩ | ⟨hf, hr⟩ | ⟨hf, hr⟩ | ⟨hf, hr⟩ | hf
    · rw [read_cons hf] at h
      obtain ⟨rfl, rfl⟩ := Prod.mk.inj (Option.some.inj h)
      rw [IsScalar, encode, if_pos hr, ofNat_byte_eq rfl]
      exact ⟨by omega, ⟨rest, rfl⟩, rfl⟩
    · cases rest with
      | nil =>
        rw [read_cons hf] at h
        cases h
      | cons c₁ rest =>
        rw [read_cons hf] at h
        simp only [readAfter, Option.ite_none_right_eq_some] at h
        obtain ⟨hs, h⟩ := h
        obtain ⟨rfl, rfl⟩ := Prod.mk.inj (Option.some.inj h)
        simp only [Second, Tail] at hs
        rw [IsScalar, encode, if_neg (by omega), if_pos (by omega), ofNat_byte_eq (c := c) (by omega),
          ofNat_byte_eq (c := c₁) (by omega)]
        exact ⟨by omega, ⟨rest, rfl⟩, rfl⟩
    · cases rest with
      | nil =>
        rw [read_cons hf] at h
        cases h
      | cons c₁ rest =>
        cases rest with
        | nil =>
          rw [read_cons hf] at h
          cases h
        | cons c₂ rest =>
          rw [read_cons hf] at h
          simp only [readAfter, Option.ite_none_right_eq_some] at h
          obtain ⟨hs, h⟩ := h
          obtain ⟨rfl, rfl⟩ := Prod.mk.inj (Option.some.inj h)
          simp only [Second, Tail] at hs
          rw [IsScalar, encode, if_neg (by omega), if_neg (by omega), if_pos (by omega),
            ofNat_byte_eq (c := c) (by omega), ofNat_byte_eq (c := c₁) (by omega),
            ofNat_byte_eq (c := c₂) (by omega)]
          exact ⟨by omega, ⟨rest, rfl⟩, rfl⟩
    · cases rest with
      | nil =>
        rw [read_cons hf] at h
        cases h
      | cons c₁ rest =>
        cases rest with
        | nil =>
          rw [read_cons hf] at h
          cases h
        | cons c₂ rest =>
          cases rest with
          | nil =>
            rw [read_cons hf] at h
            cases h
          | cons c₃ rest =>
            rw [read_cons hf] at h
            simp only [readAfter, Option.ite_none_right_eq_some] at h
            obtain ⟨hs, h⟩ := h
            obtain ⟨rfl, rfl⟩ := Prod.mk.inj (Option.some.inj h)
            simp only [Second, Tail] at hs
            rw [IsScalar, encode, if_neg (by omega), if_neg (by omega), if_neg (by omega),
              ofNat_byte_eq (c := c) (by omega), ofNat_byte_eq (c := c₁) (by omega),
              ofNat_byte_eq (c := c₂) (by omega), ofNat_byte_eq (c := c₃) (by omega)]
            exact ⟨by omega, ⟨rest, rfl⟩, rfl⟩
    · rw [read, hf] at h
      cases h

/-- The bytes of a scalar value are read. -/
theorem read_encode {cp : Nat} (h : IsScalar cp) (l : List (BitVec 8)) :
    read (encode cp ++ l) = some (cp, (encode cp).length) := by
  obtain ⟨hmax, hsur⟩ := h
  rw [encode]
  split
  · have h0 := toNat_ofNat_byte (show cp < 256 by omega)
    have hf : following (BitVec.ofNat 8 cp) = some 0 := following_eq (.inl ⟨rfl, by omega⟩)
    simp only [List.cons_append, List.nil_append, read_cons hf, readAfter, h0, List.length_cons, List.length_nil]
  split
  · have h0 := toNat_ofNat_byte (show 192 + cp / 64 < 256 by omega)
    have h1 := toNat_ofNat_byte (show 128 + cp % 64 < 256 by omega)
    have hf : following (BitVec.ofNat 8 (192 + cp / 64)) = some 1 :=
      following_eq (.inr (.inl ⟨rfl, by omega⟩))
    have hs : Second (BitVec.ofNat 8 (192 + cp / 64)) (BitVec.ofNat 8 (128 + cp % 64)) := by
      rw [Second, Tail, h0, h1]
      omega
    simp only [List.cons_append, List.nil_append, read_cons hf, readAfter, if_pos hs, h0, h1, List.length_cons, List.length_nil,
      Option.some_inj, Prod.mk.injEq, and_true]
    omega
  split
  · have h0 := toNat_ofNat_byte (show 224 + cp / 4096 < 256 by omega)
    have h1 := toNat_ofNat_byte (show 128 + cp / 64 % 64 < 256 by omega)
    have h2 := toNat_ofNat_byte (show 128 + cp % 64 < 256 by omega)
    have hf : following (BitVec.ofNat 8 (224 + cp / 4096)) = some 2 :=
      following_eq (.inr (.inr (.inl ⟨rfl, by omega⟩)))
    have hs : Second (BitVec.ofNat 8 (224 + cp / 4096)) (BitVec.ofNat 8 (128 + cp / 64 % 64)) ∧
        Tail (BitVec.ofNat 8 (128 + cp % 64)) := by
      rw [Second, Tail, Tail, h0, h1, h2]
      omega
    simp only [List.cons_append, List.nil_append, read_cons hf, readAfter, if_pos hs, h0, h1, h2, List.length_cons,
      List.length_nil, Option.some_inj, Prod.mk.injEq, and_true]
    omega
  · have h0 := toNat_ofNat_byte (show 240 + cp / 262144 < 256 by omega)
    have h1 := toNat_ofNat_byte (show 128 + cp / 4096 % 64 < 256 by omega)
    have h2 := toNat_ofNat_byte (show 128 + cp / 64 % 64 < 256 by omega)
    have h3 := toNat_ofNat_byte (show 128 + cp % 64 < 256 by omega)
    have hf : following (BitVec.ofNat 8 (240 + cp / 262144)) = some 3 :=
      following_eq (.inr (.inr (.inr ⟨rfl, by omega⟩)))
    have hs : Second (BitVec.ofNat 8 (240 + cp / 262144)) (BitVec.ofNat 8 (128 + cp / 4096 % 64)) ∧
        Tail (BitVec.ofNat 8 (128 + cp / 64 % 64)) ∧ Tail (BitVec.ofNat 8 (128 + cp % 64)) := by
      rw [Second, Tail, Tail, Tail, h0, h1, h2, h3]
      omega
    simp only [List.cons_append, List.nil_append, read_cons hf, readAfter, if_pos hs, h0, h1, h2, h3, List.length_cons,
      List.length_nil, Option.some_inj, Prod.mk.injEq, and_true]
    omega

theorem encode_ne_nil (cp : Nat) : encode cp ≠ [] := by
  rw [encode]
  split
  · simp
  split
  · simp
  split <;> simp

theorem length_encode_pos (cp : Nat) : 0 < (encode cp).length := List.length_pos_iff.mpr (encode_ne_nil cp)

theorem length_encode_le (cp : Nat) : (encode cp).length ≤ 4 := by
  rw [encode]
  split
  · simp
  split
  · simp
  split <;> simp

theorem length_flatMap_encode_le (cps : List Nat) : (cps.flatMap encode).length ≤ 4 * cps.length := by
  induction cps with
  | nil => simp
  | cons cp cps ih =>
    have hle := length_encode_le cp
    rw [List.flatMap_cons, List.length_append, List.length_cons]
    omega

theorem read_eq_append {l : List (BitVec 8)} {cp k : Nat} (h : read l = some (cp, k)) :
    l = encode cp ++ l.drop k := by
  obtain ⟨-, ⟨rest, rfl⟩, rfl⟩ := read_sound h
  rw [List.drop_left]

/-! ### Whole texts -/

/-- The bytes of scalar values. -/
def IsUtf8 (l : List (BitVec 8)) : Prop := ∃ cps : List Nat, (∀ cp ∈ cps, IsScalar cp) ∧ l = cps.flatMap encode

theorem isUtf8_nil : IsUtf8 [] := ⟨[], by simp, rfl⟩

theorem isUtf8_iff_drop {l : List (BitVec 8)} {cp k : Nat} (h : read l = some (cp, k)) :
    IsUtf8 l ↔ IsUtf8 (l.drop k) := by
  have hsplit := read_eq_append h
  obtain ⟨hcp, -, -⟩ := read_sound h
  constructor
  · rintro ⟨cps, hcps, hl⟩
    cases cps with
    | nil =>
      rw [hl] at h
      cases h
    | cons cp' cps =>
      -- the first of them is what is read
      rw [List.flatMap_cons] at hl
      have hread := read_encode (hcps cp' List.mem_cons_self) (cps.flatMap encode)
      rw [← hl, h] at hread
      obtain ⟨rfl, rfl⟩ := Prod.mk.inj (Option.some.inj hread)
      refine ⟨cps, fun x hx => hcps x (List.mem_cons_of_mem _ hx), ?_⟩
      rw [hl, List.drop_left]
  · rintro ⟨cps, hcps, hl⟩
    refine ⟨cp :: cps, fun x hx => ?_, ?_⟩
    · rcases List.mem_cons.mp hx with rfl | hx
      · exact hcp
      · exact hcps x hx
    · rw [List.flatMap_cons, ← hl]
      exact hsplit

theorem not_isUtf8 {l : List (BitVec 8)} (h : read l = none) (hne : l ≠ []) : ¬ IsUtf8 l := by
  rintro ⟨cps, hcps, hl⟩
  cases cps with
  | nil => exact hne hl
  | cons cp cps =>
    rw [List.flatMap_cons] at hl
    have hread := read_encode (hcps cp List.mem_cons_self) (cps.flatMap encode)
    rw [← hl, h] at hread
    cases hread

theorem IsUtf8.append {l l' : List (BitVec 8)} (h : IsUtf8 l) (h' : IsUtf8 l') : IsUtf8 (l ++ l') := by
  obtain ⟨cps, hcps, rfl⟩ := h
  obtain ⟨cps', hcps', rfl⟩ := h'
  exact ⟨cps ++ cps', fun cp hcp => (List.mem_append.mp hcp).elim (hcps cp) (hcps' cp), List.flatMap_append.symm⟩

/-- A byte below 128 stands for itself only. -/
theorem encode_of_mem {cp : Nat} (h : IsScalar cp) {c : BitVec 8} (hc : c ∈ encode cp) (hlt : c.toNat < 128) : encode cp = [c] := by
  have hmax := h.1
  rw [encode] at hc ⊢
  split at hc
  · rename_i hsmall
    rw [List.mem_singleton] at hc
    rw [if_pos hsmall, hc]
  · exfalso
    have hwide : ∀ n, 128 ≤ n → n < 256 → c ≠ BitVec.ofNat 8 n := fun n hlo hhi heq => by
      rw [heq, toNat_ofNat_byte hhi] at hlt
      omega
    split at hc
    · simp only [List.mem_cons, List.not_mem_nil, or_false] at hc
      rcases hc with hc | hc
      · exact hwide _ (by omega) (by omega) hc
      · exact hwide _ (by omega) (by omega) hc
    · split at hc
      · simp only [List.mem_cons, List.not_mem_nil, or_false] at hc
        rcases hc with hc | hc | hc
        · exact hwide _ (by omega) (by omega) hc
        · exact hwide _ (by omega) (by omega) hc
        · exact hwide _ (by omega) (by omega) hc
      · simp only [List.mem_cons, List.not_mem_nil, or_false] at hc
        rcases hc with hc | hc | hc | hc
        · exact hwide _ (by omega) (by omega) hc
        · exact hwide _ (by omega) (by omega) hc
        · exact hwide _ (by omega) (by omega) hc
        · exact hwide _ (by omega) (by omega) hc

/-- **A byte below 128 parts a text** into texts. -/
theorem isUtf8_at {a b : List (BitVec 8)} {c : BitVec 8} (hc : c.toNat < 128) : IsUtf8 (a ++ c :: b) ↔ IsUtf8 a ∧ IsUtf8 b := by
  constructor
  · rintro ⟨cps, hcps, heq⟩
    induction cps generalizing a with
    | nil => simp at heq
    | cons cp cps ih =>
      have hcps' : ∀ x ∈ cps, IsScalar x := fun x hx => hcps x (List.mem_cons_of_mem _ hx)
      rw [List.flatMap_cons] at heq
      rcases List.append_eq_append_iff.mp heq with ⟨d, hd, hrest⟩ | ⟨d, rfl, hrest⟩
      · cases d with
        | nil =>
          rw [List.append_nil] at hd
          rw [List.nil_append] at hrest
          obtain ⟨-, hb⟩ := ih (a := []) hcps' hrest
          exact ⟨⟨[cp], fun x hx => hcps x (by simp at hx; simp [hx]), by simp [hd]⟩, hb⟩
        | cons x d =>
          -- the byte is in the first character, so it is the first character
          injection hrest with hx hrest
          subst hx
          have hself := encode_of_mem (hcps cp List.mem_cons_self) (c := c) (by rw [hd]; simp) hc
          rw [hself] at hd
          have hlen := congrArg List.length hd
          rw [List.length_singleton, List.length_append, List.length_cons] at hlen
          obtain rfl : a = [] := List.eq_nil_of_length_eq_zero (by omega)
          obtain rfl : d = [] := List.eq_nil_of_length_eq_zero (by omega)
          exact ⟨isUtf8_nil, cps, hcps', hrest⟩
      · obtain ⟨hd, hb⟩ := ih (a := d) hcps' hrest.symm
        refine ⟨IsUtf8.append ⟨[cp], fun x hx => hcps x (by simp at hx; simp [hx]), by simp⟩ hd, hb⟩
  · rintro ⟨ha, hb⟩
    refine ha.append (IsUtf8.append (l := [c]) ⟨[c.toNat], fun x hx => ?_, ?_⟩ hb)
    · rw [List.mem_singleton] at hx
      rw [hx]
      exact ⟨by omega, by omega⟩
    · rw [List.flatMap_singleton, encode, if_pos hc, BitVec.ofNat_toNat, BitVec.setWidth_eq]

/-- **Bytes taken apart**: characters, each its code point and the number of its bytes, and bytes that begin
none, whose number is 0. -/
inductive Splits : List (BitVec 8) → List (Nat × Nat) → Prop where
  | nil : Splits [] []
  | char {l : List (BitVec 8)} {cp k : Nat} {items : List (Nat × Nat)} (h : read l = some (cp, k))
      (t : Splits (l.drop k) items) : Splits l ((cp, k) :: items)
  | byte {c : BitVec 8} {l : List (BitVec 8)} {items : List (Nat × Nat)} (h : read (c :: l) = none)
      (t : Splits l items) : Splits (c :: l) ((c.toNat, 0) :: items)

/-- The bytes to move on by. -/
def width (item : Nat × Nat) : Nat := if item.2 = 0 then 1 else item.2

variable {l : List (BitVec 8)} {items : List (Nat × Nat)}

theorem read_width_pos {cp k : Nat} (h : read l = some (cp, k)) : 0 < k := by
  obtain ⟨-, -, rfl⟩ := read_sound h
  exact length_encode_pos cp

/-- **The parts are all there is**. -/
theorem Splits.covers (h : Splits l items) : (items.map width).sum = l.length := by
  induction h with
  | nil => rfl
  | @char l cp k items h _ ih =>
    have hpos := read_width_pos h
    have hlen := congrArg List.length (read_eq_append h)
    obtain ⟨-, -, hk⟩ := read_sound h
    rw [List.length_append, ← hk] at hlen
    rw [List.map_cons, List.sum_cons, ih, width, if_neg (by omega)]
    omega
  | byte _ _ ih =>
    rw [List.map_cons, List.sum_cons, ih, width, if_pos rfl, List.length_cons, Nat.add_comm]

theorem Splits.scalar (h : Splits l items) : ∀ item ∈ items, item.2 ≠ 0 → IsScalar item.1 := by
  induction h with
  | nil => simp
  | char h _ ih =>
    intro item hitem hne
    rcases List.mem_cons.mp hitem with rfl | hitem
    · exact (read_sound h).1
    · exact ih item hitem hne
  | byte _ _ ih =>
    intro item hitem hne
    rcases List.mem_cons.mp hitem with rfl | hitem
    · exact absurd rfl hne
    · exact ih item hitem hne

/-- **Bytes are those of scalar values** exactly when every part is a character. -/
theorem Splits.isUtf8_iff (h : Splits l items) : IsUtf8 l ↔ ∀ item ∈ items, item.2 ≠ 0 := by
  induction h with
  | nil => simp [isUtf8_nil]
  | char h _ ih =>
    have hpos := read_width_pos h
    rw [isUtf8_iff_drop h, ih, List.forall_mem_cons]
    exact ⟨fun hall => ⟨hpos.ne', hall⟩, fun hall => hall.2⟩
  | byte h _ _ =>
    refine iff_of_false (not_isUtf8 h (List.cons_ne_nil _ _)) fun hall => ?_
    exact hall _ List.mem_cons_self rfl

/-- The bytes of the code points are the text. -/
theorem Splits.flatMap (h : Splits l items) (hall : ∀ item ∈ items, item.2 ≠ 0) :
    (items.map Prod.fst).flatMap encode = l := by
  induction h with
  | nil => rfl
  | char h _ ih =>
    rw [List.map_cons, List.flatMap_cons, ih fun item hitem => hall item (List.mem_cons_of_mem _ hitem)]
    exact (read_eq_append h).symm
  | byte => exact absurd rfl (hall _ List.mem_cons_self)

/-- Scalar values are taken from their bytes. -/
theorem splits_flatMap : ∀ {cps : List Nat}, (∀ cp ∈ cps, IsScalar cp) →
    Splits (cps.flatMap encode) (cps.map fun cp => (cp, (encode cp).length))
  | [], _ => .nil
  | cp :: cps, hcps => by
      rw [List.flatMap_cons, List.map_cons]
      refine .char (read_encode (hcps cp List.mem_cons_self) _) ?_
      rw [List.drop_left]
      exact splits_flatMap fun x hx => hcps x (List.mem_cons_of_mem _ hx)

/-- There is one way to take bytes apart. -/
theorem Splits.unique {items' : List (Nat × Nat)} (h : Splits l items) (h' : Splits l items') :
    items = items' := by
  induction h generalizing items' with
  | nil =>
    cases h' with
    | nil => rfl
    | char h => cases h
  | char h _ ih =>
    cases h' with
    | nil => cases h
    | char h' t' =>
      rw [h] at h'
      obtain ⟨rfl, rfl⟩ := Prod.mk.inj (Option.some.inj h')
      rw [ih t']
    | byte h' =>
      rw [h] at h'
      cases h'
  | byte h _ ih =>
    cases h' with
    | char h' =>
      rw [h] at h'
      cases h'
    | byte _ t' => rw [ih t']

end Aipl.Lib.Utf8
