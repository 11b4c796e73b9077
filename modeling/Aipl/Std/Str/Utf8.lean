import Aipl.Lib.Fallible
import Aipl.Lib.Utf8
import Aipl.Std.Buf.Pushes

/-! # `std/utf8`, and `str.valid_utf8`

Decoding, encoding and validating each have a table of their own.  A text is its bytes; an array of bytes has,
with its header of 8, fewer than `2 ^ 31`.

* `decode_eq` — a character that is decoded is what the bytes there begin with.
* `encode_eq` — encoding pushes the bytes of a scalar value.
* `validRound_eq` — validating moves on by what the bytes there begin with.
* `utf8_agrees` — the three agree on every text.
-/

namespace Aipl.StdUtf8

open Aipl.Lib Aipl.Lib.Outcome Aipl.Std Aipl.StdBuf
open Aipl.StdStream (byteAt byteAt_eq setWidth_setWidth_byte)

/-- `utf8.Char`; of length 0 where the bytes are not UTF-8. -/
structure Char where
  cp : BitVec 32
  len : BitVec 32
deriving DecidableEq

def step (ch : Char) : BitVec 32 := if ch.len = 0#32 then 1#32 else ch.len

/-- How many bytes `decode` takes after the first; -1 if none can follow. -/
def decodeNeed (c : BitVec 32) : BitVec 32 :=
  if (194#32).sle c && c.sle 223#32 then 1#32
  else if (224#32).sle c && c.sle 239#32 then 2#32
  else if (240#32).sle c && c.sle 244#32 then 3#32
  else -1#32

/-- A round of the loop of `decode` over the bytes from the third on. -/
def decodeRound (b : List (BitVec 8)) (i need : BitVec 32) (s : BitVec 32 × BitVec 32) :
    Outcome (BitVec 32 × BitVec 32 ⊕ Option (BitVec 32)) :=
  let (k, cp) := s
  if (need + 1#32 - 1#32).slt k then pure (.inr (some cp))
  else do
    let ck ← byteAt b (i + k)
    if ck.slt 128#32 || (191#32).slt ck then pure (.inr none)
    else pure (.inl (k + 1#32, shl cp 6#32 ||| (ck &&& 63#32)))

def decode (b : List (BitVec 8)) (i : BitVec 32) : Outcome Char := do
  require ((0#32).sle i && i.slt (arrLen b))
  let n := arrLen b
  let c ← byteAt b i
  if c.slt 128#32 then pure ⟨c, 1#32⟩
  else
    let need := decodeNeed c
    if need.slt 0#32 || n.sle (i + need) then pure ⟨c, 0#32⟩
    else do
      let lo := if c = 224#32 then 160#32 else if c = 240#32 then 144#32 else 128#32
      let hi := if c = 237#32 then 159#32 else if c = 244#32 then 143#32 else 191#32
      let c1 ← byteAt b (i + 1#32)
      if c1.slt lo || hi.slt c1 then pure ⟨c, 0#32⟩
      else do
        let cp := c &&& (if need = 1#32 then 31#32 else if need = 2#32 then 15#32 else 7#32)
        let cp := shl cp 6#32 ||| (c1 &&& 63#32)
        match ← iterate (decodeRound b i need) 4 (2#32, cp) with
        | some cp => pure ⟨cp, need + 1#32⟩
        | none => pure ⟨c, 0#32⟩

def scalar (cp : BitVec 32) : Bool :=
  (0#32).sle cp && cp.sle 1114111#32 && !((55296#32).sle cp && cp.sle 57343#32)

section Buffer

variable {σ : Type} (A : Allocator σ) (fuel : Nat)

def encode (out : Content σ) (cp : BitVec 32) : Outcome (Content σ) := do
  require (scalar cp)
  if cp.slt 128#32 then out.pushByte A fuel cp
  else if cp.slt 2048#32 then do
    let out ← out.pushByte A fuel (192#32 ||| cp.sshiftRight 6)
    out.pushByte A fuel (128#32 ||| (cp &&& 63#32))
  else if cp.slt 65536#32 then do
    let out ← out.pushByte A fuel (224#32 ||| cp.sshiftRight 12)
    let out ← out.pushByte A fuel (128#32 ||| (cp.sshiftRight 6 &&& 63#32))
    out.pushByte A fuel (128#32 ||| (cp &&& 63#32))
  else do
    let out ← out.pushByte A fuel (240#32 ||| cp.sshiftRight 18)
    let out ← out.pushByte A fuel (128#32 ||| (cp.sshiftRight 12 &&& 63#32))
    let out ← out.pushByte A fuel (128#32 ||| (cp.sshiftRight 6 &&& 63#32))
    out.pushByte A fuel (128#32 ||| (cp &&& 63#32))

end Buffer

/-- A round of stepping through a text, which keeps the characters. -/
def charsRound (b : List (BitVec 8)) (s : BitVec 32 × List Char) : Outcome (BitVec 32 × List Char ⊕ List Char) :=
  if s.1.slt (arrLen b) then do
    let ch ← decode b s.1
    pure (.inl (s.1 + step ch, s.2 ++ [ch]))
  else pure (.inr s.2)

/-- The characters of a text, by `decode` and `step` from 0 on. -/
def chars (fuel : Nat) (b : List (BitVec 8)) : Outcome (List Char) := iterate (charsRound b) fuel (0#32, [])

def countRound (b : List (BitVec 8)) (s : BitVec 32 × BitVec 32) : Outcome (BitVec 32 × BitVec 32 ⊕ BitVec 32) :=
  if s.1.slt (arrLen b) then do
    let ch ← decode b s.1
    pure (.inl (s.1 + step ch, s.2 + 1#32))
  else pure (.inr s.2)

def count (fuel : Nat) (b : List (BitVec 8)) : Outcome (BitVec 32) := iterate (countRound b) fuel (0#32, 0#32)

/-- How many bytes `valid_utf8` takes after the first; -1 if none can follow. -/
def validNeed (c : BitVec 32) : BitVec 32 :=
  if c.slt 128#32 then 0#32
  else if (194#32).sle c && c.sle 223#32 then 1#32
  else if (224#32).sle c && c.sle 239#32 then 2#32
  else if (240#32).sle c && c.sle 244#32 then 3#32
  else -1#32

/-- The loop of `valid_utf8` over the bytes from the third on: `some false` if one is out of range. -/
def validRest (b : List (BitVec 8)) (i k : BitVec 32) : Outcome (Option Bool) := do
  let ck ← byteAt b (i + k)
  if ck.slt 128#32 || (191#32).slt ck then pure (some false) else pure none

/-- The bytes after the first, if there are any. -/
def validMore (b : List (BitVec 8)) (i c need : BitVec 32) : Outcome Bool :=
  if (0#32).slt need then do
    let c1 ← byteAt b (i + 1#32)
    let lo := if c = 224#32 then 160#32 else if c = 240#32 then 144#32 else 128#32
    let hi := if c = 237#32 then 159#32 else if c = 244#32 then 143#32 else 191#32
    if c1.slt lo || hi.slt c1 then pure false
    else forReturn 4 2#32 (need + 1#32) (validRest b i) true
  else pure true

def validRound (b : List (BitVec 8)) (i : BitVec 32) : Outcome (BitVec 32 ⊕ Bool) :=
  let n := arrLen b
  if i.slt n then do
    let c ← byteAt b i
    let need := validNeed c
    if (need.slt 0#32 || (n - 1#32).slt (i + need)) && !(need = 0#32) then pure (.inr false)
    else do
      if ← validMore b i c need then pure (.inl (i + (need + 1#32))) else pure (.inr false)
  else pure (.inr true)

def validUtf8 (fuel : Nat) (b : List (BitVec 8)) : Outcome Bool := iterate (validRound b) fuel 0#32

/-! ### The tables -/

section Tables

open Utf8

variable {c c₁ : BitVec 8} {k : Nat}

theorem toNat_wide (c : BitVec 8) : (c.setWidth 32).toNat = c.toNat := BitVec.toNat_setWidth_of_le (by decide)

theorem wide_slt (hk : k < 256) : (c.setWidth 32).slt (BitVec.ofNat 32 k) = decide (c.toNat < k) := by
  have hc := c.isLt
  have hw := toNat_wide c
  have hn := toNat_ofNat_of_lt (show k < 2 ^ 32 by omega)
  rw [Bool.eq_iff_iff, slt_iff (by omega) (by omega), decide_eq_true_eq, hw, hn]

theorem slt_wide (hk : k < 256) : (BitVec.ofNat 32 k).slt (c.setWidth 32) = decide (k < c.toNat) := by
  have hc := c.isLt
  have hw := toNat_wide c
  have hn := toNat_ofNat_of_lt (show k < 2 ^ 32 by omega)
  rw [Bool.eq_iff_iff, slt_iff (by omega) (by omega), decide_eq_true_eq, hw, hn]

theorem wide_sle (hk : k < 256) : (c.setWidth 32).sle (BitVec.ofNat 32 k) = decide (c.toNat ≤ k) := by
  have hc := c.isLt
  have hw := toNat_wide c
  have hn := toNat_ofNat_of_lt (show k < 2 ^ 32 by omega)
  rw [Bool.eq_iff_iff, sle_iff (by omega) (by omega), decide_eq_true_eq, hw, hn]

theorem sle_wide (hk : k < 256) : (BitVec.ofNat 32 k).sle (c.setWidth 32) = decide (k ≤ c.toNat) := by
  have hc := c.isLt
  have hw := toNat_wide c
  have hn := toNat_ofNat_of_lt (show k < 2 ^ 32 by omega)
  rw [Bool.eq_iff_iff, sle_iff (by omega) (by omega), decide_eq_true_eq, hw, hn]

theorem wide_eq (hk : k < 256) : c.setWidth 32 = BitVec.ofNat 32 k ↔ c.toNat = k := by
  rw [← BitVec.toNat_inj, toNat_wide, toNat_ofNat_of_lt (by omega)]

/-- The number of bytes after the first, as a word. -/
def need (c : BitVec 8) : BitVec 32 :=
  match following c with
  | some n => BitVec.ofNat 32 n
  | none => -1#32

theorem decodeNeed_eq (hc : ¬ c.toNat < 128) : decodeNeed (c.setWidth 32) = need c := by
  rw [decodeNeed, need, sle_wide (by decide), wide_sle (by decide), sle_wide (by decide), wide_sle (by decide),
    sle_wide (by decide), wide_sle (by decide), following, if_neg hc]
  simp only [Bool.and_eq_true, decide_eq_true_eq]
  split
  · rfl
  split
  · rfl
  split <;> rfl

theorem validNeed_eq : validNeed (c.setWidth 32) = need c := by
  rw [validNeed]
  simp only [wide_slt (show 128 < 256 by decide), decide_eq_true_eq]
  by_cases hc : c.toNat < 128
  · rw [if_pos hc, need, following, if_pos hc]
  · rw [if_neg hc]
    exact decodeNeed_eq hc

theorem second_iff : Second c c₁ ↔
    (if c.toNat = 224 then 160 else if c.toNat = 240 then 144 else 128) ≤ c₁.toNat ∧
      c₁.toNat ≤ if c.toNat = 237 then 159 else if c.toNat = 244 then 143 else 191 := by
  rw [Second, Tail]
  split_ifs <;> omega

/-- Both functions test the second byte alike. -/
theorem second_test :
    ((c₁.setWidth 32).slt (if c.setWidth 32 = 224#32 then 160#32 else if c.setWidth 32 = 240#32 then 144#32
        else 128#32) ||
      (if c.setWidth 32 = 237#32 then 159#32 else if c.setWidth 32 = 244#32 then 143#32 else 191#32).slt
        (c₁.setWidth 32)) = !decide (Second c c₁) := by
  simp only [wide_eq (show 224 < 256 by decide), wide_eq (show 240 < 256 by decide),
    wide_eq (show 237 < 256 by decide), wide_eq (show 244 < 256 by decide)]
  have hlo : ∀ a b d : Nat, a < 256 → b < 256 → d < 256 → (c₁.setWidth 32).slt
      (if c.toNat = 224 then BitVec.ofNat 32 a else if c.toNat = 240 then BitVec.ofNat 32 b else BitVec.ofNat 32 d)
      = decide (c₁.toNat < if c.toNat = 224 then a else if c.toNat = 240 then b else d) := by
    intro a b d ha hb hd
    split
    · exact wide_slt ha
    split
    · exact wide_slt hb
    · exact wide_slt hd
  have hhi : ∀ a b d : Nat, a < 256 → b < 256 → d < 256 →
      (if c.toNat = 237 then BitVec.ofNat 32 a else if c.toNat = 244 then BitVec.ofNat 32 b else BitVec.ofNat 32 d).slt
        (c₁.setWidth 32)
      = decide ((if c.toNat = 237 then a else if c.toNat = 244 then b else d) < c₁.toNat) := by
    intro a b d ha hb hd
    split
    · exact slt_wide ha
    split
    · exact slt_wide hb
    · exact slt_wide hd
  rw [hlo 160 144 128 (by decide) (by decide) (by decide), hhi 159 143 191 (by decide) (by decide) (by decide),
    Bool.eq_iff_iff]
  simp only [Bool.or_eq_true, decide_eq_true_eq, Bool.not_eq_true', decide_eq_false_iff_not, second_iff]
  omega

theorem tail_test : ((c.setWidth 32).slt 128#32 || (191#32).slt (c.setWidth 32)) = !decide (Tail c) := by
  rw [wide_slt (by decide), slt_wide (by decide), Bool.eq_iff_iff]
  simp only [Bool.or_eq_true, decide_eq_true_eq, Bool.not_eq_true', decide_eq_false_iff_not]
  rw [Tail]
  omega

/-- Six more bits. -/
theorem toNat_more {x y : BitVec 32} (hx : x.toNat < 2 ^ 26) :
    (shl x 6#32 ||| (y &&& 63#32)).toNat = x.toNat * 64 + y.toNat % 64 := by
  have h6 : (6#32).toNat % 32 = 6 := rfl
  have h63 : (63#32).toNat = 2 ^ 6 - 1 := rfl
  rw [shl, h6, BitVec.toNat_or, BitVec.toNat_shiftLeft, BitVec.toNat_and, h63, Nat.and_two_pow_sub_one_eq_mod,
    Nat.shiftLeft_eq, Nat.mod_eq_of_lt (by omega), ← Nat.shiftLeft_eq,
    ← Nat.shiftLeft_add_eq_or_of_lt (Nat.mod_lt _ (by decide)), Nat.shiftLeft_eq]

end Tables

/-! ### Decoding -/

section Decoding

open Utf8

variable {b rest : List (BitVec 8)} {i : BitVec 32} {c : BitVec 8}

/-- What is decoded where bytes begin. -/
def charOf (c : BitVec 8) (r : Option (Nat × Nat)) : Char :=
  match r with
  | some (cp, k) => ⟨BitVec.ofNat 32 cp, BitVec.ofNat 32 k⟩
  | none => ⟨c.setWidth 32, 0#32⟩

theorem byteAt_of_drop (hb : b.length + 8 < 2 ^ 31) (h : b.drop i.toNat = c :: rest) {k : Nat} {x : BitVec 8}
    (hx : (c :: rest)[k]? = some x) : byteAt b (i + BitVec.ofNat 32 k) = done (x.setWidth 32) := by
  have hget : b[i.toNat + k]? = some x := by rw [← List.getElem?_drop, h, hx]
  have hlt := (List.getElem?_eq_some_iff.mp hget).1
  have hk : (BitVec.ofNat 32 k).toNat = k := toNat_ofNat_of_lt (by omega)
  have hnat : (i + BitVec.ofNat 32 k).toNat = i.toNat + k := by rw [toNat_add_of_lt (by omega), hk]
  exact byteAt_eq (by omega) (by rw [hnat, hget])

theorem byteAt_first (hb : b.length + 8 < 2 ^ 31) (h : b.drop i.toNat = c :: rest) :
    byteAt b i = done (c.setWidth 32) := by
  have hbyte := byteAt_of_drop (k := 0) hb h rfl
  rwa [BitVec.add_zero] at hbyte

/-- A round of the loop of `decode`. -/
theorem decodeRound_eq (hb : b.length + 8 < 2 ^ 31) (h : b.drop i.toNat = c :: rest) {n k : Nat} {x : BitVec 8}
    {cp : BitVec 32} (hn : n < 4) (hk : k + 1 ≤ n) (hx : (c :: rest)[k + 1]? = some x) :
    decodeRound b i (BitVec.ofNat 32 n) (BitVec.ofNat 32 (k + 1), cp) =
      done (if Tail x then .inl (BitVec.ofNat 32 (k + 2), shl cp 6#32 ||| (x.setWidth 32 &&& 63#32))
        else .inr none) := by
  have hlast : BitVec.ofNat 32 n + 1#32 = BitVec.ofNat 32 (n + 1) := (BitVec.ofNat_add n 1).symm
  rw [decodeRound, hlast, slt_sub_one_iff (by omega) (by omega), if_neg (by simp only [decide_eq_true_eq]; omega),
    byteAt_of_drop hb h hx, done_bind]
  by_cases ht : Tail x
  · have hnext : BitVec.ofNat 32 (k + 1) + 1#32 = BitVec.ofNat 32 (k + 2) := (BitVec.ofNat_add (k + 1) 1).symm
    rw [if_neg (by rw [tail_test]; simp [ht]), if_pos ht, hnext]
    rfl
  · rw [if_pos (by rw [tail_test]; simp [ht]), if_neg ht]
    rfl

theorem decodeRound_end {n : Nat} {cp : BitVec 32} (hn : n < 4) :
    decodeRound b i (BitVec.ofNat 32 n) (BitVec.ofNat 32 (n + 1), cp) = done (.inr (some cp)) := by
  have hlast : BitVec.ofNat 32 n + 1#32 = BitVec.ofNat 32 (n + 1) := (BitVec.ofNat_add n 1).symm
  rw [decodeRound, hlast, slt_sub_one_iff (by omega) (by omega), if_pos (by simp)]
  rfl

/-- Six more bits of a character. -/
theorem more_eq {w : BitVec 32} {x : BitVec 8} (hw : w.toNat < 2 ^ 26) (hx : Tail x) :
    shl w 6#32 ||| (x.setWidth 32 &&& 63#32) = BitVec.ofNat 32 (w.toNat * 64 + (x.toNat - 128)) := by
  obtain ⟨hlo, hhi⟩ := hx
  refine BitVec.eq_of_toNat_eq ?_
  rw [toNat_more hw, toNat_wide, toNat_ofNat_of_lt (by omega)]
  omega

/-- The loop of `decode`. -/
theorem decodeLoop_eq (hb : b.length + 8 < 2 ^ 31) (h : b.drop i.toNat = c :: rest) {n : Nat} (hn : n < 4)
    (hlen : n ≤ rest.length) : ∀ (fuel k : Nat) (w : BitVec 32), k ≤ n → n < fuel + k → w.toNat < 2 ^ (8 + 6 * k) →
      iterate (decodeRound b i (BitVec.ofNat 32 n)) fuel (BitVec.ofNat 32 (k + 1), w)
        = done ((more w.toNat ((rest.take n).drop k)).map (BitVec.ofNat 32))
  | 0, k, w, hk, hfuel, _ => by omega
  | fuel + 1, k, w, hk, hfuel, hw => by
      rcases Nat.lt_or_ge k n with hlt | hge
      · obtain ⟨x, hx⟩ : ∃ x, rest[k]? = some x := ⟨rest[k], List.getElem?_eq_getElem (by omega)⟩
        have hx' : (rest.take n)[k]? = some x := by rw [List.getElem?_take_of_lt hlt, hx]
        have hw20 : w.toNat < 2 ^ 20 := hw.trans_le (Nat.pow_le_pow_right (by decide) (by omega))
        have hmul : 2 ^ (8 + 6 * (k + 1)) = 2 ^ (8 + 6 * k) * 64 := by rw [Nat.mul_succ, ← Nat.add_assoc, Nat.pow_add]
        obtain ⟨hlt', hget⟩ := List.getElem?_eq_some_iff.mp hx'
        rw [iterate, decodeRound_eq hb h hn hlt hx, done_bind, List.drop_eq_getElem_cons hlt', hget, more]
        by_cases ht : Tail x
        · have hx64 : x.toNat - 128 < 64 := by
            rw [Tail] at ht
            omega
          have hword : (BitVec.ofNat 32 (w.toNat * 64 + (x.toNat - 128))).toNat = w.toNat * 64 + (x.toNat - 128) :=
            toNat_ofNat_of_lt (by omega)
          rw [if_pos ht, if_pos ht, more_eq (by omega) ht]
          dsimp only
          rw [decodeLoop_eq hb h hn hlen fuel (k + 1) _ hlt (by omega) (by omega), hword]
        · rw [if_neg ht, if_neg ht]
          rfl
      · obtain rfl : k = n := Nat.le_antisymm hk hge
        have hdrop : (rest.take k).drop k = [] := List.drop_eq_nil_of_le (by rw [List.length_take]; omega)
        rw [iterate, decodeRound_end hn, hdrop, more, Option.map_some, BitVec.ofNat_toNat, BitVec.setWidth_eq]
        rfl

/-- The bits of the first byte. -/
theorem toNat_firstBits {n : Nat} (h : following c = some n) (hpos : 0 < n) :
    (c.setWidth 32 &&& (if BitVec.ofNat 32 n = 1#32 then 31#32 else if BitVec.ofNat 32 n = 2#32 then 15#32
      else 7#32)).toNat = c.toNat - leadBits n := by
  have hand : ∀ j < 32, (c.setWidth 32 &&& BitVec.ofNat 32 (2 ^ j - 1)).toNat = c.toNat % 2 ^ j := by
    intro j hj
    have hlt : 2 ^ j < 2 ^ 32 := Nat.pow_lt_pow_right (by decide) hj
    rw [BitVec.toNat_and, toNat_ofNat_of_lt (by omega), Nat.and_two_pow_sub_one_eq_mod, toNat_wide]
  have h5 := hand 5 (by decide)
  have h4 := hand 4 (by decide)
  have h3 := hand 3 (by decide)
  rcases following_cases c with ⟨hf, hr⟩ | ⟨hf, hr⟩ | ⟨hf, hr⟩ | ⟨hf, hr⟩ | hf
  · rw [h] at hf
    obtain rfl := Option.some.inj hf
    omega
  · rw [h] at hf
    obtain rfl := Option.some.inj hf
    have hlead : leadBits 1 = 192 := rfl
    rw [if_pos rfl]
    exact h5.trans (by omega)
  · rw [h] at hf
    obtain rfl := Option.some.inj hf
    have hlead : leadBits 2 = 224 := rfl
    rw [if_neg (by decide), if_pos rfl]
    exact h4.trans (by omega)
  · rw [h] at hf
    obtain rfl := Option.some.inj hf
    have hlead : leadBits 3 = 240 := rfl
    rw [if_neg (by decide), if_neg (by decide)]
    exact h3.trans (by omega)
  · rw [h] at hf
    cases hf

/-- Where there are too few bytes for a character. -/
theorem short_test (hb : b.length + 8 < 2 ^ 31) (h : b.drop i.toNat = c :: rest) {n : Nat} (hn : n < 4) :
    ((BitVec.ofNat 32 n).slt 0#32 || (arrLen b).sle (i + BitVec.ofNat 32 n)) = decide (rest.length < n) := by
  have hlen := congrArg List.length h
  rw [List.length_drop, List.length_cons] at hlen
  have hnat : (i + BitVec.ofNat 32 n).toNat = i.toNat + n := by
    rw [toNat_add_of_lt] <;> rw [toNat_ofNat_of_lt (by omega)]
    omega
  have harr : (arrLen b).toNat = b.length := toNat_arrLen (by omega)
  have hn' : (BitVec.ofNat 32 n).toNat = n := toNat_ofNat_of_lt (by omega)
  rw [not_slt_zero (by omega), Bool.false_or, Bool.eq_iff_iff, sle_iff (by omega) (by omega), decide_eq_true_eq]
  omega

/-- **Decoding** gives what the bytes begin with. -/
theorem decode_eq (hb : b.length + 8 < 2 ^ 31) (h : b.drop i.toNat = c :: rest) :
    decode b i = done (charOf c (read (c :: rest))) := by
  have hlen := congrArg List.length h
  rw [List.length_drop, List.length_cons] at hlen
  have harr : (arrLen b).toNat = b.length := toNat_arrLen (by omega)
  have hreq : ((0#32).sle i && i.slt (arrLen b)) = true := by
    rw [zero_sle (by omega), (slt_iff (by omega) (by omega)).mpr (by omega)]
    rfl
  have hc := c.isLt
  rw [decode, hreq, byteAt_first hb h]
  simp only [require, if_true, done_bind]
  rw [wide_slt (by decide)]
  by_cases hascii : c.toNat < 128
  · rw [if_pos (decide_eq_true hascii), read_cons (following_eq (.inl ⟨rfl, hascii⟩)), readAfter, charOf,
      BitVec.ofNat_toNat]
    rfl
  rw [if_neg (by simpa using hascii), decodeNeed_eq hascii, need]
  cases hf : following c with
  | none =>
    rw [read_none hf]
    exact if_pos rfl
  | some n =>
    obtain ⟨hpos, hlt⟩ : 0 < n ∧ n < 4 := by
      rcases following_cases c with ⟨hf', hr⟩ | ⟨hf', hr⟩ | ⟨hf', hr⟩ | ⟨hf', hr⟩ | hf' <;> rw [hf] at hf'
      · omega
      all_goals
        first
          | (obtain rfl := Option.some.inj hf'; decide)
          | cases hf'
    dsimp only
    rw [short_test hb h hlt, read_cons hf]
    by_cases hshort : rest.length < n
    · rw [if_pos (decide_eq_true hshort), readAfter_short hpos hlt hshort]
      rfl
    rw [if_neg (by simpa using hshort)]
    obtain ⟨c₁, rest, rfl⟩ : ∃ c₁ rest', rest = c₁ :: rest' := by
      cases rest with
      | nil =>
        simp only [List.length_nil] at hshort
        omega
      | cons c₁ rest' => exact ⟨c₁, rest', rfl⟩
    have hbyte₁ : byteAt b (i + 1#32) = done (c₁.setWidth 32) := byteAt_of_drop (k := 1) hb h rfl
    have hbits := toNat_firstBits hf hpos
    have hsmall : c.toNat - leadBits n < 64 := toNat_lead_lt hf hpos
    rw [List.length_cons] at hshort
    rw [hbyte₁, done_bind, second_test, readAfter_cons hpos hlt (by omega)]
    by_cases hs : Second c c₁
    · have htail := hs.1
      have hloop := decodeLoop_eq hb h hlt (by rw [List.length_cons]; omega) 4 1
        (BitVec.ofNat 32 ((c.toNat - leadBits n) * 64 + (c₁.toNat - 128))) hpos (by omega)
        (by
          rw [Tail] at htail
          rw [toNat_ofNat_of_lt (by omega)]
          omega)
      rw [if_neg (by simp [hs]), if_pos hs, more_eq (by rw [hbits]; omega) htail, hbits, hloop, done_bind]
      have hlast : BitVec.ofNat 32 n + 1#32 = BitVec.ofNat 32 (n + 1) := (BitVec.ofNat_add n 1).symm
      rw [Tail] at htail
      rw [toNat_ofNat_of_lt (by omega), List.drop_take, List.drop_succ_cons, List.drop_zero, hlast]
      cases more ((c.toNat - leadBits n) * 64 + (c₁.toNat - 128)) (rest.take (n - 1)) with
      | some cp => rfl
      | none => rfl
    · rw [if_pos (by simp [hs]), if_neg hs]
      rfl

end Decoding

/-! ### Encoding -/

section Encoding

variable {σ : Type} {A : Allocator σ} {fuel : Nat} {out : Content σ}

theorem scalar_eq (cp : BitVec 32) : scalar cp = true ↔ Utf8.IsScalar cp.toNat := by
  have hmax : (1114111#32).toInt = 1114111 := rfl
  have hlo : (55296#32).toInt = 55296 := rfl
  have hhi : (57343#32).toInt = 57343 := rfl
  have h0 : (0#32).toInt = 0 := rfl
  have hcp := BitVec.toInt_eq_toNat_cond cp
  have hlt := cp.isLt
  rw [scalar, Utf8.IsScalar]
  simp only [BitVec.sle_eq_decide, hmax, hlo, hhi, h0, Bool.and_eq_true, Bool.not_eq_true', decide_eq_true_eq,
    ← Bool.not_eq_true]
  split at hcp <;> omega

/-- A byte with bits that say what it is. -/
theorem tagged (m k : Nat) {x : BitVec 32} (hx : x.toNat < 2 ^ k) (hm : (m + 1) * 2 ^ k ≤ 256) :
    (BitVec.ofNat 32 (m * 2 ^ k) ||| x).setWidth 8 = BitVec.ofNat 8 (m * 2 ^ k + x.toNat) := by
  have hlt : m * 2 ^ k + x.toNat < 256 := by
    rw [Nat.succ_mul] at hm
    omega
  refine BitVec.eq_of_toNat_eq ?_
  rw [BitVec.toNat_setWidth, BitVec.toNat_or, toNat_ofNat_of_lt (by omega), ← Nat.shiftLeft_eq,
    ← Nat.shiftLeft_add_eq_or_of_lt hx, Nat.shiftLeft_eq, BitVec.toNat_ofNat]

/-- **Encoding** pushes the bytes of the code point. -/
theorem encode_eq {cp : BitVec 32} (h : scalar cp = true) :
    encode A fuel out cp = pushAll A fuel out (Utf8.encode cp.toNat) := by
  obtain ⟨hmax, hsur⟩ := (scalar_eq cp).mp h
  have hmsb : cp.msb = false := by
    rw [BitVec.msb_eq_false_iff_two_mul_lt]
    omega
  have hshr : ∀ j, (cp.sshiftRight j).toNat = cp.toNat / 2 ^ j := by
    intro j
    rw [BitVec.sshiftRight_eq_of_msb_false hmsb, BitVec.toNat_ushiftRight, Nat.shiftRight_eq_div_pow]
  have hlow : ∀ x : BitVec 32, (x &&& 63#32).toNat = x.toNat % 64 := by
    intro x
    have h63 : (63#32).toNat = 2 ^ 6 - 1 := rfl
    rw [BitVec.toNat_and, h63, Nat.and_two_pow_sub_one_eq_mod]
  have htail : ∀ x : BitVec 32, (128#32 ||| (x &&& 63#32)).setWidth 8 = BitVec.ofNat 8 (128 + x.toNat % 64) := by
    intro x
    rw [← hlow]
    exact tagged 2 6 (by rw [hlow]; omega) (by decide)
  rw [encode, h, Utf8.encode]
  simp only [require, if_true, done_bind]
  have hlt128 : cp.slt 128#32 = true ↔ cp.toNat < 128 := slt_iff (by omega) (by decide)
  have hlt2048 : cp.slt 2048#32 = true ↔ cp.toNat < 2048 := slt_iff (by omega) (by decide)
  have hlt65536 : cp.slt 65536#32 = true ↔ cp.toNat < 65536 := slt_iff (by omega) (by decide)
  simp only [hlt128, hlt2048, hlt65536]
  have h6 : (cp.sshiftRight 6).toNat = cp.toNat / 64 := hshr 6
  have h12 : (cp.sshiftRight 12).toNat = cp.toNat / 4096 := hshr 12
  have h18 : (cp.sshiftRight 18).toNat = cp.toNat / 262144 := hshr 18
  split
  · have hbyte : cp.setWidth 8 = BitVec.ofNat 8 cp.toNat := by
      rw [← BitVec.toNat_inj, BitVec.toNat_setWidth, BitVec.toNat_ofNat]
    exact (pushAll_one hbyte).symm
  split
  · have hlead : (192#32 ||| cp.sshiftRight 6).setWidth 8 = BitVec.ofNat 8 (192 + cp.toNat / 64) := by
      have ht := tagged 6 5 (x := cp.sshiftRight 6) (by omega) (by decide)
      rw [h6] at ht
      exact ht
    rw [pushAll_cons hlead]
    congr
    funext out
    exact (pushAll_one (htail cp)).symm
  split
  · have hlead : (224#32 ||| cp.sshiftRight 12).setWidth 8 = BitVec.ofNat 8 (224 + cp.toNat / 4096) := by
      have ht := tagged 14 4 (x := cp.sshiftRight 12) (by omega) (by decide)
      rw [h12] at ht
      exact ht
    have hmid := htail (cp.sshiftRight 6)
    rw [h6] at hmid
    rw [pushAll_cons hlead]
    congr
    funext out
    rw [pushAll_cons hmid]
    congr
    funext out
    exact (pushAll_one (htail cp)).symm
  · have hlead : (240#32 ||| cp.sshiftRight 18).setWidth 8 = BitVec.ofNat 8 (240 + cp.toNat / 262144) := by
      have ht := tagged 30 3 (x := cp.sshiftRight 18) (by omega) (by decide)
      rw [h18] at ht
      exact ht
    have hmid₁ := htail (cp.sshiftRight 12)
    have hmid₂ := htail (cp.sshiftRight 6)
    rw [h12] at hmid₁
    rw [h6] at hmid₂
    rw [pushAll_cons hlead]
    congr
    funext out
    rw [pushAll_cons hmid₁]
    congr
    funext out
    rw [pushAll_cons hmid₂]
    congr
    funext out
    exact (pushAll_one (htail cp)).symm

/-- The code points of a text, each encoded. -/
def encodeAll (A : Allocator σ) (fuel : Nat) (out : Content σ) (cps : List (BitVec 32)) : Outcome (Content σ) :=
  foldAll (encode A fuel) out cps

theorem encodeAll_eq {cps : List (BitVec 32)} (h : ∀ cp ∈ cps, scalar cp = true) (out : Content σ) :
    encodeAll A fuel out cps = pushAll A fuel out ((cps.map BitVec.toNat).flatMap Utf8.encode) := by
  induction cps generalizing out with
  | nil => rfl
  | cons cp cps ih =>
    rw [List.map_cons, List.flatMap_cons, pushAll_append, encodeAll, foldAll, encode_eq (h cp List.mem_cons_self)]
    congr
    funext out
    exact ih (fun x hx => h x (List.mem_cons_of_mem _ hx)) out

end Encoding

/-! ### Stepping through a text -/

section Texts

open Utf8

variable {b : List (BitVec 8)} {fuel : Nat}

def Char.item (ch : Char) : Nat × Nat := (ch.cp.toNat, ch.len.toNat)

theorem item_charOf (c : BitVec 8) (rest : List (BitVec 8)) :
    (charOf c (Utf8.read (c :: rest))).item = (Utf8.read (c :: rest)).getD (c.toNat, 0) := by
  cases h : Utf8.read (c :: rest) with
  | none => rw [charOf, Char.item, toNat_wide]; rfl
  | some r =>
    obtain ⟨cp, k⟩ := r
    obtain ⟨⟨hmax, -⟩, -, hk⟩ := read_sound h
    have hlen := length_encode_le cp
    rw [charOf, Char.item, toNat_ofNat_of_lt (by omega), toNat_ofNat_of_lt (by omega)]
    rfl

/-- **A step** takes a character off, or a byte. -/
theorem splits_round (hb : b.length + 8 < 2 ^ 31) {i : BitVec 32} (hi : i.toNat < b.length) :
    ∃ ch, decode b i = done ch ∧ i.toNat < (i + step ch).toNat ∧ (i + step ch).toNat ≤ b.length ∧
      ∀ items, Splits (b.drop (i + step ch).toNat) items → Splits (b.drop i.toNat) (ch.item :: items) := by
  obtain ⟨c, rest, h⟩ : ∃ c rest, b.drop i.toNat = c :: rest := ⟨_, _, List.drop_eq_getElem_cons hi⟩
  refine ⟨_, decode_eq hb h, ?_⟩
  have hlen := congrArg List.length h
  rw [List.length_drop] at hlen
  rw [item_charOf, h]
  cases hr : Utf8.read (c :: rest) with
  | none =>
    have h1 : (step (charOf c none)).toNat = 1 := rfl
    have hstep : (i + step (charOf c none)).toNat = i.toNat + 1 := by rw [toNat_add_of_lt (by omega), h1]
    rw [hstep]
    refine ⟨by omega, by omega, fun items ht => ?_⟩
    rw [← List.drop_drop, h, List.drop_succ_cons, List.drop_zero] at ht
    exact .byte hr ht
  | some r =>
    obtain ⟨cp, k⟩ := r
    obtain ⟨-, hpre, hk⟩ := read_sound hr
    have hpos := length_encode_pos cp
    have hle := length_encode_le cp
    have hple := hpre.length_le
    have hn : (BitVec.ofNat 32 k).toNat = k := toNat_ofNat_of_lt (by omega)
    have hstep : (i + step (charOf c (some (cp, k)))).toNat = i.toNat + k := by
      rw [step, charOf, if_neg fun h0 => by rw [← BitVec.toNat_inj, hn] at h0; simp at h0; omega,
        toNat_add_of_lt (by dsimp only; omega), hn]
    rw [hstep]
    refine ⟨by omega, by omega, fun items ht => ?_⟩
    rw [← List.drop_drop, h] at ht
    exact .char hr ht

/-- **The characters of a text** take it apart. -/
theorem chars_ends (hb : b.length + 8 < 2 ^ 31) (hfuel : b.length < fuel) :
    Ends (fun cs => Splits b (cs.map Char.item)) (chars fuel b) := by
  have hlen : (arrLen b).toNat = b.length := toNat_arrLen (by omega)
  refine iterate_ends (α := BitVec 32 × List Char)
    (fun s => s.1.toNat ≤ b.length ∧ ∀ items, Splits (b.drop s.1.toNat) items → Splits b (s.2.map Char.item ++ items))
    _ (fun s => b.length - s.1.toNat) ?_ fuel _ ⟨Nat.zero_le _, fun items h => h⟩ (by simpa using hfuel)
  rintro ⟨i, cs⟩ ⟨hi, hsplit⟩
  rw [charsRound]
  dsimp only at hi hsplit ⊢
  rcases Nat.lt_or_ge i.toNat b.length with hlt | hge
  · obtain ⟨ch, hch, hmore, hle, hround⟩ := splits_round hb hlt
    rw [if_pos ((slt_iff (by omega) (by omega)).mpr (by omega)), hch, done_bind]
    refine ⟨⟨hle, fun items h => ?_⟩, by dsimp only; omega⟩
    rw [List.map_append, List.append_assoc]
    exact hsplit _ (hround items h)
  · rw [if_neg (fun h => by rw [slt_iff (by omega) (by omega)] at h; omega)]
    have hall := hsplit [] (by rw [List.drop_eq_nil_of_le hge]; exact .nil)
    rwa [List.append_nil] at hall

theorem countRound_eq (i : BitVec 32) (cs : List Char) :
    countRound b (i, BitVec.ofNat 32 cs.length) = charsRound b (i, cs) >>= fun r =>
      done (r.elim (fun s => .inl (s.1, BitVec.ofNat 32 s.2.length)) fun cs => .inr (BitVec.ofNat 32 cs.length)) := by
  rw [countRound, charsRound]
  dsimp only
  split
  · rw [bind_assoc]
    congr
    funext ch
    rw [pure_eq, pure_eq, done_bind, Sum.elim_inl, List.length_append, List.length_singleton, BitVec.ofNat_add]
  · rfl

/-- `count` counts them. -/
theorem count_eq : ∀ (fuel : Nat) (i : BitVec 32) (cs : List Char),
    iterate (countRound b) fuel (i, BitVec.ofNat 32 cs.length)
      = iterate (charsRound b) fuel (i, cs) >>= fun cs => done (BitVec.ofNat 32 cs.length)
  | 0, _, _ => rfl
  | fuel + 1, i, cs => by
      rw [iterate, iterate, countRound_eq, bind_assoc, bind_assoc]
      congr
      funext r
      cases r with
      | inl s => exact count_eq fuel s.1 s.2
      | inr cs => rfl

/-! ### Validating -/

theorem searchFrom_tail (xs : List (BitVec 8)) (lo cp : Nat) :
    searchFrom (fun _ x => if Tail x then none else some false) true lo xs = (more cp xs).isSome := by
  induction xs generalizing lo cp with
  | nil => rfl
  | cons x xs ih =>
    rw [searchFrom, more]
    by_cases ht : Tail x
    · rw [if_pos ht, if_pos ht]
      exact ih ..
    · rw [if_neg ht, if_neg ht]
      rfl

/-- The bytes after the first. -/
theorem validMore_eq (hb : b.length + 8 < 2 ^ 31) {i : BitVec 32} {c : BitVec 8} {rest : List (BitVec 8)}
    (h : b.drop i.toNat = c :: rest) {n : Nat} (hf : following c = some n) (hlen : n ≤ rest.length) :
    validMore b i (c.setWidth 32) (BitVec.ofNat 32 n) = done (Utf8.read (c :: rest)).isSome := by
  have hn := following_lt hf
  have hblen := congrArg List.length h
  rw [List.length_drop, List.length_cons] at hblen
  rw [validMore, read_cons hf]
  rcases Nat.eq_zero_or_pos n with rfl | hpos
  · rfl
  obtain ⟨c₁, rest, rfl⟩ : ∃ c₁ rest', rest = c₁ :: rest' := List.exists_cons_of_length_pos (by omega)
  have hbyte₁ : byteAt b (i + 1#32) = done (c₁.setWidth 32) := byteAt_of_drop (k := 1) hb h rfl
  have hslt : (0#32).slt (BitVec.ofNat 32 n) = true := by
    have hnat : (BitVec.ofNat 32 n).toNat = n := toNat_ofNat_of_lt (by omega)
    rw [slt_iff (by decide) (by omega), hnat]
    exact hpos
  rw [List.length_cons] at hlen
  rw [if_pos hslt, hbyte₁, done_bind, readAfter_cons hpos hn hlen]
  dsimp only
  rw [second_test]
  by_cases hs : Second c c₁
  · have hlast : BitVec.ofNat 32 n + 1#32 = BitVec.ofNat 32 (n + 1) := (BitVec.ofNat_add n 1).symm
    have hbody : ∀ (k : Nat) (x : BitVec 8), k < n + 1 → (c :: c₁ :: rest)[k]? = some x →
        validRest b i (BitVec.ofNat 32 k) = done (if Tail x then none else some false) := by
      intro k x _ hx
      rw [validRest, byteAt_of_drop hb h hx, done_bind]
      by_cases ht : Tail x
      · rw [if_neg (by rw [tail_test]; simp [ht]), if_pos ht]
        rfl
      · rw [if_pos (by rw [tail_test]; simp [ht]), if_neg ht]
        rfl
    have hhi : n + 1 ≤ (c :: c₁ :: rest).length := by simpa using hlen
    have hloop := forReturn_eq (g := fun _ x => if Tail x then none else some false) (validRest b i) true hhi
      (by rw [List.length_cons]; omega) hbody 4 2 (by omega) (by omega)
    rw [if_neg (by simp [hs]), if_pos hs, hlast, hloop, searchFrom_tail, Option.isSome_map, List.drop_take]
    rfl
  · rw [if_pos (by simp [hs]), if_neg hs]
    rfl

/-- **A round of validating** moves past a character, or ends where there is none. -/
theorem validRound_eq (hb : b.length + 8 < 2 ^ 31) {i : BitVec 32} {c : BitVec 8} {rest : List (BitVec 8)}
    (h : b.drop i.toNat = c :: rest) :
    validRound b i = done ((Utf8.read (c :: rest)).elim (.inr false) fun r => .inl (i + BitVec.ofNat 32 r.2)) := by
  have hblen := congrArg List.length h
  rw [List.length_drop, List.length_cons] at hblen
  have harr : (arrLen b).toNat = b.length := toNat_arrLen (by omega)
  rw [validRound]
  dsimp only
  rw [if_pos ((slt_iff (by omega) (by omega)).mpr (by omega)), byteAt_first hb h, done_bind, validNeed_eq, need]
  cases hf : following c with
  | none =>
    rw [read_none hf]
    exact if_pos rfl
  | some n =>
    have hn := following_lt hf
    have hnat : (BitVec.ofNat 32 n).toNat = n := toNat_ofNat_of_lt (by omega)
    have hadd : (i + BitVec.ofNat 32 n).toNat = i.toNat + n := by rw [toNat_add_of_lt (by omega), hnat]
    have hlast : (arrLen b - 1#32).toNat = b.length - 1 := by
      have h1 : (1#32).toNat = 1 := rfl
      rw [BitVec.toNat_sub, harr, h1]
      omega
    have hshort : ((BitVec.ofNat 32 n).slt 0#32 || (arrLen b - 1#32).slt (i + BitVec.ofNat 32 n))
        = decide (rest.length < n) := by
      rw [not_slt_zero (by omega), Bool.false_or, Bool.eq_iff_iff, slt_iff (by omega) (by omega), decide_eq_true_eq]
      omega
    dsimp only
    rw [hshort]
    by_cases hlen : n ≤ rest.length
    · rw [if_neg (by simp [hlen]), validMore_eq hb h hf hlen, done_bind]
      cases hr : Utf8.read (c :: rest) with
      | none => rfl
      | some r =>
        have hnext : BitVec.ofNat 32 n + 1#32 = BitVec.ofNat 32 (n + 1) := (BitVec.ofNat_add n 1).symm
        rw [Option.isSome_some, if_pos rfl, hnext, Option.elim_some, read_len hf hr]
        rfl
    · have hne : ¬ BitVec.ofNat 32 n = 0#32 := by
        intro h0
        rw [h0] at hnat
        simp only [BitVec.toNat_ofNat] at hnat
        omega
      rw [if_pos (by simp [hne]; omega), read_cons hf, readAfter_short (by omega) hn (by omega)]
      rfl

/-- **Validating** tells whether the bytes are those of scalar values. -/
theorem validUtf8_ends (hb : b.length + 8 < 2 ^ 31) (hfuel : b.length < fuel) :
    Ends (fun ok => ok = true ↔ IsUtf8 b) (validUtf8 fuel b) := by
  have hlen : (arrLen b).toNat = b.length := toNat_arrLen (by omega)
  refine iterate_ends (fun i => i.toNat ≤ b.length ∧ (IsUtf8 b ↔ IsUtf8 (b.drop i.toNat))) _
    (fun i => b.length - i.toNat) ?_ fuel _ ⟨Nat.zero_le _, Iff.rfl⟩ (by simpa using hfuel)
  rintro i ⟨hi, hiff⟩
  rcases Nat.lt_or_ge i.toNat b.length with hlt | hge
  · obtain ⟨c, rest, h⟩ : ∃ c rest, b.drop i.toNat = c :: rest := ⟨_, _, List.drop_eq_getElem_cons hlt⟩
    have hrest := congrArg List.length h
    rw [List.length_drop] at hrest
    rw [validRound_eq hb h]
    cases hr : Utf8.read (c :: rest) with
    | none =>
      rw [h] at hiff
      exact iff_of_false Bool.false_ne_true fun hb => not_isUtf8 hr (List.cons_ne_nil _ _) (hiff.mp hb)
    | some r =>
      obtain ⟨cp, k⟩ := r
      obtain ⟨-, hpre, hk⟩ := read_sound hr
      have hpos := length_encode_pos cp
      have hle := length_encode_le cp
      have hple := hpre.length_le
      have hn : (BitVec.ofNat 32 k).toNat = k := toNat_ofNat_of_lt (by omega)
      have hnext : (i + BitVec.ofNat 32 k).toNat = i.toNat + k := by rw [toNat_add_of_lt (by omega), hn]
      rw [h, isUtf8_iff_drop hr, ← h, List.drop_drop] at hiff
      rw [Option.elim_some, ends_done, Sum.elim_inl, hnext]
      exact ⟨⟨by omega, hiff⟩, by omega⟩
  · rw [validRound]
    dsimp only
    rw [if_neg (fun hc => by rw [slt_iff (by omega) (by omega)] at hc; omega)]
    rw [List.drop_eq_nil_of_le hge] at hiff
    exact iff_of_true rfl (hiff.mpr isUtf8_nil)

/-! ### The three together -/

/-- What the characters of a text say about it. -/
structure Describes {σ : Type} (A : Allocator σ) (fuel : Nat) (b : List (BitVec 8)) (cs : List Char) : Prop where
  /-- Validating finds whether one of them is of length 0. -/
  valid : validUtf8 fuel b = done (decide (∀ ch ∈ cs, ch.len ≠ 0#32))
  /-- If none is, what encoding the code points appends is the text; where there is room, it does. -/
  encoded : (∀ ch ∈ cs, ch.len ≠ 0#32) → ∀ out : Content σ,
    Returns (fun out' => out'.bytes = out.bytes ++ b) (encodeAll A fuel out (cs.map Char.cp)) ∧
      (out.bytes.length + b.length ≤ out.cap.toNat → out.cap.toNat < 2 ^ 31 →
        ∃ out', encodeAll A fuel out (cs.map Char.cp) = done out')
  /-- The steps go through the text, and end where it ends. -/
  covers : (∀ ch ∈ cs, 0 < (step ch).toNat) ∧ (cs.map fun ch => (step ch).toNat).sum = b.length
  scalars : ∀ ch ∈ cs, ch.len ≠ 0#32 → scalar ch.cp = true
  counted : count fuel b = done (BitVec.ofNat 32 cs.length)

theorem item_ne_zero {ch : Char} : ch.item.2 ≠ 0 ↔ ch.len ≠ 0#32 := by
  rw [Ne, Ne, ← BitVec.toNat_inj]
  rfl

theorem toNat_step (ch : Char) : (step ch).toNat = width ch.item := by
  rw [step, width]
  by_cases h : ch.len = 0#32
  · rw [if_pos h, if_pos (by rw [Char.item, h]; rfl)]
    rfl
  · rw [if_neg h, if_neg (item_ne_zero.mpr h)]
    rfl

theorem describes {σ : Type} (A : Allocator σ) {cs : List Char} (hb : b.length + 8 < 2 ^ 31)
    (hfuel : b.length < fuel) (hcs : chars fuel b = done cs) : Describes A fuel b cs := by
  have hsplit : Splits b (cs.map Char.item) := by
    have hends := chars_ends hb hfuel
    rwa [hcs] at hends
  have hiff : IsUtf8 b ↔ ∀ ch ∈ cs, ch.len ≠ 0#32 := by
    rw [hsplit.isUtf8_iff, List.forall_mem_map]
    simp only [item_ne_zero]
  have hscalars : ∀ ch ∈ cs, ch.len ≠ 0#32 → scalar ch.cp = true := by
    intro ch hch hne
    rw [scalar_eq]
    exact hsplit.scalar ch.item (List.mem_map_of_mem hch) (item_ne_zero.mpr hne)
  constructor
  case valid =>
    obtain ⟨ok, hok, hvalid⟩ := (validUtf8_ends hb hfuel).exists
    rw [hok, Bool.eq_iff_iff.mpr ((hvalid.trans hiff).trans decide_eq_true_iff.symm)]
  case encoded =>
    intro hne out
    have hall : ∀ cp ∈ cs.map Char.cp, scalar cp = true := by
      simp only [List.forall_mem_map]
      exact fun ch hch => hscalars ch hch (hne ch hch)
    have htext : ((cs.map Char.cp).map BitVec.toNat).flatMap Utf8.encode = b := by
      have hflat := hsplit.flatMap (hsplit.isUtf8_iff.mp (hiff.mpr hne))
      rwa [List.map_map] at hflat ⊢
    rw [encodeAll_eq hall, htext]
    exact ⟨pushAll_returns b out, fun hroom hcap => ⟨_, pushAll_ends hcap hroom⟩⟩
  case covers =>
    refine ⟨fun ch _ => ?_, ?_⟩
    · rw [toNat_step, width]
      split <;> omega
    · have hcovers := hsplit.covers
      rw [List.map_map] at hcovers
      simp only [toNat_step]
      exact hcovers
  case scalars => exact hscalars
  case counted =>
    have hcount := count_eq (b := b) fuel 0#32 []
    rw [← chars, hcs, done_bind] at hcount
    exact hcount

/-- **Decoding, encoding and validating agree.** -/
theorem utf8_agrees {σ : Type} (A : Allocator σ) (fuel : Nat) :
    (∀ b : List (BitVec 8), b.length + 8 < 2 ^ 31 → b.length < fuel →
      ∃ cs, chars fuel b = done cs ∧ Describes A fuel b cs) ∧
      ∀ cps : List (BitVec 32), (∀ cp ∈ cps, scalar cp = true) → ∀ out : Content σ,
        Returns (fun out' => ∃ l, out'.bytes = out.bytes ++ l ∧ (l.length + 8 < 2 ^ 31 → l.length < fuel →
          ∃ cs, chars fuel l = done cs ∧ cs.map Char.cp = cps ∧ ∀ ch ∈ cs, ch.len ≠ 0#32))
          (encodeAll A fuel out cps) ∧
        (out.bytes.length + 4 * cps.length ≤ out.cap.toNat → out.cap.toNat < 2 ^ 31 →
          ∃ out', encodeAll A fuel out cps = done out') := by
  refine ⟨fun b hb hfuel => ?_, fun cps hcps out => ?_⟩
  · obtain ⟨cs, hcs, -⟩ := (chars_ends hb hfuel).exists
    exact ⟨cs, hcs, describes A hb hfuel hcs⟩
  · rw [encodeAll_eq hcps]
    constructor
    · refine (pushAll_returns _ out).mono fun out' hout' => ⟨_, hout', fun hlen hfuel => ?_⟩
      obtain ⟨cs, hcs, hsplit⟩ := (chars_ends hlen hfuel).exists
      have hall : ∀ cp ∈ cps.map BitVec.toNat, IsScalar cp := by
        simp only [List.forall_mem_map]
        exact fun cp hcp => (scalar_eq cp).mp (hcps cp hcp)
      have hitems := hsplit.unique (splits_flatMap hall)
      refine ⟨cs, hcs, ?_, fun ch hch => ?_⟩
      · have hcp := congrArg (List.map fun item => BitVec.ofNat 32 item.1) hitems
        simpa [List.map_map, Function.comp_def, Char.item] using hcp
      · have hmem : ch.item ∈ cs.map Char.item := List.mem_map_of_mem hch
        rw [hitems, List.mem_map] at hmem
        obtain ⟨cp, -, hcp⟩ := hmem
        rw [← item_ne_zero, ← hcp]
        exact (length_encode_pos cp).ne'
    · intro hroom hcap
      have hbytes := length_flatMap_encode_le (cps.map BitVec.toNat)
      rw [List.length_map] at hbytes
      exact ⟨_, pushAll_ends hcap (by omega)⟩

/-- `€`, and the bytes that a surrogate would have. -/
def euroSurrogate : List (BitVec 8) := [0xE2#8, 0x82#8, 0xAC#8, 0xED#8, 0xA0#8, 0x80#8]

def unlimited : Allocator Unit := ⟨fun _ _ => some (), fun _ _ => some ()⟩

theorem euroSurrogate_describes : ∃ cs, chars 7 euroSurrogate = done cs ∧ Describes unlimited 7 euroSurrogate cs :=
  (utf8_agrees unlimited 7).1 euroSurrogate (by decide) (by decide)

example : validUtf8 7 euroSurrogate = done false := by decide

example : count 7 euroSurrogate = done 4#32 := by decide

end Texts

end Aipl.StdUtf8
