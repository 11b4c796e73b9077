import Aipl.Lib.Numeral
import Aipl.Std.Encode.Model
import Mathlib.Tactic.LinearCombination

/-! # Base64

* `Form`, `Base64` — the texts that are base64, and the bytes they stand for.
* `base64To_eq` — encoding pushes such a text.
* `base64Error_ends`, `base64DecodeTo_decodes` — the check and the loop after it read just these texts.
-/

namespace Aipl.StdEncode

open Aipl.Lib Aipl.Lib.Outcome Aipl.Lib.Numeral Aipl.StdBuf Aipl.StdBytes
open Aipl.Std (Allocator)

/-- A character of the alphabet. -/
def InAlphabet (alphabet : Alphabet) (c : BitVec 8) : Prop := 0 ≤ b64Value c.toNat alphabet

/-- The value of a character of the alphabet. -/
def sextet (alphabet : Alphabet) (c : BitVec 8) : Nat := (b64Value c.toNat alphabet).toNat

/-- `t` is the characters `cs` and `k` times `=`: not one more than a multiple of 4, and as much padding as makes a
multiple of 4, or none. -/
structure Form (alphabet : Alphabet) (padding : Padding) (t cs : List (BitVec 8)) (k : Nat) : Prop where
  eq : t = cs ++ List.replicate k 61#8
  chars : ∀ c ∈ cs, InAlphabet alphabet c
  length : cs.length % 4 ≠ 1
  padded : padding = .padded → k = (4 - cs.length % 4) % 4
  unpadded : padding = .unpadded → k = 0

/-- `t` is base64 of `l`: the bits of its characters, less those left over, are the bits of the bytes. -/
def Base64 (alphabet : Alphabet) (padding : Padding) (t l : List (BitVec 8)) : Prop :=
  ∃ cs k, Form alphabet padding t cs k ∧ l.length = 6 * cs.length / 8 ∧
    number 256 (l.map BitVec.toNat) = number 64 (cs.map (sextet alphabet)) / 2 ^ (6 * cs.length % 8)

variable {alphabet : Alphabet} {padding : Padding} {t cs cs' l l' rest : List (BitVec 8)} {k k' p n fuel : Nat}
  {c : BitVec 8} {σ : Type} {A : Allocator σ}

/-! ### Characters -/

theorem inAlphabet_equals : ¬ InAlphabet alphabet 61#8 := by
  cases alphabet <;> (rw [InAlphabet]; decide)

theorem b64Char_lt (alphabet : Alphabet) {d : Nat} (hd : d < 64) : b64Char d alphabet < 256 := by
  have hall : ∀ d : Fin 64, b64Char d .standard < 256 ∧ b64Char d .urlSafe < 256 := by decide
  cases alphabet with
  | standard => exact (hall ⟨d, hd⟩).1
  | urlSafe => exact (hall ⟨d, hd⟩).2

theorem b64Value_char (alphabet : Alphabet) {d : Nat} (hd : d < 64) : b64Value (b64Char d alphabet) alphabet = d := by
  have hall : ∀ d : Fin 64, b64Value (b64Char d .standard) .standard = (d : Nat) ∧
      b64Value (b64Char d .urlSafe) .urlSafe = (d : Nat) := by decide
  cases alphabet with
  | standard => exact (hall ⟨d, hd⟩).1
  | urlSafe => exact (hall ⟨d, hd⟩).2

/-- The character of a value, as a byte. -/
def char (alphabet : Alphabet) (d : Nat) : BitVec 8 := BitVec.ofNat 8 (b64Char d alphabet)

theorem toNat_char {d : Nat} (hd : d < 64) : (char alphabet d).toNat = b64Char d alphabet := by
  rw [char, BitVec.toNat_ofNat, Nat.mod_eq_of_lt (b64Char_lt alphabet hd)]

theorem inAlphabet_char {d : Nat} (hd : d < 64) : InAlphabet alphabet (char alphabet d) := by
  rw [InAlphabet, toNat_char hd, b64Value_char alphabet hd]
  exact Int.natCast_nonneg d

theorem sextet_char {d : Nat} (hd : d < 64) : sextet alphabet (char alphabet d) = d := by
  rw [sextet, toNat_char hd, b64Value_char alphabet hd, Int.toNat_natCast]

theorem sextet_lt (h : InAlphabet alphabet c) : sextet alphabet c < 64 := by
  rw [InAlphabet] at h
  have hc := c.isLt
  simp only [sextet, b64Value] at h ⊢
  split_ifs at h ⊢ <;> omega

/-! ### Writing -/

/-- The 6-bit values of bytes: those of three bytes are four. -/
def sextets : List Nat → List Nat
  | a :: b :: c :: l => a / 4 :: (a % 4 * 16 + b / 16) :: (b % 16 * 4 + c / 64) :: c % 64 :: sextets l
  | [a, b] => [a / 4, a % 4 * 16 + b / 16, b % 16 * 4]
  | [a] => [a / 4, a % 4 * 16]
  | [] => []

/-- How many characters make a multiple of four. -/
def missing (n : Nat) : Nat := (3 - n % 3) % 3

def base64Text (alphabet : Alphabet) (padding : Padding) (l : List (BitVec 8)) : List (BitVec 8) :=
  (sextets (l.map BitVec.toNat)).map (char alphabet) ++
    List.replicate (if padding = .padded then missing l.length else 0) 61#8

theorem shiftRight_and (w s : Nat) : (w >>> s) &&& 63 = w / 2 ^ s % 64 := by
  rw [Nat.shiftRight_eq_div_pow, ← Nat.and_two_pow_sub_one_eq_mod _ 6]

theorem shift_or_shift {a b : Nat} (hb : b < 256) : a <<< 16 ||| b <<< 8 = a * 65536 + b * 256 := by
  have hlow : b <<< 8 < 2 ^ 16 := by
    rw [Nat.shiftLeft_eq]
    omega
  rw [← Nat.shiftLeft_add_eq_or_of_lt hlow, Nat.shiftLeft_eq, Nat.shiftLeft_eq]

theorem shift_or_shift_or {a b c : Nat} (hb : b < 256) (hc : c < 256) :
    a <<< 16 ||| (b <<< 8 ||| c) = a * 65536 + b * 256 + c := by
  have hor : b <<< 8 ||| c = b * 256 + c := by
    rw [← Nat.shiftLeft_add_eq_or_of_lt (show c < 2 ^ 8 from hc), Nat.shiftLeft_eq]
  rw [hor, ← Nat.shiftLeft_add_eq_or_of_lt (show b * 256 + c < 2 ^ 16 by omega), Nat.shiftLeft_eq]
  omega

/-- What is pushed of 24 bits. -/
theorem pushSextets_eq (o : Content σ) (w count : Nat) : pushSextets A fuel o w count alphabet =
    pushAll A fuel o (((List.range count).map fun k => w / 2 ^ (18 - 6 * k) % 64).map (char alphabet)) := by
  have hpush : ∀ k ∈ List.range count, ∀ o : Content σ,
      o.pushByte A fuel (BitVec.ofNat 32 (b64Char ((w >>> (18 - 6 * k)) &&& 63) alphabet)) =
        pushAll A fuel o [char alphabet (w / 2 ^ (18 - 6 * k) % 64)] := by
    intro k _ o
    have hchar : (BitVec.ofNat 32 (b64Char ((w >>> (18 - 6 * k)) &&& 63) alphabet)).setWidth 8 =
        char alphabet (w / 2 ^ (18 - 6 * k) % 64) := by
      rw [shiftRight_and, char, BitVec.setWidth_ofNat_of_le (by decide)]
    exact (pushAll_one hchar).symm
  rw [pushSextets, foldAll_eq_pushAll hpush, ← List.map_eq_flatMap, List.map_map]
  rfl

/-- The padding. -/
theorem pushPadding_eq (o : Content σ) (lo count : Nat) :
    foldAll (fun o _ => o.pushByte A fuel 61#32) o (List.range' lo count) = pushAll A fuel o (List.replicate count 61#8) := by
  have hpush : ∀ i ∈ List.range' lo count, ∀ o : Content σ, o.pushByte A fuel 61#32 = pushAll A fuel o [61#8] := by
    intro _ _ o
    exact (pushAll_one (show (61#32).setWidth 8 = 61#8 from rfl)).symm
  rw [foldAll_eq_pushAll hpush, ← List.map_eq_flatMap, List.map_const', List.length_range']

/-- The text of three more bytes. -/
theorem base64Text_cons (a b c : BitVec 8) (l : List (BitVec 8)) : base64Text alphabet padding (a :: b :: c :: l) =
    (sextets [a.toNat, b.toNat, c.toNat]).map (char alphabet) ++ base64Text alphabet padding l := by
  have hlen : missing (a :: b :: c :: l).length = missing l.length := by
    simp only [missing, List.length_cons]
    omega
  simp only [base64Text, hlen, List.map_cons, sextets, List.map_nil, List.cons_append, List.nil_append]

/-- What is written of the last bytes. -/
theorem base64Tail_eq (b : List (BitVec 8)) (o : Content σ) {i : Nat} (hshort : b.length < i + 3) (hi : i ≤ b.length) :
    (do
      let left := b.length - i
      if 0 < left then do
        let c₀ ← byteAt b i
        let w ← (if left = 2 then do pure (c₀ <<< 16 ||| (← byteAt b (i + 1)) <<< 8) else pure (c₀ <<< 16) : Outcome Nat)
        let o ← pushSextets A fuel o w (left + 1) alphabet
        if padding = .padded then foldAll (fun o _ => o.pushByte A fuel 61#32) o (List.range' left (3 - left))
        else pure o
      else pure o) = pushAll A fuel o (base64Text alphabet padding (b.drop i)) := by
  have hpad : ∀ (left : Nat) (o : Content σ), 1 ≤ left → left ≤ 2 →
      (if padding = .padded then foldAll (fun o _ => o.pushByte A fuel 61#32) o (List.range' left (3 - left)) else pure o)
        = pushAll A fuel o (List.replicate (if padding = .padded then missing left else 0) 61#8) := by
    intro left o h1 h2
    split
    · rw [pushPadding_eq, missing, show (3 - left % 3) % 3 = 3 - left by omega]
    · rfl
  match hdrop : b.drop i with
  | [] =>
    have hend := List.drop_eq_nil_iff.mp hdrop
    dsimp only
    rw [show b.length - i = 0 by omega]
    simp [base64Text, sextets, missing, pushAll, foldAll]
  | [x] =>
    have hlen := congrArg List.length hdrop
    rw [List.length_drop, List.length_singleton] at hlen
    dsimp only
    rw [hlen, byteAt_drop hdrop]
    simp only [Nat.one_pos, if_true, done_bind, pure_eq, (by decide : ¬ (1 = 2)), if_false]
    rw [pushSextets_eq, base64Text, pushAll_append]
    have hx := x.isLt
    have hsextets : (List.range (1 + 1)).map (fun k => x.toNat <<< 16 / 2 ^ (18 - 6 * k) % 64) = sextets [x.toNat] := by
      rw [Nat.shiftLeft_eq]
      simp only [List.range_succ, List.range_zero, List.nil_append, List.map_cons, List.map_nil, sextets,
        List.cons_append]
      congr 1
      · omega
      · congr 1
        omega
    rw [hsextets]
    congr
    funext o'
    exact hpad 1 o' le_rfl (by decide)
  | [x, y] =>
    have hlen := congrArg List.length hdrop
    rw [List.length_drop, List.length_cons, List.length_singleton] at hlen
    have hdrop' := drop_succ hdrop
    dsimp only
    rw [hlen, byteAt_drop hdrop, done_bind, byteAt_drop hdrop']
    simp only [(by decide : 0 < 1 + 1), if_true, done_bind, pure_eq, shift_or_shift y.isLt]
    rw [pushSextets_eq, base64Text, pushAll_append]
    have hx := x.isLt
    have hy := y.isLt
    have hsextets : (List.range (1 + 1 + 1)).map (fun k => (x.toNat * 65536 + y.toNat * 256) / 2 ^ (18 - 6 * k) % 64)
        = sextets [x.toNat, y.toNat] := by
      simp only [List.range_succ, List.range_zero, List.nil_append, List.map_cons, List.map_nil, sextets,
        List.cons_append]
      congr 1
      · omega
      · congr 1
        · omega
        · congr 1
          omega
    rw [hsextets]
    congr
    funext o'
    exact hpad 2 o' (by decide) le_rfl
  | x :: y :: z :: r =>
    have hlen := congrArg List.length hdrop
    rw [List.length_drop] at hlen
    simp only [List.length_cons] at hlen
    omega

/-- **Encoding** pushes the text. -/
theorem base64To_eq (b : List (BitVec 8)) (o : Content σ) (hfuel : b.length < fuel) :
    base64To A fuel o b alphabet padding = pushAll A fuel o (base64Text alphabet padding b) := by
  have hloop : ∀ (fuel' i : Nat) (o : Content σ), i ≤ b.length → b.length < fuel' + i →
      (iterate (base64Round A fuel b alphabet) fuel' (o, i) >>= fun s => do
        let left := b.length - s.2
        if 0 < left then do
          let c₀ ← byteAt b s.2
          let w ← (if left = 2 then do pure (c₀ <<< 16 ||| (← byteAt b (s.2 + 1)) <<< 8) else pure (c₀ <<< 16) : Outcome Nat)
          let o ← pushSextets A fuel s.1 w (left + 1) alphabet
          if padding = .padded then foldAll (fun o _ => o.pushByte A fuel 61#32) o (List.range' left (3 - left))
          else pure o
        else pure s.1) = pushAll A fuel o (base64Text alphabet padding (b.drop i)) := by
    intro fuel'
    induction fuel' with
    | zero => intro i o hi hfuel; omega
    | succ fuel' ih =>
      intro i o hi hfuel
      by_cases hmore : i + 3 ≤ b.length
      · obtain ⟨x, r, hdrop⟩ := exists_cons (show i < b.length by omega)
        obtain ⟨y, r', hdrop'⟩ := exists_cons (show i + 1 < b.length by omega)
        obtain ⟨z, r'', hdrop''⟩ := exists_cons (show i + 2 < b.length by omega)
        have hr : r = y :: z :: r'' := by rw [← drop_succ hdrop, hdrop', ← drop_succ hdrop', hdrop'']
        have hrest : b.drop (i + 3) = r'' := drop_succ hdrop''
        have hround : base64Round A fuel b alphabet (o, i) =
            pushAll A fuel o ((sextets [x.toNat, y.toNat, z.toNat]).map (char alphabet)) >>= fun o => pure (.inl (o, i + 3)) := by
          have hx := x.isLt
          have hy := y.isLt
          have hz := z.isLt
          have hsextets : (List.range 4).map
              (fun k => (x.toNat * 65536 + y.toNat * 256 + z.toNat) / 2 ^ (18 - 6 * k) % 64)
                = sextets [x.toNat, y.toNat, z.toNat] := by
            simp only [List.range_succ, List.range_zero, List.nil_append, List.map_cons, List.map_nil,
              sextets, List.cons_append]
            congr 1
            · omega
            · congr 1
              · omega
              · congr 1
                · omega
                · congr 1
                  omega
          rw [base64Round, if_pos hmore, byteAt_drop hdrop, done_bind, byteAt_drop hdrop', done_bind,
            byteAt_drop hdrop'', done_bind, shift_or_shift_or hy hz, pushSextets_eq, hsextets]
        rw [iterate, hround, bind_assoc, bind_assoc, hdrop, hr, base64Text_cons, pushAll_append]
        congr
        funext o'
        rw [pure_eq, done_bind, ih (i + 3) o' hmore (by omega), hrest]
      · rw [iterate, base64Round, if_neg hmore, pure_eq, done_bind]
        exact base64Tail_eq b o (by omega) hi
  rw [base64To]
  exact hloop fuel 0 o (Nat.zero_le _) (by omega)

/-! ### The check -/

/-- The characters end where the check says that they do. -/
theorem Form.length_eq (h : Form alphabet padding t cs k) (hp : p ≤ t.length) (hbefore : ∀ c ∈ t.take p, InAlphabet alphabet c)
    (hend : ∀ c r, t.drop p = c :: r → ¬ InAlphabet alphabet c) : cs.length = p := by
  rcases Nat.lt_trichotomy cs.length p with hlt | heq | hgt
  · exfalso
    have hmem : 61#8 ∈ t.take p := by
      have hk : cs.length < t.length := by omega
      have hget : t[cs.length]? = some 61#8 := by
        rw [h.eq, List.getElem?_append_right le_rfl, Nat.sub_self, List.getElem?_replicate, if_pos]
        have hlen := congrArg List.length h.eq
        rw [List.length_append, List.length_replicate] at hlen
        omega
      refine List.mem_of_getElem? (i := cs.length) ?_
      rw [List.getElem?_take, if_pos hlt, hget]
    exact inAlphabet_equals (hbefore _ hmem)
  · exact heq
  · exfalso
    obtain ⟨c, r, hdrop⟩ := exists_cons (show p < t.length by rw [h.eq, List.length_append]; omega)
    refine hend c r hdrop (h.chars c ?_)
    have hget := getElem?_of_drop hdrop
    rw [h.eq, List.getElem?_append_left hgt] at hget
    exact List.mem_of_getElem? hget

/-- **The characters** before the first `=` or stray byte. -/
theorem error_ends (t : List (BitVec 8)) (hfuel : t.length < fuel) :
    Ends (fun s : Nat × Option Nat => s.1 ≤ t.length ∧ (∀ c ∈ t.take s.1, InAlphabet alphabet c) ∧
        ((s.2 = none ∧ ∀ c r, t.drop s.1 = c :: r → c = 61#8) ∨
          (s.2 = some s.1 ∧ ∃ c r, t.drop s.1 = c :: r ∧ c ≠ 61#8 ∧ ¬ InAlphabet alphabet c)))
      (iterate (errorRound t alphabet) fuel 0) := by
  refine iterate_ends (fun p => p ≤ t.length ∧ ∀ c ∈ t.take p, InAlphabet alphabet c) _ (fun p => t.length - p) ?_ fuel 0
    ⟨Nat.zero_le _, by simp⟩ (by omega)
  rintro p ⟨hp, hbefore⟩
  rw [errorRound]
  by_cases hlt : p < t.length
  · obtain ⟨c, r, hdrop⟩ := exists_cons hlt
    rw [if_pos hlt, byteAt_drop hdrop, done_bind]
    by_cases hequals : c.toNat = 61
    · rw [if_pos hequals]
      refine ⟨hp, hbefore, .inl ⟨rfl, fun c' r' hdrop' => ?_⟩⟩
      rw [hdrop] at hdrop'
      obtain ⟨rfl, -⟩ := List.cons.inj hdrop'
      exact BitVec.eq_of_toNat_eq hequals
    · rw [if_neg hequals]
      by_cases hbad : b64Value c.toNat alphabet < 0
      · rw [if_pos hbad]
        refine ⟨hp, hbefore, .inr ⟨rfl, c, r, hdrop, fun heq => hequals (congrArg BitVec.toNat heq), ?_⟩⟩
        rw [InAlphabet]
        omega
      · rw [if_neg hbad]
        refine ⟨⟨hlt, fun x hx => ?_⟩, by omega⟩
        rw [List.take_add_one, getElem?_of_drop hdrop] at hx
        rcases List.mem_append.mp hx with hx | hx
        · exact hbefore x hx
        · obtain rfl : x = c := List.mem_singleton.mp hx
          rw [InAlphabet]
          omega
  · rw [if_neg hlt]
    refine ⟨hp, hbefore, .inl ⟨rfl, fun c r hdrop => ?_⟩⟩
    exact absurd (lt_of_drop hdrop) hlt

theorem stray_ends (t : List (BitVec 8)) (p : Nat) :
    Ends (fun r => (r = none ∧ ∀ c ∈ t.drop p, c = 61#8) ∨ ∃ j, r = some j ∧ j < t.length ∧ ∃ c ∈ t.drop p, c ≠ 61#8)
      (firstOf (fun k => do pure (if (← byteAt t k) ≠ 61 then some k else none)) (List.range' p (t.length - p))) := by
  have hround : ∀ i ∈ List.range' p (t.length - p),
      (do pure (if (← byteAt t i) ≠ 61 then some i else none) : Outcome (Option Nat)) =
        done (if t[i]? ≠ some 61#8 then some i else none) := by
    intro i hi
    have hlt : i < t.length := by
      have := List.mem_range'_1.mp hi
      omega
    obtain ⟨c, r, hdrop⟩ := exists_cons hlt
    rw [byteAt_drop hdrop, done_bind, getElem?_of_drop hdrop, pure_eq]
    congr 1
    refine if_congr (not_congr ⟨fun h => ?_, fun h => ?_⟩) rfl rfl
    · rw [BitVec.eq_of_toNat_eq (show c.toNat = (61#8).toNat from h)]
    · injection h with h
      rw [h]
      rfl
  rw [firstOf_eq hround]
  cases hfind : (List.range' p (t.length - p)).findSome? fun i => if t[i]? ≠ some 61#8 then some i else none with
  | none =>
    refine .inl ⟨rfl, fun c hc => ?_⟩
    obtain ⟨i, hi, hget⟩ := List.mem_iff_getElem.mp hc
    rw [List.length_drop] at hi
    have hnone := List.findSome?_eq_none_iff.mp hfind (p + i) (List.mem_range'_1.mpr (by omega))
    have hget' : t[p + i]? = some c := by
      rw [← hget, ← List.getElem?_drop]
      exact List.getElem?_eq_getElem _
    rw [hget'] at hnone
    by_contra hne
    rw [if_pos fun h => hne (Option.some.inj h)] at hnone
    cases hnone
  | some j =>
    obtain ⟨i, hi, hsome⟩ := List.exists_of_findSome?_eq_some hfind
    have hmem := List.mem_range'_1.mp hi
    split_ifs at hsome with hne
    injection hsome with hsome
    subst hsome
    obtain ⟨c, r, hdrop⟩ := exists_cons (show i < t.length by omega)
    refine .inr ⟨i, rfl, by omega, c, List.mem_of_mem_drop (i := i - p) ?_, fun h => hne ?_⟩
    · rw [List.drop_drop, Nat.add_sub_cancel' hmem.1, hdrop]
      exact List.mem_cons_self
    · rw [getElem?_of_drop hdrop, h]

/-- **The padding.** -/
theorem paddingError_ends (hp : p ≤ t.length) (hbefore : ∀ c ∈ t.take p, InAlphabet alphabet c)
    (hequals : ∀ c r, t.drop p = c :: r → c = 61#8) :
    Ends (fun r : Option Nat => (r = none ∧ ∃ cs k, Form alphabet padding t cs k) ∨
        ∃ j, r = some j ∧ j ≤ t.length ∧ ∀ cs k, ¬ Form alphabet padding t cs k) (paddingError t p padding) := by
  have hlength : ∀ {cs k}, Form alphabet padding t cs k → cs.length = p ∧ k = t.length - p ∧
      ∀ c ∈ t.drop p, c = 61#8 := by
    intro cs k h
    have hcs := h.length_eq hp hbefore fun c r hdrop => hequals c r hdrop ▸ inAlphabet_equals
    refine ⟨hcs, ?_, ?_⟩
    · have hlen := congrArg List.length h.eq
      rw [List.length_append, List.length_replicate] at hlen
      omega
    · rw [h.eq, ← hcs, List.drop_left]
      exact fun c hc => (List.mem_replicate.mp hc).2
  rw [paddingError]
  by_cases hunpadded : p < t.length ∧ padding = .unpadded
  · rw [if_pos hunpadded]
    refine .inr ⟨p, rfl, hp, fun cs k h => ?_⟩
    have hk := h.unpadded hunpadded.2
    have := (hlength h).2.1
    omega
  rw [if_neg hunpadded]
  refine ends_bind (Q := fun r : Option Nat => (r = none ∧ (p < t.length → 0 < p) ∧ ∀ c ∈ t.drop p, c = 61#8) ∨
    ∃ j, r = some j ∧ j ≤ t.length ∧ ∀ cs k, ¬ Form alphabet padding t cs k) ?_ ?_
  · by_cases hlt : p < t.length
    · rw [if_pos hlt]
      have hpadded : padding = .padded := by
        cases padding with
        | padded => rfl
        | unpadded => exact absurd ⟨hlt, rfl⟩ hunpadded
      by_cases hzero : p = 0
      · rw [if_pos hzero]
        refine .inr ⟨0, rfl, Nat.zero_le _, fun cs k h => ?_⟩
        obtain ⟨hcs, hk, -⟩ := hlength h
        have hwant := h.padded hpadded
        rw [hcs, hzero] at hwant
        omega
      · rw [if_neg hzero]
        refine (stray_ends t p).mono ?_
        rintro r (⟨rfl, hall⟩ | ⟨j, rfl, hj, c, hc, hne⟩)
        · exact .inl ⟨rfl, fun _ => by omega, hall⟩
        · exact .inr ⟨j, rfl, hj.le, fun cs k h => hne ((hlength h).2.2 c hc)⟩
    · rw [if_neg hlt]
      refine .inl ⟨rfl, fun h => absurd h hlt, ?_⟩
      rw [List.drop_eq_nil_of_le (by omega)]
      simp
  rintro r (⟨rfl, hpos, hall⟩ | ⟨j, rfl, hj, hnone⟩)
  · dsimp only
    by_cases hone : p % 4 = 1
    · rw [if_pos hone]
      refine .inr ⟨_, rfl, le_rfl, fun cs k h => h.length ?_⟩
      rw [(hlength h).1, hone]
    rw [if_neg hone]
    by_cases hwant : padding = .padded ∧ t.length - p ≠ (4 - p % 4) % 4
    · rw [if_pos hwant]
      refine .inr ⟨_, rfl, ?_, fun cs k h => hwant.2 ?_⟩
      · split_ifs <;> omega
      · obtain ⟨hcs, hk, -⟩ := hlength h
        rw [← hk, ← hcs]
        exact h.padded hwant.1
    · rw [if_neg hwant]
      have htake : (t.take p).length = p := by rw [List.length_take, Nat.min_eq_left hp]
      refine .inl ⟨rfl, t.take p, t.length - p, ?_, hbefore, by rwa [htake], fun hpad => ?_, fun hpad => ?_⟩
      · conv_lhs => rw [← List.take_append_drop p t]
        rw [← List.length_drop, ← List.eq_replicate_of_mem hall]
      · rw [htake]
        by_contra hne
        exact hwant ⟨hpad, hne⟩
      · by_contra hne
        exact hunpadded ⟨by omega, hpad⟩
  · exact .inr ⟨j, rfl, hj, hnone⟩

/-- **The check** refuses just the texts that are not base64. -/
theorem base64Error_ends (t : List (BitVec 8)) (hfuel : t.length < fuel) :
    Ends (fun r : Option Nat => (r = none ∧ ∃ cs k, Form alphabet padding t cs k) ∨
        ∃ j, r = some j ∧ j ≤ t.length ∧ ∀ cs k, ¬ Form alphabet padding t cs k) (base64Error fuel t alphabet padding) := by
  rw [base64Error]
  refine ends_bind (error_ends t hfuel) ?_
  rintro ⟨p, bad⟩ ⟨hp, hbefore, ⟨hnone, hequals⟩ | ⟨hsome, c, r, hdrop, hne, hbad⟩⟩
  · obtain rfl : bad = none := hnone
    exact paddingError_ends hp hbefore hequals
  · obtain rfl : bad = some p := hsome
    dsimp only at hp hbefore hdrop
    refine .inr ⟨p, rfl, hp, fun cs k h => ?_⟩
    have hcs := h.length_eq hp hbefore fun c' r' hdrop' => by
      rw [hdrop] at hdrop'
      exact (List.cons.inj hdrop').1 ▸ hbad
    have hmem : c ∈ List.replicate k 61#8 := by
      have hrest : t.drop p = List.replicate k 61#8 := by rw [h.eq, ← hcs, List.drop_left]
      rw [← hrest]
      exact hdrop ▸ List.mem_cons_self
    exact hne (List.mem_replicate.mp hmem).2

/-! ### Reading -/

/-- The padding is taken off. -/
theorem trim_ends (h : Form alphabet padding t cs k) (hfuel : t.length < fuel) :
    Ends (fun n => n = cs.length) (iterate (trimRound t) fuel t.length) := by
  have hlen := congrArg List.length h.eq
  rw [List.length_append, List.length_replicate] at hlen
  refine iterate_ends (fun n => cs.length ≤ n ∧ n ≤ t.length) _ (fun n => n) ?_ fuel _ ⟨by omega, le_rfl⟩ hfuel
  rintro n ⟨hle, hn⟩
  rw [trimRound]
  by_cases hpos : 0 < n
  · obtain ⟨c, r, hdrop⟩ := exists_cons (show n - 1 < t.length by omega)
    have hget := getElem?_of_drop hdrop
    rw [h.eq] at hget
    rw [if_pos hpos, byteAt_drop hdrop, done_bind]
    by_cases hequals : c.toNat = 61
    · rw [if_pos hequals]
      obtain rfl : c = 61#8 := BitVec.eq_of_toNat_eq hequals
      refine ⟨⟨?_, by omega⟩, by omega⟩
      by_contra hlt
      rw [List.getElem?_append_left (by omega)] at hget
      exact inAlphabet_equals (h.chars _ (List.mem_of_getElem? hget))
    · rw [if_neg hequals]
      show n = cs.length
      by_contra hne
      rw [List.getElem?_append_right (by omega)] at hget
      exact hequals (congrArg BitVec.toNat (List.mem_replicate.mp (List.mem_of_getElem? hget)).2)
  · rw [if_neg hpos]
    show n = cs.length
    omega

/-- A character more: six bits are added, and eight taken where there are so many. -/
theorem six_bits {N w v b : Nat} (hv : v < 64) (hb : b = 0 ∨ b = 2 ∨ b = 4 ∨ b = 6) (hw : w % 2 ^ b = N % 2 ^ b) :
    let w' := ((w &&& 65535) <<< 6) ||| v
    (b = 0 → w' % 2 ^ 6 = (64 * N + v) % 2 ^ 6 ∧ (64 * N + v) / 2 ^ 6 = N / 2 ^ b) ∧
    (b ≠ 0 → w' % 2 ^ (b - 2) = (64 * N + v) % 2 ^ (b - 2) ∧
      (64 * N + v) / 2 ^ (b - 2) = 256 * (N / 2 ^ b) + ((w' >>> (b - 2)) &&& 255)) := by
  intro w'
  have hw' : w' = w % 65536 * 64 + v := by
    have hand : w &&& 65535 = w % 65536 := Nat.and_two_pow_sub_one_eq_mod w 16
    show ((w &&& 65535) <<< 6) ||| v = _
    rw [hand, ← Nat.shiftLeft_add_eq_or_of_lt (show v < 2 ^ 6 from hv), Nat.shiftLeft_eq]
  have hbyte : ∀ s, (w' >>> s) &&& 255 = w' / 2 ^ s % 256 := by
    intro s
    rw [Nat.shiftRight_eq_div_pow, ← Nat.and_two_pow_sub_one_eq_mod _ 8]
  rw [hbyte, hw']
  rcases hb with rfl | rfl | rfl | rfl <;>
    exact ⟨fun h => by omega, fun h => by omega⟩

/-- The bytes that characters make: as many as there are eight bits for, and the bits of the rest. -/
theorem sextets_eq (A : Allocator σ) (fuel : Nat) (h : Form alphabet padding t cs k) (hn : n ≤ cs.length) :
    ∃ l w, l.length = 6 * n / 8 ∧
      number 256 (l.map BitVec.toNat) = number 64 ((cs.take n).map (sextet alphabet)) / 2 ^ (6 * n % 8) ∧
      w % 2 ^ (6 * n % 8) = number 64 ((cs.take n).map (sextet alphabet)) % 2 ^ (6 * n % 8) ∧
      ∀ o : Content σ, foldAll (sextetRound A fuel t alphabet) ⟨o, 0, 0, 0⟩ (List.range n) =
        pushAll A fuel o l >>= fun o => pure ⟨o, w, 6 * n % 8, 6 * n / 8⟩ := by
  induction n with
  | zero => exact ⟨[], 0, rfl, by simp, rfl, fun o => rfl⟩
  | succ n ih =>
    obtain ⟨l, w, hlen, hnumber, hw, hfold⟩ := ih (by omega)
    obtain ⟨c, r, hdrop⟩ := exists_cons (show n < cs.length by omega)
    have hget := getElem?_of_drop hdrop
    have hc : InAlphabet alphabet c := h.chars c (List.mem_of_getElem? hget)
    have hbyte : byteAt t n = done c.toNat := byteAt_eq (by rw [h.eq, List.getElem?_append_left (by omega), hget])
    have hmore : number 64 ((cs.take (n + 1)).map (sextet alphabet)) =
        64 * number 64 ((cs.take n).map (sextet alphabet)) + sextet alphabet c := by
      rw [List.take_add_one, hget, List.map_append]
      exact number_concat 64 _ _
    obtain ⟨N, hN⟩ : ∃ N, N = number 64 ((cs.take n).map (sextet alphabet)) := ⟨_, rfl⟩
    rw [← hN] at hnumber hw hmore
    obtain ⟨hzero, hpos⟩ := six_bits (sextet_lt hc) (show 6 * n % 8 = 0 ∨ 6 * n % 8 = 2 ∨ 6 * n % 8 = 4 ∨ 6 * n % 8 = 6 by omega) hw
    have hround : ∀ o : Content σ, sextetRound A fuel t alphabet ⟨o, w, 6 * n % 8, 6 * n / 8⟩ n =
        if 8 ≤ 6 * n % 8 + 6 then
          o.pushByte A fuel (BitVec.ofNat 32
              (((((w &&& 65535) <<< 6) ||| sextet alphabet c) >>> (6 * n % 8 + 6 - 8)) &&& 255)) >>= fun o =>
            pure ⟨o, ((w &&& 65535) <<< 6) ||| sextet alphabet c, 6 * n % 8 + 6 - 8, 6 * n / 8 + 1⟩
        else pure ⟨o, ((w &&& 65535) <<< 6) ||| sextet alphabet c, 6 * n % 8 + 6, 6 * n / 8⟩ := by
      intro o
      rw [sextetRound, hbyte]
      rfl
    rw [hmore]
    obtain ⟨w', hw'⟩ : ∃ w', w' = ((w &&& 65535) <<< 6) ||| sextet alphabet c := ⟨_, rfl⟩
    rw [← hw'] at hzero hpos
    simp only [← hw'] at hround
    by_cases hbits : 6 * n % 8 = 0
    · obtain ⟨hlow, hhigh⟩ := hzero hbits
      have h6 : 6 * (n + 1) % 8 = 6 := by omega
      refine ⟨l, w', by omega, by rw [h6, hhigh, hnumber], by rw [h6, hlow], fun o => ?_⟩
      rw [List.range_succ, foldAll_append, hfold, bind_assoc]
      congr
      funext o'
      rw [pure_eq, done_bind, foldAll, hround, if_neg (by omega), pure_eq, done_bind, foldAll, pure_eq,
        show 6 * n % 8 + 6 = 6 * (n + 1) % 8 by omega, show 6 * n / 8 = 6 * (n + 1) / 8 by omega]
    · obtain ⟨hlow, hhigh⟩ := hpos hbits
      have hsub : 6 * (n + 1) % 8 = 6 * n % 8 - 2 := by omega
      have hsub' : 6 * n % 8 + 6 - 8 = 6 * n % 8 - 2 := by omega
      obtain ⟨d, hd⟩ : ∃ d, d = (w' >>> (6 * n % 8 - 2)) &&& 255 := ⟨_, rfl⟩
      have hdlt : d < 256 := by
        have hand : d = (w' >>> (6 * n % 8 - 2)) % 256 := by rw [hd, ← Nat.and_two_pow_sub_one_eq_mod _ 8]
        omega
      rw [← hd] at hhigh
      refine ⟨l ++ [BitVec.ofNat 8 d], w', ?_, ?_, by rw [hsub, hlow], fun o => ?_⟩
      · rw [List.length_append, List.length_singleton, hlen]
        omega
      · rw [hsub, hhigh, ← hnumber, List.map_append, List.map_singleton, number_concat, BitVec.toNat_ofNat,
          Nat.mod_eq_of_lt hdlt]
      · rw [List.range_succ, foldAll_append, hfold, bind_assoc, pushAll_append, bind_assoc]
        congr
        funext o'
        rw [pure_eq, done_bind, foldAll, hround, if_pos (by omega), hsub', ← hd, bind_assoc,
          pushAll_one (BitVec.setWidth_ofNat_of_le (by decide) d)]
        congr
        funext o''
        rw [pure_eq, done_bind, foldAll, pure_eq, hsub, show 6 * n / 8 + 1 = 6 * (n + 1) / 8 by omega]

/-- **Decoding** reads just the texts that are base64. -/
theorem base64DecodeTo_decodes (A : Allocator σ) (t : List (BitVec 8)) (hfuel : t.length < fuel) :
    Decodes A fuel (Base64 alphabet padding t) (fun o => base64DecodeTo A fuel o t alphabet padding) t.length := by
  obtain ⟨r, hrun, ⟨rfl, cs, k, h⟩ | ⟨j, rfl, hj, hnone⟩⟩ := (base64Error_ends t hfuel).exists
  · obtain ⟨n, hn, rfl⟩ := (trim_ends h hfuel).exists
    obtain ⟨l, w, hlen, hnumber, -, hfold⟩ := sextets_eq A fuel h le_rfl
    rw [List.take_length] at hnumber
    refine .inl ⟨l, ⟨cs, k, h, hlen, hnumber⟩, ⟨fun o => ?_⟩⟩
    rw [base64DecodeTo, hrun, done_bind]
    dsimp only
    rw [hn, done_bind, hfold, bind_assoc, hlen]
    rfl
  · exact .inr ⟨fun l ⟨cs, k, h, _⟩ => hnone cs k h, j, hj, fun o => by
      show base64DecodeTo A fuel o t alphabet padding = _
      rw [base64DecodeTo, hrun]
      rfl⟩

/-! ### The round trip -/

theorem length_sextets (l : List Nat) : (sextets l).length = (4 * l.length + 2) / 3 := by
  fun_induction sextets l with
  | case1 a b c l ih =>
    simp only [List.length_cons, ih]
    omega
  | case2 a b => simp
  | case3 a => simp
  | case4 => rfl

theorem sextets_lt {l : List Nat} (hl : ∀ x ∈ l, x < 256) : ∀ d ∈ sextets l, d < 64 := by
  fun_induction sextets l with
  | case1 a b c l ih =>
    have ha := hl a (by simp)
    have hb := hl b (by simp)
    have hc := hl c (by simp)
    have hrest := ih fun x hx => hl x (by simp [hx])
    simp only [List.mem_cons]
    rintro d (rfl | rfl | rfl | rfl | hd)
    · omega
    · omega
    · omega
    · omega
    · exact hrest d hd
  | case2 a b =>
    have ha := hl a (by simp)
    have hb := hl b (by simp)
    simp only [List.mem_cons, List.not_mem_nil, or_false]
    rintro d (rfl | rfl | rfl) <;> omega
  | case3 a =>
    have ha := hl a (by simp)
    simp only [List.mem_cons, List.not_mem_nil, or_false]
    rintro d (rfl | rfl) <;> omega
  | case4 => simp

/-- The bits of the 6-bit values are those of the bytes, and zeros. -/
theorem number_sextets (l : List Nat) : number 64 (sextets l) = number 256 l * 2 ^ (6 * (sextets l).length - 8 * l.length) := by
  fun_induction sextets l with
  | case1 a b c l ih =>
    have hlen := length_sextets l
    have hpow : 64 ^ (sextets l).length = 256 ^ l.length * 2 ^ (6 * (sextets l).length - 8 * l.length) := by
      rw [show (64 : Nat) = 2 ^ 6 from rfl, show (256 : Nat) = 2 ^ 8 from rfl, ← pow_mul, ← pow_mul, ← pow_add,
        Nat.add_sub_cancel' (by omega)]
    have hexp : 6 * ((a / 4) :: (a % 4 * 16 + b / 16) :: (b % 16 * 4 + c / 64) :: (c % 64) :: sextets l).length -
        8 * (a :: b :: c :: l).length = 6 * (sextets l).length - 8 * l.length := by
      simp only [List.length_cons]
      omega
    have hgroup : ((a / 4 * 64 + (a % 4 * 16 + b / 16)) * 64 + (b % 16 * 4 + c / 64)) * 64 + c % 64 = (a * 256 + b) * 256 + c := by
      omega
    rw [hexp]
    simp only [number_cons, ih, List.length_cons, pow_succ, hpow]
    linear_combination (256 ^ l.length * 2 ^ (6 * (sextets l).length - 8 * l.length)) * hgroup
  | case2 a b =>
    simp only [number, List.foldl_cons, List.foldl_nil, List.length_cons, List.length_nil]
    omega
  | case3 a =>
    simp only [number, List.foldl_cons, List.foldl_nil, List.length_cons, List.length_nil]
    omega
  | case4 => rfl

/-- **The text of bytes is base64 of them.** -/
theorem base64_text (alphabet : Alphabet) (padding : Padding) (l : List (BitVec 8)) :
    Base64 alphabet padding (base64Text alphabet padding l) l := by
  have hlt := sextets_lt (l := l.map BitVec.toNat) (by
    intro x hx
    obtain ⟨y, -, rfl⟩ := List.mem_map.mp hx
    exact y.isLt)
  have hlen : (sextets (l.map BitVec.toNat)).length = (4 * l.length + 2) / 3 := by
    rw [length_sextets, List.length_map]
  have hvalues : ((sextets (l.map BitVec.toNat)).map (char alphabet)).map (sextet alphabet) = sextets (l.map BitVec.toNat) := by
    rw [List.map_map]
    conv_rhs => rw [← List.map_id (sextets (l.map BitVec.toNat))]
    exact List.map_congr_left fun d hd => sextet_char (hlt d hd)
  refine ⟨_, _, ⟨rfl, ?_, ?_, fun h => ?_, fun h => ?_⟩, ?_, ?_⟩
  · intro c hc
    obtain ⟨d, hd, rfl⟩ := List.mem_map.mp hc
    exact inAlphabet_char (hlt d hd)
  · rw [List.length_map, hlen]
    omega
  · rw [if_pos h, List.length_map, hlen, missing]
    rcases (show l.length % 3 = 0 ∨ l.length % 3 = 1 ∨ l.length % 3 = 2 by omega) with hmod | hmod | hmod <;> omega
  · rw [if_neg (by rw [h]; decide)]
  · rw [List.length_map, hlen]
    omega
  · rw [hvalues, number_sextets, List.length_map, List.length_map,
      show 6 * (sextets (l.map BitVec.toNat)).length % 8 = 6 * (sextets (l.map BitVec.toNat)).length - 8 * l.length by omega,
      Nat.mul_div_cancel _ (Nat.two_pow_pos _)]

theorem Base64.unique (h : Base64 alphabet padding t l) (h' : Base64 alphabet padding t l') : l = l' := by
  obtain ⟨cs, k, hform, hlen, hnumber⟩ := h
  obtain ⟨cs', k', hform', hlen', hnumber'⟩ := h'
  have hcs : cs = cs' := by
    have hend : ∀ c r, t.drop cs.length = c :: r → ¬ InAlphabet alphabet c := by
      intro c r hdrop
      rw [hform.eq, List.drop_left] at hdrop
      have hc : c ∈ List.replicate k 61#8 := hdrop ▸ List.mem_cons_self
      rw [(List.mem_replicate.mp hc).2]
      exact inAlphabet_equals
    have hle : cs.length ≤ t.length := by
      rw [hform.eq, List.length_append]
      omega
    have htake : t.take cs.length = cs := by rw [hform.eq, List.take_left]
    have hlength := hform'.length_eq hle (by rw [htake]; exact hform.chars) hend
    rw [← htake, ← hlength, hform'.eq, List.take_left]
  subst hcs
  have hbytes : ∀ (l : List (BitVec 8)), ∀ x ∈ l.map BitVec.toNat, x < 256 := by
    intro l x hx
    obtain ⟨y, -, rfl⟩ := List.mem_map.mp hx
    exact y.isLt
  have hmap := number_inj (by rw [List.length_map, List.length_map, hlen, hlen']) (hbytes l) (hbytes l')
    (hnumber.trans hnumber'.symm)
  exact List.map_injective_iff.mpr (fun x y h => BitVec.eq_of_toNat_eq h) hmap

/-- **What is encoded is decoded.** -/
theorem base64_roundTrip (A : Allocator σ) (alphabet : Alphabet) (padding : Padding) (l : List (BitVec 8))
    (hfuel : 2 * l.length + 4 < fuel) :
    ∃ t, (∀ o, base64To A fuel o l alphabet padding = pushAll A fuel o t) ∧
      Accepts A fuel (fun o => base64DecodeTo A fuel o t alphabet padding) l := by
  refine ⟨base64Text alphabet padding l, fun o => base64To_eq l o (by omega), ?_⟩
  have hlen : (base64Text alphabet padding l).length < fuel := by
    have hmissing : missing l.length ≤ 2 := by
      rw [missing]
      omega
    rw [base64Text, List.length_append, List.length_map, length_sextets, List.length_map, List.length_replicate]
    split_ifs <;> omega
  exact (base64DecodeTo_decodes A _ hlen).accepts (base64_text alphabet padding l) fun _ h => h.unique (base64_text alphabet padding l)

end Aipl.StdEncode
