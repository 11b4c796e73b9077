import Aipl.Lib.Fallible
import Aipl.Std.Buf.Pushes
import Aipl.Std.Str.Bytes

/-! # `std/encode`

Bytes as text and back: base64, hex digits and percent-encoding. -/

namespace Aipl.StdEncode

open Aipl.Lib Aipl.Lib.Outcome Aipl.StdBuf Aipl.StdBytes
open Aipl.Std (Allocator)

inductive Alphabet where
  | standard
  | urlSafe
deriving DecidableEq

inductive Padding where
  | padded
  | unpadded
deriving DecidableEq

/-- The character for the 6-bit value `d`. -/
def b64Char (d : Nat) (alphabet : Alphabet) : Nat :=
  if d < 26 then 65 + d
  else if d < 52 then 71 + d
  else if d < 62 then d - 4
  else if d = 62 then (if alphabet = .standard then 43 else 45)
  else (if alphabet = .standard then 47 else 95)

/-- The 6-bit value of the character `c`, or -1. -/
def b64Value (c : Nat) (alphabet : Alphabet) : Int :=
  if 65 ≤ c ∧ c ≤ 90 then c - 65
  else if 97 ≤ c ∧ c ≤ 122 then c - 71
  else if 48 ≤ c ∧ c ≤ 57 then c + 4
  else if alphabet = .standard then (if c = 43 then 62 else if c = 47 then 63 else -1)
  else (if c = 45 then 62 else if c = 95 then 63 else -1)

def hexDigit (d : Nat) (upper : Bool) : Nat :=
  if d < 10 then 48 + d else if upper then 55 + d else 87 + d

def hexValue (c : Nat) : Int :=
  if 48 ≤ c ∧ c ≤ 57 then c - 48
  else if 97 ≤ c ∧ c ≤ 102 then c - 87
  else if 65 ≤ c ∧ c ≤ 70 then c - 55
  else -1

def unreserved (c : Nat) : Bool :=
  ((65 ≤ c ∧ c ≤ 90) ∨ (97 ≤ c ∧ c ≤ 122)) ∨
    ((48 ≤ c ∧ c ≤ 57) ∨ ((c = 95 ∨ c = 46) ∨ (c = 45 ∨ c = 126)))

/-- `str.find_byte`. -/
def findByte (b : List (BitVec 8)) (c : Nat) : Outcome Int := do
  let found ← firstOf (fun i => do pure (if (← byteAt b i) = c then some i else none)) (List.range b.length)
  pure (match found with
    | some i => (i : Int)
    | none => -1)

/-- What a decoder returns: how many bytes it appended, or where the text goes wrong. -/
abbrev Decoded (σ : Type) := Content σ × Except Nat Nat

section

variable {σ : Type} (A : Allocator σ) (fuel : Nat)

/-- The characters `lo`, `lo + 1`, … of the four that `w`, of 24 bits, makes. -/
def pushSextets (o : Content σ) (w count : Nat) (alphabet : Alphabet) : Outcome (Content σ) :=
  foldAll (fun o k => o.pushByte A fuel (BitVec.ofNat 32 (b64Char ((w >>> (18 - 6 * k)) &&& 63) alphabet))) o
    (List.range count)

/-- A round of the loop of `base64_to` over three bytes. -/
def base64Round (b : List (BitVec 8)) (alphabet : Alphabet) (s : Content σ × Nat) :
    Outcome (Content σ × Nat ⊕ Content σ × Nat) :=
  if s.2 + 3 ≤ b.length then do
    let c₀ ← byteAt b s.2
    let c₁ ← byteAt b (s.2 + 1)
    let c₂ ← byteAt b (s.2 + 2)
    let o ← pushSextets A fuel s.1 (c₀ <<< 16 ||| (c₁ <<< 8 ||| c₂)) 4 alphabet
    pure (.inl (o, s.2 + 3))
  else pure (.inr s)

def base64To (o : Content σ) (b : List (BitVec 8)) (alphabet : Alphabet) (padding : Padding) : Outcome (Content σ) := do
  let (o, i) ← iterate (base64Round A fuel b alphabet) fuel (o, 0)
  let left := b.length - i
  if 0 < left then do
    let c₀ ← byteAt b i
    let w ← (if left = 2 then do pure (c₀ <<< 16 ||| (← byteAt b (i + 1)) <<< 8) else pure (c₀ <<< 16) : Outcome Nat)
    let o ← pushSextets A fuel o w (left + 1) alphabet
    if padding = .padded then foldAll (fun o _ => o.pushByte A fuel 61#32) o (List.range' left (3 - left))
    else pure o
  else pure o

/-- A round of the loop of `base64_error`: a place in the text before the first `=`. -/
def errorRound (b : List (BitVec 8)) (alphabet : Alphabet) (p : Nat) : Outcome (Nat ⊕ Nat × Option Nat) :=
  if p < b.length then do
    let c ← byteAt b p
    if c = 61 then pure (.inr (p, none))
    else if b64Value c alphabet < 0 then pure (.inr (p, some p))
    else pure (.inl (p + 1))
  else pure (.inr (p, none))

/-- What `base64_error` makes of the end `p` of the characters. -/
def paddingError (b : List (BitVec 8)) (p : Nat) (padding : Padding) : Outcome (Option Nat) := do
  if p < b.length ∧ padding = .unpadded then pure (some p)
  else do
    let stray ← (if p < b.length then
        if p = 0 then pure (some 0)
        else firstOf (fun k => do pure (if (← byteAt b k) ≠ 61 then some k else none)) (List.range' p (b.length - p))
      else pure none : Outcome (Option Nat))
    match stray with
    | some k => pure (some k)
    | none =>
      if p % 4 = 1 then pure (some b.length)
      else
        let want := (4 - p % 4) % 4
        if padding = .padded ∧ b.length - p ≠ want then
          pure (some (if b.length - p < want then b.length else p + want))
        else pure none

def base64Error (b : List (BitVec 8)) (alphabet : Alphabet) (padding : Padding) : Outcome (Option Nat) := do
  let (p, bad) ← iterate (errorRound b alphabet) fuel 0
  match bad with
  | some p => pure (some p)
  | none => paddingError b p padding

/-- A round of the loop that takes the padding off. -/
def trimRound (b : List (BitVec 8)) (n : Nat) : Outcome (Nat ⊕ Nat) :=
  if 0 < n then do
    if (← byteAt b (n - 1)) = 61 then pure (.inl (n - 1)) else pure (.inr n)
  else pure (.inr n)

/-- The bits that have been read: `w`, of which the lowest `bits` are left, and how many bytes they made. -/
structure Bits (σ : Type) where
  o : Content σ
  w : Nat
  bits : Nat
  out : Nat

/-- A character of the text; none of its values is -1. -/
def sextetRound (b : List (BitVec 8)) (alphabet : Alphabet) (s : Bits σ) (i : Nat) : Outcome (Bits σ) := do
  let c ← byteAt b i
  let w := ((s.w &&& 65535) <<< 6) ||| (b64Value c alphabet).toNat
  let bits := s.bits + 6
  if 8 ≤ bits then do
    let o ← s.o.pushByte A fuel (BitVec.ofNat 32 ((w >>> (bits - 8)) &&& 255))
    pure ⟨o, w, bits - 8, s.out + 1⟩
  else pure ⟨s.o, w, bits, s.out⟩

def base64DecodeTo (o : Content σ) (b : List (BitVec 8)) (alphabet : Alphabet) (padding : Padding) : Outcome (Decoded σ) := do
  match ← base64Error fuel b alphabet padding with
  | some bad => pure (o, .error bad)
  | none => do
    let n ← iterate (trimRound b) fuel b.length
    let s ← foldAll (sextetRound A fuel b alphabet) ⟨o, 0, 0, 0⟩ (List.range n)
    pure (s.o, .ok s.out)

def hexTo (o : Content σ) (b : List (BitVec 8)) (upper : Bool) : Outcome (Content σ) :=
  foldAll (fun o i => do
    let c ← byteAt b i
    let o ← o.pushByte A fuel (BitVec.ofNat 32 (hexDigit (c >>> 4) upper))
    o.pushByte A fuel (BitVec.ofNat 32 (hexDigit (c &&& 15) upper))) o (List.range b.length)

/-- The byte that two hex digits stand for; none of their values is -1. -/
def hexByte (c₀ c₁ : Nat) : Nat := ((hexValue c₀).toNat <<< 4) ||| (hexValue c₁).toNat

def hexDecodeTo (o : Content σ) (b : List (BitVec 8)) : Outcome (Decoded σ) := do
  let bad ← firstOf (fun i => do pure (if hexValue (← byteAt b i) < 0 then some i else none)) (List.range b.length)
  match bad with
  | some i => pure (o, .error i)
  | none =>
    if b.length % 2 = 1 then pure (o, .error b.length)
    else do
      let o ← foldAll (fun o i => do
        let c₀ ← byteAt b (2 * i)
        let c₁ ← byteAt b (2 * i + 1)
        o.pushByte A fuel (BitVec.ofNat 32 (hexByte c₀ c₁))) o (List.range (b.length / 2))
      pure (o, .ok (b.length / 2))

/-- The byte at `i` of `b`, escaped unless it is kept. -/
def percentRound (b keep : List (BitVec 8)) (plus : Bool) (o : Content σ) (i : Nat) : Outcome (Content σ) := do
  let c ← byteAt b i
  if plus ∧ c = 32 then o.pushByte A fuel 43#32
  else do
    let kept ← (if unreserved c then pure true
      else if c < 128 then do pure (decide (0 ≤ (← findByte keep c)))
      else pure false : Outcome Bool)
    if kept then o.pushByte A fuel (BitVec.ofNat 32 c)
    else do
      let o ← o.pushByte A fuel 37#32
      let o ← o.pushByte A fuel (BitVec.ofNat 32 (hexDigit (c >>> 4) true))
      o.pushByte A fuel (BitVec.ofNat 32 (hexDigit (c &&& 15) true))

def percentEncodeTo (o : Content σ) (b keep : List (BitVec 8)) (plus : Bool) : Outcome (Content σ) :=
  foldAll (percentRound A fuel b keep plus) o (List.range b.length)

/-- Whether the byte at `i` is a `%` without two hex digits after it. -/
def badEscape (b : List (BitVec 8)) (i : Nat) : Outcome (Option Nat) := do
  if (← byteAt b i) = 37 then
    if b.length ≤ i + 2 then pure (some i)
    else do
      let c₁ ← byteAt b (i + 1)
      let c₂ ← byteAt b (i + 2)
      pure (if hexValue c₁ < 0 ∨ hexValue c₂ < 0 then some i else none)
  else pure none

/-- A round of the loop of `percent_decode_to`: the buffer, the place in the text, and the count. -/
def unescapeRound (b : List (BitVec 8)) (plus : Bool) (s : Content σ × Nat × Nat) :
    Outcome (Content σ × Nat × Nat ⊕ Content σ × Nat) :=
  let (o, i, out) := s
  if i < b.length then do
    let c ← byteAt b i
    if c = 37 then do
      let c₁ ← byteAt b (i + 1)
      let c₂ ← byteAt b (i + 2)
      let o ← o.pushByte A fuel (BitVec.ofNat 32 (hexByte c₁ c₂))
      pure (.inl (o, i + 3, out + 1))
    else if plus ∧ c = 43 then do
      let o ← o.pushByte A fuel 32#32
      pure (.inl (o, i + 1, out + 1))
    else do
      let o ← o.pushByte A fuel (BitVec.ofNat 32 c)
      pure (.inl (o, i + 1, out + 1))
  else pure (.inr (o, out))

def percentDecodeTo (o : Content σ) (b : List (BitVec 8)) (plus : Bool) : Outcome (Decoded σ) := do
  match ← firstOf (badEscape b) (List.range b.length) with
  | some i => pure (o, .error i)
  | none => do
    let (o, out) ← iterate (unescapeRound A fuel b plus) fuel (o, 0, 0)
    pure (o, .ok out)

end

/-! ### What a text stands for -/

/-- Text that is read: the bytes that it stands for are appended. -/
structure Accepts {σ : Type} (A : Allocator σ) (fuel : Nat) (decode : Content σ → Outcome (Decoded σ)) (l : List (BitVec 8)) :
    Prop where
  eq : ∀ o, decode o = pushAll A fuel o l >>= fun o => pure (o, .ok l.length)

/-- Text that is refused, at a place in it or at its end: nothing is appended. -/
def Refuses {σ : Type} (decode : Content σ → Outcome (Decoded σ)) (n : Nat) : Prop :=
  ∃ j, j ≤ n ∧ ∀ o, decode o = done (o, .error j)

/-- A decoder of the texts that stand for something. -/
def Decodes {σ : Type} (A : Allocator σ) (fuel : Nat) (Stands : List (BitVec 8) → Prop) (decode : Content σ → Outcome (Decoded σ))
    (n : Nat) : Prop :=
  (∃ l, Stands l ∧ Accepts A fuel decode l) ∨ ((∀ l, ¬ Stands l) ∧ Refuses decode n)

/-- Where it is one text's bytes alone, they are appended. -/
theorem Decodes.accepts {σ : Type} {A : Allocator σ} {fuel n : Nat} {Stands : List (BitVec 8) → Prop}
    {decode : Content σ → Outcome (Decoded σ)} {l : List (BitVec 8)} (h : Decodes A fuel Stands decode n) (hl : Stands l)
    (hunique : ∀ l', Stands l' → l' = l) : Accepts A fuel decode l := by
  rcases h with ⟨l', hl', h⟩ | ⟨hnone, -⟩
  · rwa [← hunique l' hl']
  · exact absurd hl (hnone l)

end Aipl.StdEncode
