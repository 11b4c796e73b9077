import Aipl.Lib.Numeral
import Mathlib.Data.Nat.NthRoot.Defs
import Mathlib.Data.Nat.Prime.Basic

/-! # Library — hash functions that work through blocks

A message is padded to whole blocks, and a chaining value is taken from block to block.  MD5 (RFC 1321), SHA-1 and
SHA-2 (FIPS 180-4), and the keyed digest that any such function gives (RFC 2104).  Nothing here names a program.

* `Hash`, `Hash.digest`, `Hash.hmac` — a hash function, what it makes of a message, and the keyed digest.
* `md5`, `sha1`, `sha2` — the functions.
* `absorb`, `absorbAll_eq` — bytes taken one at a time come to the blocks of them all.
* `least_zeros` — the zeros of a padding are the fewest that leave room for the length.
-/

namespace Aipl.Lib.Digests

open Aipl.Lib

abbrev Byte := BitVec 8

/-! ### Chaining -/

section Chaining

variable {S B : Type} (step : S → List B → S) (n : Nat)

/-- The chaining value after `k` blocks. -/
def chain : Nat → S → List B → S
  | 0, v, _ => v
  | k + 1, v, l => chain k (step v (l.take n)) (l.drop n)

/-- A chaining value, and what there is of the next block. -/
structure Partial (S B : Type) where
  value : S
  pending : List B

/-- One more byte; a full block is worked through. -/
def absorb (p : Partial S B) (b : B) : Partial S B :=
  if p.pending.length + 1 = n then ⟨step p.value (p.pending ++ [b]), []⟩ else ⟨p.value, p.pending ++ [b]⟩

variable {step n} {k : Nat} {v : S} {l l' : List B}

theorem chain_append (h : n * k ≤ l.length) : chain step n k v (l ++ l') = chain step n k v l := by
  induction k generalizing v l with
  | zero => rfl
  | succ k ih =>
    rw [Nat.mul_succ] at h
    have hle : n ≤ l.length := (Nat.le_add_left _ _).trans h
    rw [chain, chain, List.take_append_of_le_length hle, List.drop_append_of_le_length hle]
    exact ih (by rw [List.length_drop]; omega)

/-- The last of the blocks. -/
theorem chain_succ : chain step n (k + 1) v l = step (chain step n k v l) ((l.drop (n * k)).take n) := by
  induction k generalizing v l with
  | zero => simp [chain]
  | succ k ih =>
    rw [chain, ih, chain, List.drop_drop, Nat.mul_succ, Nat.add_comm n]

/-- **Bytes taken one at a time** come to the blocks of them all, and what is left. -/
theorem absorbAll_eq (hn : 0 < n) (p : Partial S B) (hp : p.pending.length < n) (l : List B) :
    l.foldl (absorb step n) p =
      ⟨chain step n ((p.pending ++ l).length / n) p.value (p.pending ++ l),
        (p.pending ++ l).drop (n * ((p.pending ++ l).length / n))⟩ := by
  induction l using List.reverseRecOn with
  | nil =>
    rw [List.append_nil, Nat.div_eq_of_lt hp]
    rfl
  | append_singleton l b ih =>
    rw [List.foldl_append, ih, ← List.append_assoc]
    generalize p.pending ++ l = m
    have hmod := Nat.mod_add_div m.length n
    have hlt := Nat.mod_lt m.length hn
    have hle : n * (m.length / n) ≤ m.length := by omega
    have hsplit : m.length + 1 = n * (m.length / n) + (m.length % n + 1) := by omega
    have hpending : (m.drop (n * (m.length / n))).length = m.length % n := by
      rw [List.length_drop]
      omega
    have hdrop : (m ++ [b]).drop (n * (m.length / n)) = m.drop (n * (m.length / n)) ++ [b] :=
      List.drop_append_of_le_length hle
    rw [List.foldl_cons, List.foldl_nil, absorb, hpending, List.length_append, List.length_singleton]
    dsimp only
    by_cases hfull : m.length % n + 1 = n
    · have hdiv : (m.length + 1) / n = m.length / n + 1 := by
        rw [hsplit, Nat.mul_add_div hn, hfull, Nat.div_self hn]
      have htake : (m.drop (n * (m.length / n)) ++ [b]).take n = m.drop (n * (m.length / n)) ++ [b] := by
        rw [List.take_of_length_le]
        rw [List.length_append, hpending, List.length_singleton, hfull]
      have hrest : (m ++ [b]).drop (n * (m.length / n + 1)) = [] := by
        rw [List.drop_eq_nil_iff, List.length_append, List.length_singleton, Nat.mul_succ]
        omega
      rw [if_pos hfull, hdiv, chain_succ, chain_append hle, hdrop, htake, hrest]
    · have hdiv : (m.length + 1) / n = m.length / n := by
        rw [hsplit, Nat.mul_add_div hn, Nat.div_eq_of_lt (show m.length % n + 1 < n by omega), Nat.add_zero]
      rw [if_neg hfull, hdiv, chain_append hle, hdrop]

end Chaining

/-! ### Hash functions -/

/-- A hash function: its blocks, its chaining values, and how a message of so many bytes is padded. -/
structure Hash where
  Value : Type
  block : Nat
  start : Value
  step : Value → List Byte → Value
  padding : Nat → List Byte
  bytes : Value → List Byte
  block_pos : 0 < block
  whole : ∀ len, (len + (padding len).length) % block = 0

namespace Hash

variable (H : Hash)

/-- **The digest** of a message. -/
def digest (m : List Byte) : List Byte :=
  let padded := m ++ H.padding m.length
  H.bytes (chain H.step H.block (padded.length / H.block) H.start padded)

/-- The key, as one block. -/
def keyBlock (key : List Byte) : List Byte :=
  let key := if H.block < key.length then H.digest key else key
  key ++ List.replicate (H.block - key.length) 0#8

/-- **The keyed digest** of a message. -/
def hmac (key m : List Byte) : List Byte :=
  let inner := H.digest ((H.keyBlock key).map (· ^^^ 0x36#8) ++ m)
  H.digest ((H.keyBlock key).map (· ^^^ 0x5c#8) ++ inner)

/-- All the bytes of a padded message are worked through. -/
theorem absorbAll_padded (m : List Byte) :
    (m ++ H.padding m.length).foldl (absorb H.step H.block) ⟨H.start, []⟩ =
      ⟨chain H.step H.block ((m ++ H.padding m.length).length / H.block) H.start (m ++ H.padding m.length), []⟩ := by
  have hnone : (⟨H.start, []⟩ : Partial H.Value Byte).pending.length < H.block := H.block_pos
  rw [absorbAll_eq H.block_pos _ hnone]
  have hlen : (m ++ H.padding m.length).length % H.block = 0 := by
    rw [List.length_append]
    exact H.whole m.length
  have hdvd := Nat.mul_div_cancel' (Nat.dvd_of_mod_eq_zero hlen)
  simp only [List.nil_append, hdvd, List.drop_length]

end Hash

/-! ### Numbers as bytes -/

/-- The low `n` bytes of a number, the lowest first. -/
def leBytes (n v : Nat) : List Byte := (List.range n).map fun k => BitVec.ofNat 8 (v / 256 ^ k)

/-- The low `n` bytes of a number, the highest first. -/
def beBytes (n v : Nat) : List Byte := (List.range n).map fun k => BitVec.ofNat 8 (v / 256 ^ (n - 1 - k))

@[simp] theorem length_leBytes (n v : Nat) : (leBytes n v).length = n := by simp [leBytes]

@[simp] theorem length_beBytes (n v : Nat) : (beBytes n v).length = n := by simp [beBytes]

/-- The number that bytes are, the highest first. -/
def beWord (w : Nat) (l : List Byte) : BitVec w := BitVec.ofNat w (Numeral.number 256 (l.map BitVec.toNat))

/-- Word `j` of a block. -/
def beAt (w : Nat) (l : List Byte) (j : Nat) : BitVec w := beWord w ((l.drop (w / 8 * j)).take (w / 8))

/-- Word `j` of a block whose words have their lowest byte first. -/
def leAt (w : Nat) (l : List Byte) (j : Nat) : BitVec w := beWord w ((l.drop (w / 8 * j)).take (w / 8)).reverse

/-! ### Padding -/

/-- How many zeros come before a length of `room` bytes. -/
def zeros (block room len : Nat) : Nat := (2 * block - room - (len + 1) % block) % block

/-- **They are the fewest** that leave room for the length. -/
theorem least_zeros {block room : Nat} (len : Nat) (hroom : 0 < room) (hblock : room < block) :
    (len + 1 + zeros block room len) % block = block - room ∧
      ∀ z, (len + 1 + z) % block = block - room → zeros block room len ≤ z := by
  have hpos : 0 < block := by omega
  have hlt := Nat.mod_lt (len + 1) hpos
  have hat : zeros block room len =
      if (len + 1) % block ≤ block - room then block - room - (len + 1) % block
      else 2 * block - room - (len + 1) % block := by
    rw [zeros]
    split
    · rw [show 2 * block - room - (len + 1) % block = block - room - (len + 1) % block + block by omega,
        Nat.add_mod_right, Nat.mod_eq_of_lt (by omega)]
    · rw [Nat.mod_eq_of_lt (by omega)]
  constructor
  · rw [Nat.add_mod, hat]
    split
    · rw [Nat.mod_eq_of_lt (show block - room - (len + 1) % block < block by omega), Nat.mod_eq_of_lt (by omega)]
      omega
    · rw [Nat.mod_eq_of_lt (show 2 * block - room - (len + 1) % block < block by omega),
        show (len + 1) % block + (2 * block - room - (len + 1) % block) = block - room + block by omega,
        Nat.add_mod_right, Nat.mod_eq_of_lt (by omega)]
  · intro z hz
    rw [Nat.add_mod] at hz
    have hz' := Nat.mod_le z block
    have hzlt := Nat.mod_lt z hpos
    rw [hat]
    by_cases hsum : (len + 1) % block + z % block < block
    · rw [Nat.mod_eq_of_lt hsum] at hz
      rw [if_pos (by omega)]
      omega
    · rw [Nat.mod_eq_sub_mod (by omega), Nat.mod_eq_of_lt (by omega)] at hz
      split <;> omega

/-- A one bit, zeros, and the length. -/
def pad (block room : Nat) (field : Nat → List Byte) (len : Nat) : List Byte :=
  0x80#8 :: List.replicate (zeros block room len) 0#8 ++ field len

theorem whole_pad {block room : Nat} {field : Nat → List Byte} (hroom : 0 < room) (hblock : room < block)
    (hfield : ∀ len, (field len).length = room) (len : Nat) : (len + (pad block room field len).length) % block = 0 := by
  have hleast := (least_zeros len hroom hblock).1
  rw [pad, List.length_append, List.length_cons, List.length_replicate, hfield,
    show len + (zeros block room len + 1 + room) = len + 1 + zeros block room len + room by omega, Nat.add_mod, hleast,
    Nat.mod_eq_of_lt hblock, Nat.sub_add_cancel hblock.le, Nat.mod_self]

/-! ### MD5 -/

/-- Four words. -/
structure Four where
  (a b c d : BitVec 32)
deriving DecidableEq

namespace Md5

/-- The integer part of `2 ^ 32` times the sine of each of 1 to 64, its sign left out. -/
def table : List (BitVec 32) :=
  [0xd76aa478#32, 0xe8c7b756#32, 0x242070db#32, 0xc1bdceee#32, 0xf57c0faf#32, 0x4787c62a#32, 0xa8304613#32, 0xfd469501#32,
    0x698098d8#32, 0x8b44f7af#32, 0xffff5bb1#32, 0x895cd7be#32, 0x6b901122#32, 0xfd987193#32, 0xa679438e#32, 0x49b40821#32,
    0xf61e2562#32, 0xc040b340#32, 0x265e5a51#32, 0xe9b6c7aa#32, 0xd62f105d#32, 0x02441453#32, 0xd8a1e681#32, 0xe7d3fbc8#32,
    0x21e1cde6#32, 0xc33707d6#32, 0xf4d50d87#32, 0x455a14ed#32, 0xa9e3e905#32, 0xfcefa3f8#32, 0x676f02d9#32, 0x8d2a4c8a#32,
    0xfffa3942#32, 0x8771f681#32, 0x6d9d6122#32, 0xfde5380c#32, 0xa4beea44#32, 0x4bdecfa9#32, 0xf6bb4b60#32, 0xbebfbc70#32,
    0x289b7ec6#32, 0xeaa127fa#32, 0xd4ef3085#32, 0x04881d05#32, 0xd9d4d039#32, 0xe6db99e5#32, 0x1fa27cf8#32, 0xc4ac5665#32,
    0xf4292244#32, 0x432aff97#32, 0xab9423a7#32, 0xfc93a039#32, 0x655b59c3#32, 0x8f0ccc92#32, 0xffeff47d#32, 0x85845dd1#32,
    0x6fa87e4f#32, 0xfe2ce6e0#32, 0xa3014314#32, 0x4e0811a1#32, 0xf7537e82#32, 0xbd3af235#32, 0x2ad7d2bb#32, 0xeb86d391#32]

def rotations : List (List Nat) := [[7, 12, 17, 22], [5, 9, 14, 20], [4, 11, 16, 23], [6, 10, 15, 21]]

/-- The function of a round, and the word it takes. -/
def mix (i : Nat) (x y z : BitVec 32) : BitVec 32 :=
  match i / 16 with
  | 0 => x &&& y ||| ~~~x &&& z
  | 1 => x &&& z ||| y &&& ~~~z
  | 2 => x ^^^ y ^^^ z
  | _ => y ^^^ (x ||| ~~~z)

def place (i : Nat) : Nat :=
  match i / 16 with
  | 0 => i
  | 1 => (5 * i + 1) % 16
  | 2 => (3 * i + 5) % 16
  | _ => 7 * i % 16

def rotation (i : Nat) : Nat := (rotations.getD (i / 16) []).getD (i % 4) 0

/-- One operation. -/
def round (X : Nat → BitVec 32) (s : Four) (i : Nat) : Four :=
  ⟨s.d, s.b + (s.a + mix i s.b s.c s.d + X (place i) + table.getD i 0#32).rotateLeft (rotation i), s.b, s.c⟩

def step (v : Four) (l : List Byte) : Four :=
  let s := (List.range 64).foldl (round (leAt 32 l)) v
  ⟨v.a + s.a, v.b + s.b, v.c + s.c, v.d + s.d⟩

end Md5

/-- **MD5.** -/
def md5 : Hash where
  Value := Four
  block := 64
  start := ⟨0x67452301#32, 0xefcdab89#32, 0x98badcfe#32, 0x10325476#32⟩
  step := Md5.step
  padding := pad 64 8 fun len => leBytes 8 (8 * len)
  bytes v := [v.a, v.b, v.c, v.d].flatMap fun w => leBytes 4 w.toNat
  block_pos := by decide
  whole := whole_pad (by decide) (by decide) fun _ => length_leBytes 8 _

/-! ### SHA-1 and SHA-2 -/

/-- Choose, and take the majority. -/
def ch {w : Nat} (x y z : BitVec w) : BitVec w := (x &&& y) ^^^ (~~~x &&& z)

def maj {w : Nat} (x y z : BitVec w) : BitVec w := (x &&& y) ^^^ (x &&& z) ^^^ (y &&& z)

/-- Five words. -/
structure Five where
  (a b c d e : BitVec 32)
deriving DecidableEq

namespace Sha1

def schedule (M : Nat → BitVec 32) (t : Nat) : BitVec 32 :=
  if t < 16 then M t
  else (schedule M (t - 3) ^^^ schedule M (t - 8) ^^^ schedule M (t - 14) ^^^ schedule M (t - 16)).rotateLeft 1

def mix (t : Nat) (x y z : BitVec 32) : BitVec 32 :=
  match t / 20 with
  | 0 => ch x y z
  | 1 => x ^^^ y ^^^ z
  | 2 => maj x y z
  | _ => x ^^^ y ^^^ z

def constant (t : Nat) : BitVec 32 := [0x5a827999#32, 0x6ed9eba1#32, 0x8f1bbcdc#32, 0xca62c1d6#32].getD (t / 20) 0#32

def round (W : Nat → BitVec 32) (s : Five) (t : Nat) : Five :=
  ⟨s.a.rotateLeft 5 + mix t s.b s.c s.d + s.e + constant t + W t, s.a, s.b.rotateLeft 30, s.c, s.d⟩

def step (v : Five) (l : List Byte) : Five :=
  let s := (List.range 80).foldl (round (schedule (beAt 32 l))) v
  ⟨v.a + s.a, v.b + s.b, v.c + s.c, v.d + s.d, v.e + s.e⟩

end Sha1

/-- **SHA-1.** -/
def sha1 : Hash where
  Value := Five
  block := 64
  start := ⟨0x67452301#32, 0xefcdab89#32, 0x98badcfe#32, 0x10325476#32, 0xc3d2e1f0#32⟩
  step := Sha1.step
  padding := pad 64 8 fun len => beBytes 8 (8 * len)
  bytes v := [v.a, v.b, v.c, v.d, v.e].flatMap fun w => beBytes 4 w.toNat
  block_pos := by decide
  whole := whole_pad (by decide) (by decide) fun _ => length_beBytes 8 _

/-- Eight words. -/
structure Eight (w : Nat) where
  (a b c d e f g h : BitVec w)
deriving DecidableEq

namespace Sha2

/-- The rotations of the two sums of a round, and of those of the schedule, whose last is a shift. -/
structure Amounts where
  (big0 big1 small0 small1 : Nat × Nat × Nat)
  rounds : Nat

/-- The first 80 primes. -/
def primes : List Nat := (List.range 410).filter fun p => decide p.Prime

/-- A number below `21 ^ 2` is prime when no number below 21 divides it. -/
def isPrime (p : Nat) : Bool := decide (2 ≤ p) && (List.range 21).all fun d => decide (d < 2) || decide (p ≤ d) || p % d != 0

theorem isPrime_iff {p : Nat} (hp : p < 410) : isPrime p = true ↔ p.Prime := by
  simp only [isPrime, Bool.and_eq_true, decide_eq_true_eq, List.all_eq_true, List.mem_range, Bool.or_eq_true, bne_iff_ne]
  constructor
  · rintro ⟨h2, hall⟩
    refine Nat.prime_def_le_sqrt.mpr ⟨h2, fun m hm hsqrt hdvd => ?_⟩
    have hsq := Nat.le_sqrt.mp hsqrt
    have hlt : m < 21 := by
      by_contra hge
      have := Nat.mul_le_mul (Nat.le_of_not_lt hge) (Nat.le_of_not_lt hge)
      omega
    have hmp : m < p := by
      have := Nat.mul_le_mul_right m hm
      omega
    rcases hall m hlt with (h | h) | h
    · omega
    · omega
    · exact h (Nat.mod_eq_zero_of_dvd hdvd)
  · intro h
    refine ⟨h.two_le, fun d _ => ?_⟩
    by_cases hd : d < 2
    · exact .inl (.inl hd)
    · by_cases hle : p ≤ d
      · exact .inl (.inr hle)
      · refine .inr fun hmod => ?_
        rcases (Nat.dvd_prime h).mp (Nat.dvd_of_mod_eq_zero hmod) with h1 | h1 <;> omega

theorem primes_eq : primes =
    [2, 3, 5, 7, 11, 13, 17, 19, 23, 29, 31, 37, 41, 43, 47, 53, 59, 61, 67, 71, 73, 79, 83, 89, 97, 101, 103,
    107, 109, 113, 127, 131, 137, 139, 149, 151, 157, 163, 167, 173, 179, 181, 191, 193, 197, 199, 211, 223,
    227, 229, 233, 239, 241, 251, 257, 263, 269, 271, 277, 281, 283, 293, 307, 311, 313, 317, 331, 337, 347,
    349, 353, 359, 367, 373, 379, 383, 389, 397, 401, 409] := by
  have hfilter : primes = (List.range 410).filter isPrime := by
    refine List.filter_congr fun p hp => ?_
    rw [Bool.eq_iff_iff, decide_eq_true_eq, isPrime_iff (List.mem_range.mp hp)]
  rw [hfilter]
  decide +kernel

/-- The first `w` bits of the fraction of the square root of a prime, and of its cube root. -/
def squareRoot (w t : Nat) : BitVec w := BitVec.ofNat w (Nat.nthRoot 2 (primes.getD t 0 * 2 ^ (2 * w)))

def cubeRoot (w t : Nat) : BitVec w := BitVec.ofNat w (Nat.nthRoot 3 (primes.getD t 0 * 2 ^ (3 * w)))

variable {w : Nat} (p : Amounts)

def big (r : Nat × Nat × Nat) (x : BitVec w) : BitVec w := x.rotateRight r.1 ^^^ x.rotateRight r.2.1 ^^^ x.rotateRight r.2.2

def small (r : Nat × Nat × Nat) (x : BitVec w) : BitVec w := x.rotateRight r.1 ^^^ x.rotateRight r.2.1 ^^^ x >>> r.2.2

def schedule (M : Nat → BitVec w) (t : Nat) : BitVec w :=
  if t < 16 then M t
  else small p.small1 (schedule M (t - 2)) + schedule M (t - 7) + small p.small0 (schedule M (t - 15)) + schedule M (t - 16)

def round (W : Nat → BitVec w) (s : Eight w) (t : Nat) : Eight w :=
  let t₁ := s.h + big p.big1 s.e + ch s.e s.f s.g + cubeRoot w t + W t
  let t₂ := big p.big0 s.a + maj s.a s.b s.c
  ⟨t₁ + t₂, s.a, s.b, s.c, s.d + t₁, s.e, s.f, s.g⟩

def step (v : Eight w) (l : List Byte) : Eight w :=
  let s := (List.range p.rounds).foldl (round p (schedule p (beAt w l))) v
  ⟨v.a + s.a, v.b + s.b, v.c + s.c, v.d + s.d, v.e + s.e, v.f + s.f, v.g + s.g, v.h + s.h⟩

def start (w : Nat) : Eight w :=
  ⟨squareRoot w 0, squareRoot w 1, squareRoot w 2, squareRoot w 3, squareRoot w 4, squareRoot w 5, squareRoot w 6,
    squareRoot w 7⟩

def bytes (n : Nat) (v : Eight w) : List Byte := [v.a, v.b, v.c, v.d, v.e, v.f, v.g, v.h].flatMap fun x => beBytes n x.toNat

def amounts256 : Amounts := ⟨(2, 13, 22), (6, 11, 25), (7, 18, 3), (17, 19, 10), 64⟩

def amounts512 : Amounts := ⟨(28, 34, 39), (14, 18, 41), (1, 8, 7), (19, 61, 6), 80⟩

end Sha2

/-- **SHA-256.** -/
def sha256 : Hash where
  Value := Eight 32
  block := 64
  start := Sha2.start 32
  step := Sha2.step Sha2.amounts256
  padding := pad 64 8 fun len => beBytes 8 (8 * len)
  bytes := Sha2.bytes 4
  block_pos := by decide
  whole := whole_pad (by decide) (by decide) fun _ => length_beBytes 8 _

/-- **SHA-512.** -/
def sha512 : Hash where
  Value := Eight 64
  block := 128
  start := Sha2.start 64
  step := Sha2.step Sha2.amounts512
  padding := pad 128 16 fun len => beBytes 16 (8 * len)
  bytes := Sha2.bytes 8
  block_pos := by decide
  whole := whole_pad (by decide) (by decide) fun _ => length_beBytes 16 _

end Aipl.Lib.Digests
