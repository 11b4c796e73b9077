import Mathlib.Data.BitVec
import Mathlib.Tactic.Ring

/-! # Library — LEB128

Numbers as groups of seven bits, the lowest first; every byte but the last has its high bit set.

* `IsLeb` — such bytes; `unsigned` and `signed` — what they stand for.
* `encodeNat`, `encodeInt` — the shortest of them, with `unsigned_encodeNat` and `signed_encodeInt`.
* `or_shift`, `ofInt_signed` — what a reader that puts the groups together in a word comes to.
-/

namespace Aipl.Lib.Leb

abbrev Bytes := List (BitVec 8)

/-- All bytes but the last go on. -/
inductive IsLeb : Bytes → Prop where
  | last {b : BitVec 8} (h : b.toNat < 128) : IsLeb [b]
  | more {b : BitVec 8} {bs : Bytes} (h : 128 ≤ b.toNat) (t : IsLeb bs) : IsLeb (b :: bs)

def unsigned : Bytes → Nat
  | [] => 0
  | b :: bs => b.toNat % 128 + 128 * unsigned bs

/-- The highest bit of the last group is the sign. -/
def signed : Bytes → Int
  | [] => 0
  | [b] => if b.toNat % 128 < 64 then b.toNat % 128 else b.toNat % 128 - 128
  | b :: bs => b.toNat % 128 + 128 * signed bs

def negative : Bytes → Bool
  | [] => false
  | [b] => decide (64 ≤ b.toNat % 128)
  | _ :: bs => negative bs

def encodeNat (n : Nat) : Bytes :=
  if n / 128 = 0 then [BitVec.ofNat 8 (n % 128)] else BitVec.ofNat 8 (n % 128 + 128) :: encodeNat (n / 128)
termination_by n
decreasing_by omega

/-- The last group is the one that what is left is the sign of. -/
def encodeInt (n : Int) : Bytes :=
  if (n / 128 = 0 ∧ n % 128 < 64) ∨ (n / 128 = -1 ∧ 64 ≤ n % 128) then [BitVec.ofInt 8 (n % 128)]
  else BitVec.ofInt 8 (n % 128 + 128) :: encodeInt (n / 128)
termination_by (if n < 0 then -n - 1 else n).toNat
decreasing_by omega

variable {b : BitVec 8} {bs rest : Bytes} {n : Nat}

theorem IsLeb.ne_nil (h : IsLeb bs) : bs ≠ [] := by
  cases h with
  | last => exact List.cons_ne_nil _ _
  | more => exact List.cons_ne_nil _ _

theorem unsigned_lt : ∀ bs : Bytes, unsigned bs < 128 ^ bs.length
  | [] => Nat.one_pos
  | b :: bs => by
      have hrest := unsigned_lt bs
      have hlow : b.toNat % 128 < 128 := Nat.mod_lt _ (by decide)
      rw [unsigned, List.length_cons, pow_succ]
      omega

/-- A negative number is less than its groups by all that they could hold. -/
theorem signed_eq (h : IsLeb bs) : signed bs = unsigned bs - if negative bs then (128 : Int) ^ bs.length else 0 := by
  induction h with
  | @last b hlast =>
    rw [signed, unsigned, unsigned, negative]
    by_cases hlow : b.toNat % 128 < 64
    · rw [if_pos hlow, decide_eq_false (by omega), if_neg Bool.false_ne_true]
      omega
    · rw [if_neg hlow, decide_eq_true (by omega), if_pos rfl, List.length_singleton]
      omega
  | @more b bs _ t ih =>
    obtain ⟨c, cs, rfl⟩ := List.exists_cons_of_ne_nil t.ne_nil
    have hneg : negative (b :: c :: cs) = negative (c :: cs) := rfl
    have hun : unsigned (b :: c :: cs) = b.toNat % 128 + 128 * unsigned (c :: cs) := rfl
    rw [signed, ih, hun, hneg, List.length_cons (a := b)]
    · cases negative (c :: cs) with
      | false =>
        simp only [Bool.false_eq_true, if_false]
        omega
      | true =>
        simp only [if_true, pow_succ _ (c :: cs).length]
        omega
    · exact List.cons_ne_nil _ _

theorem signed_bounds (h : IsLeb bs) : -((128 ^ bs.length : Nat) : Int) ≤ signed bs ∧ signed bs < (128 ^ bs.length : Nat) := by
  have hlt := unsigned_lt bs
  have hcast : ((128 ^ bs.length : Nat) : Int) = 128 ^ bs.length := by
    push_cast
    rfl
  rw [signed_eq h, ← hcast]
  split
  · omega
  · omega

/-! ### The shortest -/

theorem isLeb_encodeNat (n : Nat) : IsLeb (encodeNat n) := by
  induction n using Nat.strong_induction_on with
  | _ n ih =>
    rw [encodeNat]
    split
    · exact .last (by rw [BitVec.toNat_ofNat]; omega)
    · exact .more (by rw [BitVec.toNat_ofNat]; omega) (ih (n / 128) (by omega))

theorem unsigned_encodeNat (n : Nat) : unsigned (encodeNat n) = n := by
  induction n using Nat.strong_induction_on with
  | _ n ih =>
    rw [encodeNat]
    split
    · rw [unsigned, unsigned, BitVec.toNat_ofNat]
      omega
    · rw [unsigned, ih (n / 128) (by omega), BitVec.toNat_ofNat]
      omega

theorem length_encodeNat_le : ∀ (k n : Nat), n < 128 ^ (k + 1) → (encodeNat n).length ≤ k + 1
  | 0, n, h => by
      rw [encodeNat, if_pos (by omega), List.length_singleton]
  | k + 1, n, h => by
      rw [encodeNat]
      split
      · rw [List.length_singleton]
        omega
      · have hrest := length_encodeNat_le k (n / 128) (by rw [pow_succ] at h; omega)
        rw [List.length_cons]
        omega

private theorem toNat_ofInt_byte {m : Int} (h0 : 0 ≤ m) (h : m < 256) : ((BitVec.ofInt 8 m).toNat : Int) = m := by
  rw [BitVec.toNat_ofInt]
  omega

theorem isLeb_encodeInt (n : Int) : IsLeb (encodeInt n) := by
  induction n using encodeInt.induct with
  | case1 n h =>
    have hbyte := toNat_ofInt_byte (m := n % 128) (by omega) (by omega)
    rw [encodeInt, if_pos h]
    exact .last (by omega)
  | case2 n h ih =>
    have hbyte := toNat_ofInt_byte (m := n % 128 + 128) (by omega) (by omega)
    rw [encodeInt, if_neg h]
    exact .more (by omega) ih

theorem signed_encodeInt (n : Int) : signed (encodeInt n) = n := by
  induction n using encodeInt.induct with
  | case1 n h =>
    have hbyte := toNat_ofInt_byte (m := n % 128) (by omega) (by omega)
    rw [encodeInt, if_pos h, signed]
    split
    · omega
    · omega
  | case2 n h ih =>
    have hbyte := toNat_ofInt_byte (m := n % 128 + 128) (by omega) (by omega)
    rw [encodeInt, if_neg h, signed, ih]
    · omega
    · exact (isLeb_encodeInt _).ne_nil

theorem length_encodeInt_le : ∀ (k : Nat) (n : Int), -(64 * 128 ^ k) ≤ n → n < 64 * 128 ^ k → (encodeInt n).length ≤ k + 1
  | 0, n, hlo, hhi => by
      rw [encodeInt, if_pos (by omega), List.length_singleton]
  | k + 1, n, hlo, hhi => by
      rw [encodeInt]
      split
      · rw [List.length_singleton]
        omega
      · have hrest := length_encodeInt_le k (n / 128) (by rw [pow_succ] at hlo; omega) (by rw [pow_succ] at hhi; omega)
        rw [List.length_cons]
        omega

/-! ### In a word -/

variable {w s : Nat}

/-- A group put above the groups that are there. -/
theorem or_shift {a : Nat} (d : Nat) (ha : a < 2 ^ s) : BitVec.ofNat w a ||| (BitVec.ofNat w d <<< s) = BitVec.ofNat w (a + 2 ^ s * d) := by
  have hor : a + 2 ^ s * d = a ||| d <<< s := by
    rw [Nat.shiftLeft_eq, Nat.mul_comm d, Nat.add_comm, Nat.two_pow_add_eq_or_of_lt ha, Nat.or_comm]
  rw [hor]
  refine BitVec.eq_of_getLsbD_eq fun i hi => ?_
  simp only [BitVec.getLsbD_or, BitVec.getLsbD_shiftLeft, BitVec.getLsbD_ofNat, hi, Nat.testBit_or, Nat.testBit_shiftLeft, decide_true,
    Bool.true_and]
  by_cases hs : s ≤ i
  · simp [hs, show i - s < w by omega, show ¬ i < s by omega]
  · simp [hs, show i < s by omega]

theorem ofInt_congr {x y : Int} (h : (2 ^ w : Int) ∣ x - y) : BitVec.ofInt w x = BitVec.ofInt w y := by
  refine BitVec.eq_of_toNat_eq ?_
  rw [BitVec.toNat_ofInt, BitVec.toNat_ofInt]
  refine congrArg Int.toNat ((Int.emod_emod_of_dvd _ (dvd_refl _)).symm.trans ?_)
  have hmod := Int.emod_eq_emod_iff_emod_sub_eq_zero.mpr (Int.emod_eq_zero_of_dvd h)
  push_cast
  rw [hmod, Int.emod_emod_of_dvd _ (dvd_refl _)]

/-- **A signed number** in a word: the bits above its groups are its sign. -/
theorem ofInt_signed (h : IsLeb bs) : BitVec.ofInt w (signed bs) =
    if 7 * bs.length < w ∧ negative bs = true then BitVec.ofNat w (unsigned bs) ||| ((-1#w) <<< (7 * bs.length)) else BitVec.ofNat w (unsigned bs) := by
  have hpow : (128 : Int) ^ bs.length = 2 ^ (7 * bs.length) := by
    rw [pow_mul]
    norm_num
  have hlt : unsigned bs < 2 ^ (7 * bs.length) := by
    rw [pow_mul]
    exact unsigned_lt bs
  rw [signed_eq h, hpow]
  cases negative bs with
  | false => simp
  | true =>
    simp only [and_true, if_true]
    split
    · have hones : -1#w = BitVec.ofNat w (2 ^ w - 1) := by
        rw [BitVec.neg_one_eq_allOnes]
        exact BitVec.eq_of_toNat_eq (by simp)
      rw [hones, or_shift _ hlt, ← BitVec.ofInt_natCast]
      refine ofInt_congr ⟨-2 ^ (7 * bs.length), ?_⟩
      push_cast [Nat.one_le_two_pow]
      ring
    · rw [← BitVec.ofInt_natCast]
      refine ofInt_congr ?_
      obtain ⟨k, hk⟩ := Nat.exists_eq_add_of_le (show w ≤ 7 * bs.length by omega)
      rw [hk, pow_add]
      exact ⟨-2 ^ k, by ring⟩

end Aipl.Lib.Leb
