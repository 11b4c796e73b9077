import Aipl.Std.Bigint.Model
import Aipl.Lib.Radix
import Aipl.Lib.Bits

/-! # Limbs as digits

The limbs of a number are digits in radix `2^32`, and the loops over them are sums with a carry.

* `Shape`, `Canonical` — the invariant of a number inside an operation, and between operations.
* `mag`, `val` — the magnitude and the integer a number stands for.
* `pass_sat` — one loop over the limbs, whatever it computes at each.
-/

namespace Aipl.StdBigint

open Aipl.Lib Aipl.Lib.Outcome Aipl.Lib.Radix Aipl.Std

/-- The radix, `2^32`. -/
def RADIX : Int := 4294967296

theorem radix_pos : 0 < RADIX := by decide

/-- Limb `i`, zero past the end of the array. -/
def digit (xs : List (BitVec 64)) (i : Nat) : BitVec 64 := xs.getD i 0#64

/-- Limb `i`, as the digit it is. -/
def digits (xs : List (BitVec 64)) (i : Nat) : Int := (digit xs i).toNat

theorem digits_nonneg (xs : List (BitVec 64)) (i : Nat) : 0 ≤ digits xs i := Int.natCast_nonneg _

theorem digits_eq {xs ys : List (BitVec 64)} {i : Nat} (h : digit xs i = digit ys i) :
    digits xs i = digits ys i := by
  rw [digits, h, digits]

theorem getElem?_digit {xs : List (BitVec 64)} {i : Nat} (h : i < xs.length) :
    xs[i]? = some (digit xs i) := by
  rw [digit, List.getD_eq_getElem?_getD, List.getElem?_eq_getElem h, Option.getD_some]

theorem digit_set {xs : List (BitVec 64)} {i : Nat} (h : i < xs.length) (x : BitVec 64) (j : Nat) :
    digit (xs.set i x) j = if j = i then x else digit xs j := by
  simp only [digit, List.getD_eq_getElem?_getD, List.getElem?_set]
  by_cases hij : j = i
  · subst hij
    simp [h]
  · rw [if_neg (Ne.symm hij), if_neg hij]

theorem digit_replicate_zero (n i : Nat) : digit (List.replicate n 0#64) i = 0#64 := by
  rw [digit, List.getD_eq_getElem?_getD, List.getElem?_replicate]
  split <;> rfl

section

variable {ι σ : Type}

/-- A number inside an operation: its limbs are digits, and those from `len` on are zero. -/
structure Shape (n : BigInt ι) : Prop where
  room : 4 ≤ n.limbs.length
  size : n.limbs.length < 2 ^ 28
  len : n.len.toNat ≤ n.limbs.length
  lt : ∀ i, digits n.limbs i < RADIX
  beyond : ∀ i, n.len.toNat ≤ i → digit n.limbs i = 0#64

/-- **A number in canonical form**: no leading zero limb, and zero is not negative. -/
structure Canonical (n : BigInt ι) : Prop extends Shape n where
  top : ∀ k, n.len.toNat = k + 1 → digit n.limbs k ≠ 0#64
  zero : n.len = 0#32 → n.neg = false

/-- The magnitude. -/
def mag (n : BigInt ι) : Int := value RADIX (digits n.limbs) n.len.toNat

/-- The integer a number stands for. -/
def val (n : BigInt ι) : Int := if n.neg then -mag n else mag n

variable {n : BigInt ι}

theorem Shape.digit_lt (h : Shape n) (k : Nat) : Digits RADIX (digits n.limbs) k :=
  fun i _ => ⟨digits_nonneg _ i, h.lt i⟩

theorem Shape.toNat_lt (h : Shape n) (i : Nat) : (digit n.limbs i).toNat < 2 ^ 32 := by
  have := h.lt i
  rw [digits, RADIX] at this
  omega

theorem Shape.len_lt (h : Shape n) : n.len.toNat < 2 ^ 28 := h.len.trans_lt h.size

/-- The magnitude may be read over any number of limbs from `len` on. -/
theorem Shape.mag_eq (h : Shape n) {k : Nat} (hk : n.len.toNat ≤ k) :
    mag n = value RADIX (digits n.limbs) k := by
  refine (value_extend hk fun i hi _ => ?_).symm
  rw [digits, h.beyond i hi]
  rfl

theorem Shape.mag_nonneg (h : Shape n) : 0 ≤ mag n := value_nonneg radix_pos (h.digit_lt _)

theorem Canonical.mag_pos (h : Canonical n) (hlen : n.len ≠ 0#32) : 0 < mag n := by
  obtain ⟨k, hk⟩ : ∃ k, n.len.toNat = k + 1 := by
    refine Nat.exists_eq_succ_of_ne_zero fun h0 => hlen ?_
    exact BitVec.eq_of_toNat_eq h0
  rw [mag, hk]
  refine value_pos radix_pos (h.digit_lt _) fun h0 => h.top k hk ?_
  rw [digits] at h0
  exact BitVec.eq_of_toNat_eq (by simpa using h0)

theorem mag_zero (hlen : n.len = 0#32) : mag n = 0 := by
  rw [mag, hlen]
  rfl

theorem val_zero (hlen : n.len = 0#32) : val n = 0 := by
  rw [val, mag_zero hlen]
  simp

/-- Two numbers read alike: same sign, same length, same limbs up to zeros on top. -/
structure Same (n n' : BigInt ι) : Prop where
  len : n'.len = n.len
  neg : n'.neg = n.neg
  digit : ∀ i, digit n'.limbs i = digit n.limbs i

theorem Same.refl (n : BigInt ι) : Same n n := ⟨rfl, rfl, fun _ => rfl⟩

theorem Same.mag_eq {n n' : BigInt ι} (h : Same n n') : mag n' = mag n := by
  rw [mag, mag, h.len]
  exact value_congr fun i _ => digits_eq (h.digit i)

theorem Same.val_eq {n n' : BigInt ι} (h : Same n n') : val n' = val n := by
  rw [val, val, h.neg, h.mag_eq]

theorem Same.canonical {n n' : BigInt ι} (h : Same n n') (hn : Canonical n)
    (hroom : 4 ≤ n'.limbs.length) (hsize : n'.limbs.length < 2 ^ 28)
    (hlen : n.len.toNat ≤ n'.limbs.length) : Canonical n' := by
  refine ⟨⟨hroom, hsize, by rw [h.len]; exact hlen, fun i => ?_, fun i hi => ?_⟩, fun k hk => ?_,
    fun hz => ?_⟩
  · rw [digits_eq (h.digit i)]
    exact hn.lt i
  · rw [h.len] at hi
    exact (h.digit i).trans (hn.beyond i hi)
  · rw [h.len] at hk
    rw [h.digit k]
    exact hn.top k hk
  · rw [h.len] at hz
    exact h.neg.trans (hn.zero hz)

/-! ### Worlds -/

@[simp] theorem put_ints_self (w : World ι σ) (p : Nat) (n : BigInt ι) :
    (w.put p n).ints p = n := Function.update_self ..

theorem put_ints_of_ne (w : World ι σ) {p q : Nat} (n : BigInt ι) (h : q ≠ p) :
    (w.put p n).ints q = w.ints q := Function.update_of_ne h ..

@[simp] theorem put_put (w : World ι σ) (p : Nat) (n n' : BigInt ι) :
    (w.put p n).put p n' = w.put p n' := by
  simp [World.put]

/-- Nothing but number `p` changed. -/
structure OnlyAt (p : Nat) (w w' : World ι σ) : Prop where
  made : w'.made = w.made
  ints : ∀ q, q ≠ p → w'.ints q = w.ints q

theorem OnlyAt.refl (p : Nat) (w : World ι σ) : OnlyAt p w w := ⟨rfl, fun _ _ => rfl⟩

theorem OnlyAt.trans {p : Nat} {w w₁ w₂ : World ι σ} (h₁ : OnlyAt p w w₁) (h₂ : OnlyAt p w₁ w₂) :
    OnlyAt p w w₂ :=
  ⟨h₂.made.trans h₁.made, fun q hq => (h₂.ints q hq).trans (h₁.ints q hq)⟩

theorem OnlyAt.put (p : Nat) (w : World ι σ) (n : BigInt ι) : OnlyAt p w (w.put p n) :=
  ⟨rfl, fun _ hq => put_ints_of_ne w n hq⟩

/-! ### A loop over the limbs -/

theorem toNat_mask (t : BitVec 64) : (t &&& MASK).toNat = t.toNat % 2 ^ 32 := by
  rw [BitVec.toNat_and]
  exact Nat.and_two_pow_sub_one_eq_mod t.toNat 32

theorem toNat_mask_lt (t : BitVec 64) : (t &&& MASK).toNat < 2 ^ 32 := by
  rw [toNat_mask]
  exact Nat.mod_lt _ (by decide)

/-- The world with other limbs in number `p`. -/
def World.withLimbs (w : World ι σ) (p : Nat) (xs : List (BitVec 64)) : World ι σ :=
  w.put p { w.ints p with limbs := xs }

theorem withLimbs_self (w : World ι σ) (p : Nat) : w.withLimbs p (w.ints p).limbs = w := by
  simp [World.withLimbs, World.put]

@[simp] theorem withLimbs_at (w : World ι σ) (p : Nat) (xs : List (BitVec 64)) :
    (w.withLimbs p xs).ints p = { w.ints p with limbs := xs } := put_ints_self w p _

@[simp] theorem withLimbs_len (w : World ι σ) (p q : Nat) (xs : List (BitVec 64)) :
    ((w.withLimbs p xs).ints q).len = (w.ints q).len := by
  by_cases hq : q = p
  · subst hq
    rw [withLimbs_at]
  · rw [World.withLimbs, put_ints_of_ne _ _ hq]

@[simp] theorem withLimbs_neg (w : World ι σ) (p q : Nat) (xs : List (BitVec 64)) :
    ((w.withLimbs p xs).ints q).neg = (w.ints q).neg := by
  by_cases hq : q = p
  · subst hq
    rw [withLimbs_at]
  · rw [World.withLimbs, put_ints_of_ne _ _ hq]

@[simp] theorem withLimbs_withLimbs (w : World ι σ) (p : Nat) (xs ys : List (BitVec 64)) :
    (w.withLimbs p xs).withLimbs p ys = w.withLimbs p ys := by
  simp [World.withLimbs]

theorem withLimbs_setLen_self (w : World ι σ) (p : Nat) (xs : List (BitVec 64)) :
    (w.withLimbs p xs).setLen p (w.ints p).len = w.withLimbs p xs := by
  simp [World.setLen, World.withLimbs]

theorem setLimb_withLimbs (w : World ι σ) {p k : Nat} {xs : List (BitVec 64)} (hk : k < xs.length)
    (hk32 : k < 2 ^ 32) (x : BitVec 64) :
    setLimb (w.withLimbs p xs) p (BitVec.ofNat 32 k) x = done (w.withLimbs p (xs.set k x)) := by
  have hi : (BitVec.ofNat 32 k).toNat = k := Nat.mod_eq_of_lt hk32
  rw [setLimb, World.withLimbs, put_ints_self, arrSet_eq (by rw [hi]; exact hk), hi]
  simp [World.withLimbs]

/-- The limbs `xs` of number `p` of `w` while a loop runs over them: those before `k` are written. -/
structure Partly (w : World ι σ) (p k : Nat) (xs : List (BitVec 64)) : Prop where
  length : xs.length = (w.ints p).limbs.length
  lt : ∀ i, digits xs i < RADIX
  rest : ∀ i, k ≤ i → digit xs i = digit (w.ints p).limbs i

theorem Partly.start {w : World ι σ} {p : Nat} (h : Shape (w.ints p)) (k : Nat) :
    Partly w p k (w.ints p).limbs := ⟨rfl, h.lt, fun _ _ => rfl⟩

theorem Partly.step {w : World ι σ} {p k : Nat} {xs : List (BitVec 64)} (h : Partly w p k xs)
    (hk : k < xs.length) {x : BitVec 64} (hx : x.toNat < 2 ^ 32) :
    Partly w p (k + 1) (xs.set k x) := by
  refine ⟨by rw [List.length_set, h.length], fun i => ?_, fun i hi => ?_⟩
  · rw [digits, digit_set hk]
    split
    · rw [RADIX]
      omega
    · exact h.lt i
  · rw [digit_set hk, if_neg (by omega)]
    exact h.rest i (by omega)

/-- The limb a loop reads at `k` is the one from before the loop, also when the number it reads is
the one it writes. -/
theorem Partly.limb {w : World ι σ} {p q k : Nat} {xs : List (BitVec 64)} (h : Partly w p k xs)
    (hk : k < (w.ints q).limbs.length) (hk32 : k < 2 ^ 32) :
    limb (w.withLimbs p xs) q (BitVec.ofNat 32 k) = done (digit (w.ints q).limbs k) := by
  have hi : (BitVec.ofNat 32 k).toNat = k := Nat.mod_eq_of_lt hk32
  rw [StdBigint.limb, World.withLimbs]
  by_cases hq : q = p
  · subst hq
    rw [put_ints_self, ← h.rest k le_rfl]
    exact arrGet_eq (by rw [hi]; exact getElem?_digit (by rw [h.length]; exact hk))
  · rw [put_ints_of_ne _ _ hq]
    exact arrGet_eq (by rw [hi]; exact getElem?_digit hk)

/-- What a loop over the limbs of `p` has done before limb `k`: the terms `c` so far are the limbs
written and a carry, which `q` reads. -/
structure Pass (w : World ι σ) (p : Nat) (q : BitVec 64 → Int) (c : Nat → Int) (carry₀ : Int)
    (k : Nat) (r : World ι σ × BitVec 64) : Prop where
  partly : ∃ xs, r.1 = w.withLimbs p xs ∧ Partly w p k xs ∧
    Carried RADIX c (digits xs) carry₀ k (q r.2)

/-- **A loop over the limbs.**  Each round writes the low 32 bits of its term and the carry, and
carries the rest. -/
theorem pass_ends {w : World ι σ} {p fuel : Nat} {lo hi : BitVec 32} {q : BitVec 64 → Int}
    {c : Nat → Int} {carry₀ : Int} (small : BitVec 64 → Prop)
    {body : BitVec 32 → World ι σ × BitVec 64 → Outcome (World ι σ × BitVec 64)}
    (hlen : hi.toNat ≤ (w.ints p).limbs.length) (hsize : (w.ints p).limbs.length < 2 ^ 28)
    (hfuel : 2 ^ 30 ≤ fuel) (hlo : lo.toNat ≤ hi.toNat)
    (hbody : ∀ k xs carry, lo.toNat ≤ k → k < hi.toNat → Partly w p k xs → small carry →
      ∃ t carry', body (BitVec.ofNat 32 k) (w.withLimbs p xs, carry)
          = (do let w' ← setLimb (w.withLimbs p xs) p (BitVec.ofNat 32 k) (t &&& MASK)
                pure (w', carry'))
        ∧ small carry' ∧ ((t &&& MASK).toNat : Int) + q carry' * RADIX = c k + q carry)
    {r : World ι σ × BitVec 64} (hr : Pass w p q c carry₀ lo.toNat r) (hsmall : small r.2) :
    Ends (fun r' => Pass w p q c carry₀ hi.toNat r' ∧ small r'.2) (forLoop fuel lo hi body r) := by
  refine forLoop_range_ends (by omega) hlo (by omega)
    (fun k r => Pass w p q c carry₀ k r ∧ small r.2) ⟨hr, hsmall⟩ ?_
  rintro k ⟨w', carry⟩ hk hk' ⟨⟨xs, rfl, hxs, hc⟩, hcarry⟩
  obtain ⟨t, carry', hround, hcarry', hterm⟩ := hbody k xs carry hk hk' hxs hcarry
  have hkl : k < xs.length := by
    rw [hxs.length]
    omega
  rw [hround, setLimb_withLimbs w hkl (by omega), done_bind, pure_eq, ends_done]
  refine ⟨⟨xs.set k (t &&& MASK), rfl, hxs.step hkl (toNat_mask_lt t), hc.step (fun i hi => ?_) ?_⟩, hcarry'⟩
  · exact digits_eq (by rw [digit_set hkl, if_neg (by omega)])
  · rw [digits, digit_set hkl, if_pos rfl]
    exact hterm

end

end Aipl.StdBigint
