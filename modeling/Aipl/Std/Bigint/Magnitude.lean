import Aipl.Std.Bigint.Limbs

/-! # Magnitudes

* `reserve_endsOr`, `trim_ends` — more room, and the canonical form.
* `magnitudeAddMul_endsOr` — `|a| + |b| * m`.
* `magnitudeSubMul_endsOr` — `||a| - |b| * m|`, and whether the product was larger.
-/

namespace Aipl.StdBigint

open Aipl.Lib Aipl.Lib.Outcome Aipl.Lib.Radix Aipl.Std

/-! ### One term -/

/-- A term is its limb and its carry. -/
theorem term_carry (t : BitVec 64) :
    ((t &&& MASK).toNat : Int) + ((t >>> 32).toNat : Int) * RADIX = t.toNat := by
  rw [toNat_mask, BitVec.toNat_ushiftRight, Nat.shiftRight_eq_div_pow, RADIX]
  omega

/-- A term is its limb less its borrow. -/
theorem term_borrow (t : BitVec 64) :
    ((t &&& MASK).toNat : Int) + (t.sshiftRight 32).toInt * RADIX = t.toInt := by
  have hmod : ((t.toNat % 2 ^ 32 : Nat) : Int) = t.toInt % 2 ^ 32 := by
    rw [BitVec.toInt_eq_toNat_cond]
    split <;> omega
  rw [toNat_mask, hmod, BitVec.toInt_sshiftRight, Int.shiftRight_eq_div_pow, RADIX]
  omega

/-- A product of a limb and a small factor, another limb and a carry fit in 64 bits. -/
theorem toNat_term {x y m carry : BitVec 64} (hx : x.toNat < 2 ^ 32) (hy : y.toNat < 2 ^ 32)
    (hm : m.toNat < 2 ^ 31) (hc : carry.toNat ≤ 2 ^ 31) :
    (y * m + x + carry).toNat = y.toNat * m.toNat + x.toNat + carry.toNat := by
  have hym : y.toNat * m.toNat ≤ (2 ^ 32 - 1) * (2 ^ 31 - 1) :=
    Nat.mul_le_mul (by omega) (by omega)
  rw [BitVec.toNat_add, BitVec.toNat_add, BitVec.toNat_mul]
  omega

theorem toInt_term {x y m borrow : BitVec 64} (hx : x.toNat < 2 ^ 32) (hy : y.toNat < 2 ^ 32)
    (hm : m.toNat < 2 ^ 31) (hb : 0 ≤ borrow.toInt ∧ borrow.toInt ≤ 2 ^ 31) :
    (x - y * m - borrow).toInt = x.toNat - y.toNat * m.toNat - borrow.toInt := by
  have hym : y.toNat * m.toNat ≤ (2 ^ 32 - 1) * (2 ^ 31 - 1) :=
    Nat.mul_le_mul (by omega) (by omega)
  have hprod : (y * m).toNat = y.toNat * m.toNat := by
    rw [BitVec.toNat_mul]
    omega
  have hpi : (y * m).toInt = y.toNat * m.toNat := by
    rw [BitVec.toInt_eq_toNat_of_lt (by omega), hprod, Int.natCast_mul]
  have hxi : x.toInt = x.toNat := BitVec.toInt_eq_toNat_of_lt (by omega)
  have hym' : (y.toNat : Int) * m.toNat ≤ 9223372030412324865 := by exact_mod_cast hym
  have hnn : 0 ≤ (y.toNat : Int) * m.toNat := by positivity
  rw [BitVec.toInt_sub, BitVec.toInt_sub, hpi, hxi, Int.bmod_sub_bmod]
  exact Int.bmod_eq_of_le (by omega) (by omega)

/-- The borrow of a term that is not too low. -/
theorem toInt_borrow {t : BitVec 64} (hlo : -2 ^ 63 ≤ t.toInt) (hhi : t.toInt < 2 ^ 32) :
    (0#64 - t.sshiftRight 32).toInt = -(t.sshiftRight 32).toInt
      ∧ 0 ≤ (0#64 - t.sshiftRight 32).toInt ∧ (0#64 - t.sshiftRight 32).toInt ≤ 2 ^ 31 := by
  have hs : (t.sshiftRight 32).toInt = t.toInt / 2 ^ 32 := by
    rw [BitVec.toInt_sshiftRight, Int.shiftRight_eq_div_pow]
    rfl
  have hneg : (0#64 - t.sshiftRight 32).toInt = -(t.sshiftRight 32).toInt := by
    rw [BitVec.toInt_sub, hs]
    have h0 : (0#64).toInt = 0 := by decide
    rw [h0, Int.bmod_eq_of_le (by omega) (by omega)]
    omega
  rw [hneg, hs]
  omega

/-- The complement of a limb. -/
theorem toNat_complement {x : BitVec 64} (hx : x.toNat < 2 ^ 32) :
    ((x ^^^ -1#64) &&& MASK).toNat = 2 ^ 32 - 1 - x.toNat := by
  have hnot : x ^^^ -1#64 = ~~~x := by
    rw [BitVec.neg_one_eq_allOnes, BitVec.xor_allOnes]
  rw [toNat_mask, hnot, BitVec.toNat_not]
  omega

section

variable {ι σ : Type} (A : ι → Allocator σ) {fuel : Nat} {w : World ι σ} {C : Prop}

/-! ### Room -/

/-- There is memory for a number of `limbs` limbs, also where room is made by doubling. -/
structure Roomy (limbs : Nat) : Prop where
  plentiful : ∀ a, Plentiful (A a)
  small : limbs < 2 ^ 27

variable {A} in
theorem Roomy.mono {m n : Nat} (h : Roomy A n) (hmn : m ≤ n) : Roomy A m :=
  ⟨h.plentiful, hmn.trans_lt h.small⟩

/-- `reserve` has made room: every number reads as before. -/
structure Reserved (p limbs : Nat) (w w' : World ι σ) : Prop where
  only : OnlyAt p w w'
  shape : Shape (w'.ints p)
  room : limbs ≤ (w'.ints p).limbs.length
  same : ∀ q, Same (w.ints q) (w'.ints q)

theorem Reserved.shape_of {p q limbs : Nat} {w' : World ι σ} (h : Reserved p limbs w w')
    (hq : Shape (w.ints q)) : Shape (w'.ints q) := by
  by_cases hqp : q = p
  · subst hqp
    exact h.shape
  · rw [h.only.ints q hqp]
    exact hq

/-- The doubling ends at a length that is enough. -/
theorem room_ends {limbs old : BitVec 32} (hold : 0 < old.toNat) (hlimbs : limbs.toNat ≤ 2 ^ 28)
    (hle : old.toNat < limbs.toNat) (hfuel : 2 ^ 30 ≤ fuel) :
    Ends (fun cap => limbs.toNat ≤ cap.toNat ∧ cap.toNat < 2 * limbs.toNat)
      (iterate (doubleRound limbs) fuel old) := by
  refine iterate_ends (fun cap => 0 < cap.toNat ∧ cap.toNat < 2 * limbs.toNat) _
    (fun cap => limbs.toNat - cap.toNat) ?_ fuel old ⟨hold, by omega⟩ (by omega)
  rintro cap ⟨hpos, hcap⟩
  rw [doubleRound]
  have hslt := slt_iff (x := cap) (y := limbs) (by omega) (by omega)
  have hdouble : (cap * 2#32).toNat = cap.toNat * 2 := by
    rw [BitVec.toNat_mul]
    simp only [BitVec.toNat_ofNat]
    omega
  cases h : cap.slt limbs with
  | true =>
    have hlt := hslt.mp h
    refine ⟨⟨?_, ?_⟩, ?_⟩
    · rw [hdouble]
      omega
    · rw [hdouble]
      omega
    · rw [hdouble]
      omega
  | false =>
    have hge : ¬ cap.toNat < limbs.toNat := fun hlt => by
      rw [hslt.mpr hlt] at h
      cases h
    exact ⟨by omega, by omega⟩

/-- The limbs in use, copied into a larger array of zeros, are the same digits. -/
theorem copy_ends {n : BigInt ι} (hn : Shape n) {cap : Nat} (hcap : n.limbs.length ≤ cap)
    (hfuel : 2 ^ 30 ≤ fuel) :
    Ends (fun grown => grown.length = cap ∧ ∀ i, digit grown i = digit n.limbs i)
      (forLoop fuel 0#32 n.len
        (fun i grown => do
          let x ← arrGet n.limbs i
          arrSet grown i x)
        (List.replicate cap i64.zero)) := by
  have hlen := hn.len
  have hsize := hn.size
  refine (forLoop_range_ends (by omega) (Nat.zero_le _) (by omega)
    (fun k grown => grown.length = cap ∧
      ∀ i, digit grown i = if i < k then digit n.limbs i else 0#64) ?_ ?_).mono ?_
  · refine ⟨List.length_replicate, fun i => ?_⟩
    exact (digit_replicate_zero cap i).trans (if_neg (Nat.not_lt_zero i)).symm
  · rintro k grown - hk ⟨hlength, hgrown⟩
    have hi : (BitVec.ofNat 32 k).toNat = k := Nat.mod_eq_of_lt (by omega)
    rw [arrGet_eq (x := digit n.limbs k) (by rw [hi]; exact getElem?_digit (by omega)), done_bind,
      arrSet_eq (by rw [hi]; omega), hi]
    refine ⟨by rw [List.length_set, hlength], fun i => ?_⟩
    rw [digit_set (by omega), hgrown i]
    by_cases hik : i = k
    · subst hik
      simp
    · rw [if_neg hik]
      exact if_congr (by omega) rfl rfl
  · rintro grown ⟨hlength, hgrown⟩
    refine ⟨hlength, fun i => ?_⟩
    rw [hgrown i]
    split
    · rfl
    · exact (hn.beyond i (by omega)).symm

theorem reserve_endsOr {p : Nat} {limbs : BitVec 32} (hp : Shape (w.ints p))
    (hlimbs : limbs.toNat ≤ 2 ^ 28) (hmem : C ∨ Roomy A limbs.toNat) (hfuel : 2 ^ 30 ≤ fuel) :
    EndsOr C (Reserved p limbs.toNat w) (reserve A fuel w p limbs) := by
  have hsize := hp.size
  have hroom := hp.room
  have harr : (arrLen (w.ints p).limbs).toNat = (w.ints p).limbs.length :=
    toNat_arrLen (by omega)
  have hsle := sle_iff (x := limbs) (y := arrLen (w.ints p).limbs) (by omega) (by omega)
  rw [reserve]
  cases h : limbs.sle (arrLen (w.ints p).limbs) with
  | true =>
    have hle := hsle.mp h
    rw [harr] at hle
    rw [if_pos rfl]
    exact ⟨.refl p w, hp, hle, fun q => .refl _⟩
  | false =>
    have hlt : (w.ints p).limbs.length < limbs.toNat := by
      rw [← harr]
      refine Nat.lt_of_not_le fun hle => ?_
      rw [hsle.mpr hle] at h
      cases h
    rw [if_neg (by decide)]
    refine endsOr_bind (room_ends (by omega) hlimbs (by omega) hfuel).endsOr fun cap hcap => ?_
    have h8 : i64.size.toInt = 8 := by decide
    have hcapi := toInt_eq_toNat (x := cap) (by omega)
    refine endsOr_bind (array_endsOr (hmem.imp_right fun hA => ⟨hA.plentiful _, ?_, ?_, ?_⟩))
      fun r hr => ?_
    · omega
    · omega
    · have := hA.small
      rw [h8]
      omega
    obtain ⟨grown, s⟩ := r
    obtain ⟨hgrown, hcap0, hbytes⟩ := hr
    rw [h8, hcapi] at hbytes
    dsimp only at hgrown ⊢
    rw [hgrown]
    refine endsOr_bind (copy_ends hp (by omega) hfuel).endsOr fun grown' hgrown' => ?_
    obtain ⟨hlength, hsame⟩ := hgrown'
    refine endsOr_bind (Q := fun _ => True) (freeArray_endsOr (hmem.imp_right fun hA => hA.plentiful _))
      fun s' _ => ?_
    have hat : ({ w.put p { w.ints p with limbs := grown' } with alloc := s' } : World ι σ).ints p
        = { w.ints p with limbs := grown' } := put_ints_self w p _
    refine ⟨⟨rfl, fun q hq => put_ints_of_ne w _ hq⟩, ?_, ?_, fun q => ?_⟩
    · rw [hat]
      refine ⟨?_, ?_, ?_, fun i => ?_, fun i hi => ?_⟩
      · dsimp only; omega
      · dsimp only; omega
      · dsimp only; have := hp.len; omega
      · rw [digits_eq (hsame i)]
        exact hp.lt i
      · exact (hsame i).trans (hp.beyond i hi)
    · rw [hat]
      dsimp only
      omega
    · by_cases hq : q = p
      · subst hq
        rw [hat]
        exact ⟨rfl, rfl, hsame⟩
      · rw [show _ = _ from put_ints_of_ne w _ hq]
        exact .refl _

/-! ### Canonical form -/

/-- One leading zero limb less. -/
theorem Shape.shrink {n : BigInt ι} (h : Shape n) (hpos : 0 < n.len.toNat)
    (htop : digit n.limbs (n.len.toNat - 1) = 0#64) :
    Shape { n with len := n.len - 1#32 } ∧ mag { n with len := n.len - 1#32 } = mag n ∧
      (n.len - 1#32).toNat + 1 = n.len.toNat := by
  have hlen := h.len_lt
  have hsub : (n.len - 1#32).toNat + 1 = n.len.toNat := by
    rw [BitVec.toNat_sub]
    simp only [BitVec.toNat_ofNat]
    omega
  have hshape : Shape { n with len := n.len - 1#32 } := by
    refine ⟨h.room, h.size, ?_, h.lt, fun i hi => ?_⟩
    · have := h.len
      dsimp only
      omega
    · dsimp only at hi ⊢
      rcases Nat.lt_or_ge i n.len.toNat with hlt | hge
      · obtain rfl : i = n.len.toNat - 1 := by omega
        exact htop
      · exact h.beyond i hge
  refine ⟨hshape, ?_, hsub⟩
  rw [hshape.mag_eq (k := n.len.toNat) (by dsimp only; omega), mag]

/-- What `trim` leaves: the same number, in canonical form. -/
structure Trimmed (p : Nat) (w w' : World ι σ) : Prop where
  only : OnlyAt p w w'
  canonical : Canonical (w'.ints p)
  val : val (w'.ints p) = val (w.ints p)

theorem trim_ends {p : Nat} (hp : Shape (w.ints p)) (hfuel : 2 ^ 30 ≤ fuel) :
    Ends (Trimmed p w) (trim fuel w p) := by
  have hlen := hp.len_lt
  rw [trim]
  refine ends_bind (Q := fun w' => OnlyAt p w w' ∧ Shape (w'.ints p)
    ∧ (w'.ints p).neg = (w.ints p).neg ∧ mag (w'.ints p) = mag (w.ints p)
    ∧ ∀ k, (w'.ints p).len.toNat = k + 1 → digit (w'.ints p).limbs k ≠ 0#64) ?_ ?_
  · refine iterate_ends (fun w' => OnlyAt p w w' ∧ Shape (w'.ints p)
      ∧ (w'.ints p).neg = (w.ints p).neg ∧ mag (w'.ints p) = mag (w.ints p)) _
      (fun w' => (w'.ints p).len.toNat) ?_ fuel w ⟨.refl p w, hp, rfl, rfl⟩ (by omega)
    rintro w' ⟨honly, hshape, hneg, hmag⟩
    have hlen' := hshape.len_lt
    have hslt := slt_iff (x := 0#32) (y := (w'.ints p).len) (by decide) (by omega)
    have h0 : (0#32).toNat = 0 := rfl
    rw [h0] at hslt
    rw [trimRound]
    by_cases hpos : 0 < (w'.ints p).len.toNat
    · have hsub : ((w'.ints p).len - 1#32).toNat = (w'.ints p).len.toNat - 1 := by
        rw [BitVec.toNat_sub]
        simp only [BitVec.toNat_ofNat]
        omega
      rw [if_pos (hslt.mpr hpos), limb, arrGet_eq (x := digit (w'.ints p).limbs
        ((w'.ints p).len.toNat - 1)) (by rw [hsub]; exact getElem?_digit (by have := hshape.len; omega)),
        done_bind]
      by_cases htop : digit (w'.ints p).limbs ((w'.ints p).len.toNat - 1) = 0#64
      · obtain ⟨hshape', hmag', hdec⟩ := hshape.shrink hpos htop
        rw [if_pos htop]
        refine ⟨⟨honly.trans (.put p w' _), ?_, ?_, ?_⟩, ?_⟩
        · rw [World.setLen, put_ints_self]
          exact hshape'
        · rw [World.setLen, put_ints_self]
          exact hneg
        · rw [World.setLen, put_ints_self, hmag', hmag]
        · rw [World.setLen, put_ints_self]
          dsimp only
          omega
      · rw [if_neg htop]
        refine ⟨honly, hshape, hneg, hmag, fun k hk => ?_⟩
        obtain rfl : k = (w'.ints p).len.toNat - 1 := by omega
        exact htop
    · rw [if_neg (fun h => hpos (hslt.mp h))]
      exact ⟨honly, hshape, hneg, hmag, fun k hk => by omega⟩
  · rintro w' ⟨honly, hshape, hneg, hmag, htop⟩
    rw [pure_eq, ends_done]
    by_cases hzero : (w'.ints p).len = 0#32
    · rw [if_pos hzero]
      have hval : val (w.ints p) = 0 := by
        rw [val, ← hmag, mag_zero hzero]
        simp
      refine ⟨honly.trans (.put p w' _), ?_, ?_⟩
      · rw [World.setNeg, put_ints_self]
        exact ⟨⟨hshape.room, hshape.size, hshape.len, hshape.lt, hshape.beyond⟩, htop,
          fun _ => rfl⟩
      · rw [World.setNeg, put_ints_self, hval]
        exact val_zero hzero
    · rw [if_neg hzero]
      refine ⟨honly, ⟨hshape, htop, fun h => absurd h hzero⟩, ?_⟩
      rw [val, val, hneg, hmag]

/-! ### Adding and subtracting magnitudes -/

theorem toNat_longer (a b : Nat) (ha : Shape (w.ints a)) (hb : Shape (w.ints b)) :
    (longer w a b).toNat = max (w.ints a).len.toNat (w.ints b).len.toNat := by
  have hla := ha.len_lt
  have hlb := hb.len_lt
  have hslt := slt_iff (x := (w.ints b).len) (y := (w.ints a).len) (by omega) (by omega)
  rw [longer]
  split
  · have := hslt.mp (by assumption)
    omega
  · have : ¬ (w.ints b).len.toNat < (w.ints a).len.toNat := fun h => by
      have := hslt.mpr h
      contradiction
    omega

/-- Number `p` has come to have magnitude `m`; its sign is untouched. -/
structure Into (p : Nat) (m : Int) (w w' : World ι σ) : Prop where
  only : OnlyAt p w w'
  shape : Shape (w'.ints p)
  neg : (w'.ints p).neg = (w.ints p).neg
  mag : mag (w'.ints p) = m

/-- The number that limbs written over the first `n` make, with `n` the new length. -/
theorem Partly.into {p n : Nat} {xs : List (BitVec 64)} (len : BitVec 32) (hp : Shape (w.ints p))
    (h : Partly w p n xs) (hn : len.toNat = n) (hlen : (w.ints p).len.toNat ≤ n)
    (hroom : n ≤ (w.ints p).limbs.length) :
    Into p (value RADIX (digits xs) n) w ((w.withLimbs p xs).setLen p len) := by
  have hat : ((w.withLimbs p xs).setLen p len).ints p
      = { w.ints p with limbs := xs, len := len } := by
    rw [World.setLen, put_ints_self, World.withLimbs, put_ints_self]
  refine ⟨(OnlyAt.put p w _).trans (.put p _ _), ?_, ?_, ?_⟩
  · rw [hat]
    refine ⟨?_, ?_, ?_, h.lt, fun i hi => ?_⟩
    · rw [h.length]
      exact hp.room
    · rw [h.length]
      exact hp.size
    · dsimp only
      rw [h.length]
      omega
    · dsimp only at hi ⊢
      rw [h.rest i (by omega)]
      exact hp.beyond i (by omega)
  · rw [hat]
  · rw [hat, mag]
    dsimp only
    rw [hn]

/-- The last carry, written above the limbs. -/
theorem Partly.append {p : Nat} {xs : List (BitVec 64)} {n : BitVec 32} {carry : BitVec 64}
    (hp : Shape (w.ints p)) (h : Partly w p n.toNat xs) (hlen : (w.ints p).len.toNat ≤ n.toNat)
    (hroom : n.toNat + 1 ≤ (w.ints p).limbs.length) (hcarry : carry.toNat < 2 ^ 32) :
    ∃ w', setLimb (w.withLimbs p xs) p n carry = done w' ∧ (w'.ints p).len = (w.ints p).len
      ∧ Into p (value RADIX (digits xs) n.toNat + carry.toNat * RADIX ^ n.toNat) w
        (w'.setLen p (n + 1#32)) := by
  have hn : BitVec.ofNat 32 n.toNat = n := by simp
  have hnl : n.toNat < xs.length := by
    rw [h.length]
    omega
  have hset := setLimb_withLimbs w (p := p) hnl (by omega) carry
  rw [hn] at hset
  have hsize := hp.size
  have hinto := (h.step hnl hcarry).into (n + 1#32) hp (toNat_succ (by omega)) (by omega)
    hroom
  refine ⟨_, hset, by rw [World.withLimbs, put_ints_self], ?_⟩
  rw [value_succ, value_congr (g := digits xs) fun i hi => digits_eq
    (by rw [digit_set hnl, if_neg (by omega)]), digits, digit_set hnl, if_pos rfl] at hinto
  exact hinto

/-- The terms of `|a| + |b| * m` add up to it. -/
theorem value_terms {na nb : BigInt ι} (ha : Shape na) (hb : Shape nb) {n : Nat}
    (hla : na.len.toNat ≤ n) (hlb : nb.len.toNat ≤ n) (m : Int) :
    value RADIX (fun i => digits na.limbs i + digits nb.limbs i * m) n = mag na + mag nb * m := by
  rw [value_add (g := fun i => digits nb.limbs i * m), value_mul, ha.mag_eq hla, hb.mag_eq hlb]

theorem magnitudeAddMul_endsOr {a b : Nat} {m : BitVec 64} (ha : Shape (w.ints a))
    (hb : Shape (w.ints b)) (hm : m.toNat < 2 ^ 31)
    (hmem : C ∨ Roomy A (max (w.ints a).len.toNat (w.ints b).len.toNat + 1))
    (hfuel : 2 ^ 30 ≤ fuel) :
    EndsOr C (Into a (mag (w.ints a) + mag (w.ints b) * m.toNat) w) (magnitudeAddMul A fuel w a b m) := by
  have hlong := toNat_longer a b ha hb
  have hla := ha.len_lt
  have hlb := hb.len_lt
  have hsucc : (longer w a b + 1#32).toNat = (longer w a b).toNat + 1 := toNat_succ (by omega)
  rw [magnitudeAddMul]
  generalize longer w a b = n at hlong hsucc
  refine endsOr_bind (reserve_endsOr A ha (by omega) (by rw [hsucc, hlong]; exact hmem) hfuel) fun w₁ hw₁ => ?_
  have hroom := hw₁.room
  have hsize := hw₁.shape.size
  have hb₁ := hw₁.shape_of hb
  have hlb₁ := hb₁.len
  rw [hsucc] at hroom
  rw [(hw₁.same b).len] at hlb₁ ⊢
  -- each term is a limb of `a` and the product of one of `b`
  let c : Nat → Int := fun i => digits (w₁.ints a).limbs i + digits (w₁.ints b).limbs i * m.toNat
  refine endsOr_bind (Q := fun r => Pass w₁ a (fun c => c.toNat) c 0 (w.ints b).len.toNat r
    ∧ r.2.toNat ≤ 2 ^ 31) ?_ ?_
  · refine Ends.endsOr (pass_ends (fun c => c.toNat ≤ 2 ^ 31) (by omega) hsize hfuel (Nat.zero_le _) ?_
      ⟨(w₁.ints a).limbs, (withLimbs_self w₁ a).symm, .start hw₁.shape 0, .start 0⟩ (Nat.zero_le _))
    intro k xs carry _ hk hxs hcarry
    have hx := hw₁.shape.toNat_lt k
    have hy := hb₁.toNat_lt k
    have hterm := toNat_term hx hy hm hcarry
    have hsplit := term_carry (digit (w₁.ints b).limbs k * m + digit (w₁.ints a).limbs k + carry)
    refine ⟨digit (w₁.ints b).limbs k * m + digit (w₁.ints a).limbs k + carry,
      (digit (w₁.ints b).limbs k * m + digit (w₁.ints a).limbs k + carry) >>> 32, ?_, ?_, ?_⟩
    · dsimp only
      rw [hxs.limb (by omega) (by omega), done_bind, hxs.limb (by omega) (by omega), done_bind]
    · rw [BitVec.toNat_ushiftRight, Nat.shiftRight_eq_div_pow]
      have hym : (digit (w₁.ints b).limbs k).toNat * m.toNat ≤ 9223372030412324865 :=
        Nat.mul_le_mul (Nat.le_pred_of_lt hy) (Nat.le_pred_of_lt hm)
      omega
    · rw [hsplit, hterm]
      push_cast
      simp only [c, digits]
      ring
  · rintro ⟨w₂, carry⟩ ⟨hpass, hcarry⟩
    refine endsOr_bind (Q := fun r => Pass w₁ a (fun c => c.toNat) c 0 n.toNat r
      ∧ r.2.toNat ≤ 2 ^ 31) ?_ ?_
    · refine Ends.endsOr (pass_ends (fun c => c.toNat ≤ 2 ^ 31) (by omega) hsize hfuel (by omega) ?_ hpass hcarry)
      intro k xs carry hk hk' hxs hcarry
      have hx := hw₁.shape.toNat_lt k
      have hsplit := term_carry (digit (w₁.ints a).limbs k + carry)
      have hterm : (digit (w₁.ints a).limbs k + carry).toNat
          = (digit (w₁.ints a).limbs k).toNat + carry.toNat := by
        rw [BitVec.toNat_add]
        omega
      refine ⟨digit (w₁.ints a).limbs k + carry, (digit (w₁.ints a).limbs k + carry) >>> 32,
        ?_, ?_, ?_⟩
      · dsimp only
        rw [hxs.limb (by omega) (by omega), done_bind]
      · rw [BitVec.toNat_ushiftRight, Nat.shiftRight_eq_div_pow]
        omega
      · have hzero : digit (w₁.ints b).limbs k = 0#64 := by
          refine hb₁.beyond k ?_
          rw [(hw₁.same b).len]
          exact hk
        rw [hsplit, hterm]
        push_cast
        simp [c, digits, hzero]
    · rintro ⟨w₃, carry⟩ ⟨⟨xs, hw₃, hxs, hcarried⟩, hcarry⟩
      dsimp only at hw₃ hcarried hcarry ⊢
      have hla₁ := (hw₁.same a).len
      obtain ⟨w₄, hset, -, hinto⟩ := hxs.append hw₁.shape (by rw [hla₁]; omega) hroom
        (show carry.toNat < 2 ^ 32 by omega)
      rw [hw₃, hset, done_bind, pure_eq, endsOr_done]
      refine ⟨hw₁.only.trans hinto.only, hinto.shape, hinto.neg.trans (hw₁.same a).neg, ?_⟩
      rw [hinto.mag]
      refine Eq.trans hcarried ?_
      rw [Int.add_zero, value_terms hw₁.shape hb₁ (by rw [hla₁]; omega)
        (by rw [(hw₁.same b).len]; omega), (hw₁.same a).mag_eq, (hw₁.same b).mag_eq]

/-- A difference of magnitudes fits in one limb more than the longer has. -/
theorem difference_lt {na nb : BigInt ι} (ha : Shape na) (hb : Shape nb) {n : Nat}
    (hla : na.len.toNat ≤ n) (hlb : nb.len.toNat ≤ n) {m : Nat} (hm : m < 2 ^ 31) :
    mag na < RADIX ^ (n + 1) ∧ mag nb * m < RADIX ^ (n + 1) := by
  have hna : mag na < RADIX ^ n := by
    rw [ha.mag_eq hla]
    exact value_lt radix_pos (ha.digit_lt n)
  have hnb : mag nb < RADIX ^ n := by
    rw [hb.mag_eq hlb]
    exact value_lt radix_pos (hb.digit_lt n)
  have hpos : 0 < RADIX ^ n := pow_pos radix_pos n
  have hB : (m : Int) ≤ RADIX := by
    rw [RADIX]
    omega
  rw [pow_succ]
  constructor
  · exact hna.trans_le (le_mul_of_one_le_right hpos.le (by decide))
  · calc mag nb * m ≤ mag nb * RADIX := mul_le_mul_of_nonneg_left hB hb.mag_nonneg
      _ < RADIX ^ n * RADIX := mul_lt_mul_of_pos_right hnb radix_pos

/-- What the subtraction of `b * m` from `a` has done before limb `k`. -/
def Borrowed (w : World ι σ) (a b : Nat) (m : BitVec 64) (k : Nat) (r : World ι σ × BitVec 64) :
    Prop :=
  Pass w a (fun c => -c.toInt)
    (fun i => digits (w.ints a).limbs i + digits (w.ints b).limbs i * -m.toNat) 0 k r
    ∧ 0 ≤ r.2.toInt ∧ r.2.toInt ≤ 2 ^ 31

/-- The loop over the limbs of `b`. -/
theorem subtract_ends {a b : Nat} {m : BitVec 64} {lb : BitVec 32} (ha : Shape (w.ints a))
    (hb : Shape (w.ints b)) (hm : m.toNat < 2 ^ 31) (hfuel : 2 ^ 30 ≤ fuel)
    (hlb : lb.toNat ≤ (w.ints b).limbs.length) (hla : lb.toNat ≤ (w.ints a).limbs.length) :
    Ends (Borrowed w a b m lb.toNat)
      (forLoop fuel 0#32 lb
        (fun i (w, borrow) => do
          let x ← limb w a i
          let y ← limb w b i
          let t := x - y * m - borrow
          let w ← setLimb w a i (t &&& MASK)
          pure (w, 0#64 - t.sshiftRight 32))
        (w, 0#64)) := by
  have hsize := ha.size
  refine pass_ends (fun c => 0 ≤ c.toInt ∧ c.toInt ≤ 2 ^ 31) hla hsize hfuel
    (Nat.zero_le _) ?_ ⟨(w.ints a).limbs, (withLimbs_self w a).symm, .start ha 0, .start 0⟩
    (by decide : 0 ≤ (0#64).toInt ∧ (0#64).toInt ≤ 2 ^ 31)
  intro k xs borrow _ hk hxs hborrow
  have hx := ha.toNat_lt k
  have hy := hb.toNat_lt k
  have hterm := toInt_term hx hy hm hborrow
  have hym : (digit (w.ints b).limbs k).toNat * m.toNat ≤ 9223372030412324865 :=
    Nat.mul_le_mul (Nat.le_pred_of_lt hy) (Nat.le_pred_of_lt hm)
  have hym' : ((digit (w.ints b).limbs k).toNat : Int) * m.toNat ≤ 9223372030412324865 := by
    exact_mod_cast hym
  have hnn : 0 ≤ ((digit (w.ints b).limbs k).toNat : Int) * m.toNat := by positivity
  have hsplit := term_borrow (digit (w.ints a).limbs k - digit (w.ints b).limbs k * m - borrow)
  obtain ⟨hneg, hsmall⟩ := toInt_borrow
    (t := digit (w.ints a).limbs k - digit (w.ints b).limbs k * m - borrow)
    (by rw [hterm]; omega) (by rw [hterm]; omega)
  refine ⟨digit (w.ints a).limbs k - digit (w.ints b).limbs k * m - borrow,
    0#64 - (digit (w.ints a).limbs k - digit (w.ints b).limbs k * m - borrow).sshiftRight 32,
    ?_, hsmall, ?_⟩
  · dsimp only
    rw [hxs.limb (by omega) (by omega), done_bind, hxs.limb (by omega) (by omega), done_bind]
  · rw [hneg, Int.neg_neg, hsplit, hterm]
    simp only [digits]
    ring

/-- The loop over the limbs past those of `b`. -/
theorem borrow_ends {a b : Nat} {m : BitVec 64} {n lb : BitVec 32} (ha : Shape (w.ints a))
    (hb : Shape (w.ints b)) (hm : m.toNat < 2 ^ 31) (hfuel : 2 ^ 30 ≤ fuel)
    (hlb : (w.ints b).len = lb) (hle : lb.toNat ≤ n.toNat) (hn : n.toNat ≤ (w.ints a).limbs.length)
    {r : World ι σ × BitVec 64} (hr : Borrowed w a b m lb.toNat r) :
    Ends (Borrowed w a b m n.toNat)
      (forLoop fuel lb n
        (fun i (w, borrow) => do
          let x ← limb w a i
          let t := x - borrow
          let w ← setLimb w a i (t &&& MASK)
          pure (w, 0#64 - t.sshiftRight 32))
        r) := by
  have hsize := ha.size
  refine pass_ends (fun c => 0 ≤ c.toInt ∧ c.toInt ≤ 2 ^ 31) hn hsize hfuel hle ?_ hr.1 hr.2
  intro k xs borrow hk hk' hxs hborrow
  have hx := ha.toNat_lt k
  have hzero : digit (w.ints b).limbs k = 0#64 := hb.beyond k (by rw [hlb]; exact hk)
  have hterm := toInt_term hx (y := 0#64) (by decide) hm hborrow
  have h0 : (0#64).toNat = 0 := rfl
  rw [BitVec.zero_mul, BitVec.sub_zero, h0] at hterm
  have hsplit := term_borrow (digit (w.ints a).limbs k - borrow)
  obtain ⟨hneg, hsmall⟩ := toInt_borrow (t := digit (w.ints a).limbs k - borrow)
    (by rw [hterm]; omega) (by rw [hterm]; omega)
  refine ⟨digit (w.ints a).limbs k - borrow,
    0#64 - (digit (w.ints a).limbs k - borrow).sshiftRight 32, ?_, hsmall, ?_⟩
  · dsimp only
    rw [hxs.limb (by omega) (by omega), done_bind]
  · rw [hneg, Int.neg_neg, hsplit, hterm, digits, digits, hzero, h0]
    simp only [Nat.cast_zero, Int.zero_mul, Int.sub_zero, Int.add_zero]
    rfl

/-- The complement and the carry of 1 negate the limbs, in `n` limbs. -/
theorem negate_ends {a : Nat} {n : BitVec 32} (ha : Shape (w.ints a)) (hfuel : 2 ^ 30 ≤ fuel)
    (hn : n.toNat ≤ (w.ints a).limbs.length) :
    Ends (fun r => Pass w a (fun c => c.toNat)
        (fun i => RADIX - 1 + digits (w.ints a).limbs i * -1) 1 n.toNat r ∧ r.2.toNat ≤ 1)
      (forLoop fuel 0#32 n
        (fun i (w, carry) => do
          let x ← limb w a i
          let t := ((x ^^^ -1#64) &&& MASK) + carry
          let w ← setLimb w a i (t &&& MASK)
          pure (w, t >>> 32))
        (w, 1#64)) := by
  refine pass_ends (fun c => c.toNat ≤ 1) hn ha.size hfuel (Nat.zero_le _) ?_
    ⟨(w.ints a).limbs, (withLimbs_self w a).symm, .start ha 0, .start 1⟩ (by rfl)
  intro k xs carry _ hk hxs hcarry
  have hsize := ha.size
  have hx := ha.toNat_lt k
  have hc := toNat_complement hx
  have hterm : (((digit (w.ints a).limbs k ^^^ -1#64) &&& MASK) + carry).toNat
      = 2 ^ 32 - 1 - (digit (w.ints a).limbs k).toNat + carry.toNat := by
    rw [BitVec.toNat_add, hc]
    omega
  have hsplit := term_carry (((digit (w.ints a).limbs k ^^^ -1#64) &&& MASK) + carry)
  refine ⟨((digit (w.ints a).limbs k ^^^ -1#64) &&& MASK) + carry,
    (((digit (w.ints a).limbs k ^^^ -1#64) &&& MASK) + carry) >>> 32, ?_, ?_, ?_⟩
  · dsimp only
    rw [hxs.limb (by omega) (by omega), done_bind]
  · rw [BitVec.toNat_ushiftRight, Nat.shiftRight_eq_div_pow, hterm]
    omega
  · rw [hsplit, hterm, digits, RADIX]
    omega

theorem magnitudeSubMul_endsOr {a b : Nat} {m : BitVec 64} (ha : Shape (w.ints a))
    (hb : Shape (w.ints b)) (hm : m.toNat < 2 ^ 31)
    (hmem : C ∨ Roomy A (max (w.ints a).len.toNat (w.ints b).len.toNat + 1))
    (hfuel : 2 ^ 30 ≤ fuel) :
    EndsOr C (fun r => r.1 = decide (mag (w.ints a) < mag (w.ints b) * m.toNat)
        ∧ Into a |mag (w.ints a) - mag (w.ints b) * m.toNat| w r.2)
      (magnitudeSubMul A fuel w a b m) := by
  have hlong := toNat_longer a b ha hb
  have hla := ha.len_lt
  have hlb := hb.len_lt
  have hsucc : (longer w a b + 1#32).toNat = (longer w a b).toNat + 1 := toNat_succ (by omega)
  obtain ⟨hltA, hltB⟩ := difference_lt ha hb (n := (longer w a b).toNat) (by omega) (by omega) hm
  rw [← hsucc] at hltA hltB
  rw [magnitudeSubMul]
  generalize longer w a b + 1#32 = n at hsucc hltA hltB
  refine endsOr_bind (reserve_endsOr A ha (by omega) (by rw [hsucc, hlong]; exact hmem) hfuel) fun w₁ hw₁ => ?_
  have hroom := hw₁.room
  have hb₁ := hw₁.shape_of hb
  have hla₁ := (hw₁.same a).len
  have hlb₁ := (hw₁.same b).len
  have hlen₁ := hb₁.len
  rw [hlb₁] at hlen₁ ⊢
  refine endsOr_bind (subtract_ends hw₁.shape hb₁ hm hfuel hlen₁ (by omega)).endsOr ?_
  rintro ⟨w₂, borrow⟩ hborrow
  refine endsOr_bind (borrow_ends hw₁.shape hb₁ hm hfuel hlb₁ (by omega) hroom hborrow).endsOr ?_
  rintro ⟨w₃, borrow⟩ ⟨⟨xs, hw₃, hxs, hcarried⟩, hborrow⟩
  dsimp only at hw₃ hcarried hborrow ⊢
  have hinto := hxs.into n hw₁.shape rfl (by rw [hla₁]; omega) hroom
  have hvalue : value RADIX (digits xs) n.toNat
      = mag (w.ints a) - mag (w.ints b) * m.toNat + borrow.toInt * RADIX ^ n.toNat := by
    rw [Carried, value_terms hw₁.shape hb₁ (by rw [hla₁]; omega) (by rw [hlb₁]; omega),
      (hw₁.same a).mag_eq, (hw₁.same b).mag_eq] at hcarried
    linarith
  have hnn : 0 ≤ value RADIX (digits xs) n.toNat := by
    rw [← hinto.mag]
    exact hinto.shape.mag_nonneg
  have hpos : 0 < RADIX ^ n.toNat := pow_pos radix_pos _
  have hA := ha.mag_nonneg
  have hB : 0 ≤ mag (w.ints b) * m.toNat := mul_nonneg hb.mag_nonneg (Int.natCast_nonneg _)
  rw [hw₃]
  by_cases h0 : borrow = 0#64
  · -- the limbs are the difference
    have hb0 : borrow.toInt = 0 := by rw [h0]; rfl
    rw [hb0, Int.zero_mul, Int.add_zero] at hvalue
    rw [if_pos h0]
    refine ⟨(decide_eq_false (by omega)).symm, hw₁.only.trans hinto.only, hinto.shape,
      hinto.neg.trans (hw₁.same a).neg, ?_⟩
    rw [hinto.mag, hvalue, abs_of_nonneg (by omega)]
  · -- the limbs are `RADIX ^ n` and the difference, which is negative
    have hne : borrow.toInt ≠ 0 := fun h => h0 (BitVec.eq_of_toInt_eq h)
    have hlt : value RADIX (digits xs) n.toNat < RADIX ^ n.toNat :=
      value_lt radix_pos fun i _ => ⟨digits_nonneg _ _, hxs.lt i⟩
    have hone : borrow.toInt = 1 := by
      refine le_antisymm (Int.not_lt.mp fun h2 => ?_) (by omega)
      have : 2 * RADIX ^ n.toNat ≤ borrow.toInt * RADIX ^ n.toNat :=
        mul_le_mul_of_nonneg_right (by omega) hpos.le
      omega
    rw [hone, Int.one_mul] at hvalue
    rw [if_neg h0]
    have hlen : (((w₁.withLimbs a xs).setLen a n).ints a).len = n := by
      rw [World.setLen, put_ints_self]
    generalize (w₁.withLimbs a xs).setLen a n = w₄ at hinto hlen ⊢
    have hroom₄ := hinto.shape.len
    rw [hlen] at hroom₄
    refine endsOr_bind (negate_ends hinto.shape hfuel hroom₄).endsOr ?_
    rintro ⟨w₅, carry⟩ ⟨⟨ys, hw₅, hys, hcarried'⟩, hcarry⟩
    have hinto' := hys.into n hinto.shape rfl (by rw [hlen]) hroom₄
    have hlen₅ : (w₄.withLimbs a ys).setLen a n = w₄.withLimbs a ys := by
      rw [← hlen]
      exact withLimbs_setLen_self w₄ a ys
    rw [hlen₅, ← hw₅] at hinto'
    have hvalue' : value RADIX (digits ys) n.toNat + carry.toNat * RADIX ^ n.toNat
        = mag (w.ints b) * m.toNat - mag (w.ints a) := by
      rw [Carried, value_add (f := fun _ => RADIX - 1) (g := fun i => digits (w₄.ints a).limbs i * -1),
        value_mul, value_top, ← hinto.shape.mag_eq (by rw [hlen]), hinto.mag, hvalue] at hcarried'
      linarith
    have hnn' : 0 ≤ value RADIX (digits ys) n.toNat := by
      rw [← hinto'.mag]
      exact hinto'.shape.mag_nonneg
    have hc0 : carry.toNat = 0 := by
      by_contra hc
      have hc1 : carry.toNat = 1 := by
        dsimp only at hcarry
        omega
      rw [hc1] at hvalue'
      omega
    rw [hc0, Nat.cast_zero, Int.zero_mul, Int.add_zero] at hvalue'
    refine ⟨(decide_eq_true (by omega)).symm,
      (hw₁.only.trans hinto.only).trans hinto'.only, hinto'.shape,
      (hinto'.neg.trans hinto.neg).trans (hw₁.same a).neg, ?_⟩
    rw [hinto'.mag, hvalue', abs_of_neg (by omega)]
    omega

end

end Aipl.StdBigint
