import Aipl.Std.Buf.Writes
import Aipl.Lib.Numeral

/-! # Pushing numbers

* `numeral`, `decimal` — the text of a number.
* `pushUnsigned_sat` — digits written lowest first and turned around.
* `pushInt_sat`, `pushI64_sat` — digits counted, then written in place.
-/

namespace Aipl.StdBuf

open Aipl.Lib Aipl.Lib.Outcome Aipl.Lib.Numeral Aipl.Std

/-- The character of the digit `r`. -/
def digitText (upper : Bool) (r : Nat) : BitVec 8 :=
  BitVec.ofNat 8 (if r < 10 then 48 + r else if upper then 55 + r else 87 + r)

/-- The text of a natural number. -/
def numeral (base : Nat) (upper : Bool) (u : Nat) : List (BitVec 8) :=
  ((if u = 0 then [0] else Nat.digits base u).map (digitText upper)).reverse

/-- The decimal text of an integer. -/
def decimal (i : Int) : List (BitVec 8) :=
  if i < 0 then 45#8 :: numeral 10 false i.natAbs else numeral 10 false i.natAbs

theorem numeral_eq {base : Nat} (hb : 1 < base) (upper : Bool) (u : Nat) :
    numeral base upper u = ((remainders base u).map (digitText upper)).reverse := by
  rw [numeral]
  by_cases hu : u = 0
  · subst hu
    simp [remainders]
  · rw [if_neg hu, remainders_of_pos hb (Nat.pos_of_ne_zero hu)]

theorem toNat_digitText {d : Nat} (hd : d < 10) : (digitText false d).toNat = 48 + d := by
  rw [digitText, if_pos hd, BitVec.toNat_ofNat, Nat.mod_eq_of_lt (by omega)]

variable {σ : Type} {R : Runtime} {A : BlockAllocator σ} {fuel : Nat} {b b' : Buf} {w w' : World σ}
  {lent lent' : Nat → Prop} {l : List (BitVec 8)}

/-- The character a digit is written as. -/
theorem setWidth_digitChar (upper : Bool) {r : BitVec 32} (hr : r.toNat < 16) :
    (digitChar upper r).setWidth 8 = digitText upper r.toNat := by
  have hslt : r.slt 10#32 = decide (r.toNat < 10) := by
    rw [BitVec.slt_eq_decide, toInt_eq_toNat (by omega)]
    have h10 : (10#32).toInt = 10 := by decide
    rw [h10]
    exact decide_eq_decide.mpr (by omega)
  apply BitVec.eq_of_toNat_eq
  rw [digitChar, digitText, hslt, BitVec.toNat_setWidth, BitVec.toNat_ofNat]
  by_cases h10 : r.toNat < 10
  · rw [if_pos (by simpa using h10), if_pos h10, BitVec.toNat_add]
    simp only [BitVec.toNat_ofNat]
    omega
  · rw [if_neg (by simpa using h10), if_neg h10]
    cases upper with
    | true =>
      rw [if_pos rfl, if_pos rfl, BitVec.toNat_add]
      simp only [BitVec.toNat_ofNat]
      omega
    | false =>
      rw [if_neg (by simp), if_neg (by simp), BitVec.toNat_add]
      simp only [BitVec.toNat_ofNat]
      omega

/-! ### Any base -/

/-- What the loop over the digits of `u` has written at `e`. -/
structure Written (m₀ : Mem) (e base : Nat) (upper : Bool) (u : Nat) (m : Mem) (n : Nat)
    (rest : List Nat) : Prop where
  made : ∃ made, remainders base u = made ++ rest ∧ made.length = n
    ∧ m.bytes e n = made.map (digitText upper)
  same : Mem.SameOutside e (e + n) m₀ m

theorem Written.start (m₀ : Mem) (e base : Nat) (upper : Bool) (u : Nat) :
    Written m₀ e base upper u m₀ 0 (remainders base u) :=
  ⟨⟨[], rfl, rfl, rfl⟩, .refl _ _ _⟩

theorem Written.step {m₀ m : Mem} {e base u n r : Nat} {upper : Bool} {rest : List Nat} {v : BitVec 32}
    (h : Written m₀ e base upper u m n (r :: rest)) (hv : v.setWidth 8 = digitText upper r) :
    Written m₀ e base upper u (m.setByte (e + n) v) (n + 1) rest := by
  obtain ⟨made, hall, hlen, hbytes⟩ := h.made
  refine ⟨⟨made ++ [r], by rw [hall, List.append_assoc]; rfl, by simp [hlen], ?_⟩,
    (h.same.mono le_rfl (by omega)).setByte (by omega) (by omega)⟩
  have hlow : (m.setByte (e + n) v).bytes e n = m.bytes e n :=
    Mem.bytes_congr fun i hi => by rw [Mem.byte_setByte, if_neg (by omega)]
  rw [Mem.bytes_add, hlow, hbytes, List.map_append]
  simp [Mem.bytes, Mem.byte_setByte, hv]

theorem Written.length_le {m₀ m : Mem} {e base u n k : Nat} {upper : Bool} {rest : List Nat}
    (h : Written m₀ e base upper u m n rest) (hb : 1 < base) (hu : u < base ^ (k + 1)) :
    n + rest.length ≤ k + 1 := by
  obtain ⟨made, hall, hlen, -⟩ := h.made
  have := length_remainders_le hb hu
  rw [hall, List.length_append] at this
  omega

theorem digitLoop_sat {m₀ : Mem} {at_ : BitVec 32} {base : BitVec 64} (upper : Bool) {u : BitVec 64}
    (hb : 1 < base.toNat) (hb16 : base.toNat ≤ 16) (hend : at_.toNat + 64 < 2 ^ 32)
    (hfuel : 2 ^ 31 ≤ fuel) :
    Sat (fun r => Written m₀ at_.toNat base.toNat upper u.toNat r.1 r.2.toNat [] ∧ r.2.toNat ≤ 64)
      (iterate (digitRound R at_ base upper) fuel (m₀, 0#32, u, true)) := by
  have hu : u.toNat < base.toNat ^ (63 + 1) :=
    u.isLt.trans_le (Nat.pow_le_pow_left (by omega) 64)
  refine iterate_sat (fun s => Written m₀ at_.toNat base.toNat upper u.toNat s.1 s.2.1.toNat
      (left base.toNat s.2.2.2 s.2.2.1.toNat)) _
    (fun s => (left base.toNat s.2.2.2 s.2.2.1.toNat).length) ?_ fuel _ (.start _ _ _ _ _) ?_
  · rintro ⟨m, n, v, first⟩ h
    have hle := h.length_le hb hu
    dsimp only at h hle ⊢
    rw [digitRound]
    by_cases hgo : first = true ∨ v ≠ 0#64
    · have hgo' : first = true ∨ v.toNat ≠ 0 :=
        hgo.imp_right fun hne h0 => hne (BitVec.eq_of_toNat_eq h0)
      have hcons := left_eq_cons hb hgo'
      rw [hcons] at h hle ⊢
      rw [List.length_cons] at hle
      rw [if_pos hgo]
      refine sat_bind (store8_sat R _ _ _) ?_
      rintro m' rfl
      have haddr : (at_ + n).toNat = at_.toNat + n.toNat := toNat_add_of_lt (by omega)
      have hr : ((v % base).setWidth 32).toNat = v.toNat % base.toNat := by
        have := Nat.mod_lt v.toNat (show 0 < base.toNat by omega)
        rw [BitVec.toNat_setWidth, BitVec.toNat_umod]
        omega
      have hn : (n + 1#32).toNat = n.toNat + 1 := toNat_add_of_lt (by
        simp only [BitVec.toNat_ofNat]
        omega)
      have hdiv : (v / base).toNat = v.toNat / base.toNat := BitVec.toNat_udiv
      have hlt := Nat.mod_lt v.toNat (show 0 < base.toNat by omega)
      have hstep := h.step (v := digitChar upper ((v % base).setWidth 32))
        (by rw [setWidth_digitChar upper (by omega), hr])
      rw [haddr, pure_eq, sat_done, Sum.elim_inl]
      dsimp only
      rw [hn, hdiv]
      exact ⟨hstep, Nat.lt_succ_self _⟩
    · obtain ⟨hf, hv⟩ := not_or.mp hgo
      have hnil : left base.toNat first v.toNat = [] :=
        left_eq_nil (by simpa using hf) (by rw [not_not.mp hv]; rfl)
      rw [hnil] at h hle
      rw [if_neg hgo]
      exact ⟨h, by simpa using hle⟩
  · have := length_remainders_le hb hu
    dsimp only
    rw [left_first]
    omega

/-- The bytes from both ends inward, swapped. -/
theorem turnAround_sat {m : Mem} {at_ n : BitVec 32} (hn : n.toNat < 2 ^ 31)
    (hend : at_.toNat + n.toNat < 2 ^ 32) (hfuel : 2 ^ 31 ≤ fuel) :
    Sat (fun m' => Mem.SameOutside at_.toNat (at_.toNat + n.toNat) m m'
        ∧ m'.bytes at_.toNat n.toNat = (m.bytes at_.toNat n.toNat).reverse)
      (turnAround R fuel m at_ n) := by
  have hhalf : (n.sdiv 2#32).toNat = n.toNat / 2 := toNat_sdiv hn (by decide)
  rw [turnAround]
  refine (forLoop_range_sat (by omega) (Nat.zero_le _) (by omega)
    (fun k m' => Mem.SameOutside at_.toNat (at_.toNat + n.toNat) m m' ∧ ∀ i < n.toNat,
      m'.byte (at_.toNat + i) = if i < k ∨ n.toNat - 1 - i < k
        then m.byte (at_.toNat + (n.toNat - 1 - i)) else m.byte (at_.toNat + i)) ?_ ?_).mono ?_
  · refine ⟨.refl _ _ _, fun i hi => ?_⟩
    have h0 : (0#32).toNat = 0 := rfl
    rw [h0, if_neg (by omega)]
  · rintro k m' - hk ⟨hsame, hdone⟩
    rw [hhalf] at hk
    have hk32 : (BitVec.ofNat 32 k).toNat = k := Nat.mod_eq_of_lt (by omega)
    have hx : (at_ + BitVec.ofNat 32 k).toNat = at_.toNat + k := by
      rw [toNat_add_of_lt (by omega), hk32]
    have hlast : (n - 1#32 - BitVec.ofNat 32 k).toNat = n.toNat - 1 - k := by
      rw [BitVec.toNat_sub, BitVec.toNat_sub, hk32]
      simp only [BitVec.toNat_ofNat]
      omega
    have hy : (at_ + (n - 1#32 - BitVec.ofNat 32 k)).toNat = at_.toNat + (n.toNat - 1 - k) := by
      rw [toNat_add_of_lt (by omega), hlast]
    dsimp only
    refine sat_bind (load8_sat m' _) fun t ht => ?_
    refine sat_bind (load8_sat m' _) fun u hu => ?_
    refine sat_bind (store8_sat R m' _ u) ?_
    rintro m₁ rfl
    refine (store8_sat R _ _ t).mono ?_
    rintro m₂ rfl
    rw [hx] at ht ⊢
    rw [hy] at hu ⊢
    refine ⟨(hsame.setByte (by omega) (by omega)).setByte (by omega) (by omega), fun i hi => ?_⟩
    rw [Mem.byte_setByte, Mem.byte_setByte]
    by_cases h₁ : i = n.toNat - 1 - k
    · subst h₁
      have hback : n.toNat - 1 - (n.toNat - 1 - k) = k := by omega
      rw [if_pos rfl, ht, hdone k (by omega), if_neg (by omega), if_pos (by omega), hback]
    · rw [if_neg (by omega)]
      by_cases h₂ : i = k
      · subst h₂
        rw [if_pos rfl, hu, hdone _ (by omega), if_neg (by omega), if_pos (by omega)]
      · rw [if_neg (by omega), hdone i hi]
        exact if_congr (by omega) rfl rfl
  · rintro m' ⟨hsame, hdone⟩
    rw [hhalf] at hdone
    refine ⟨hsame, ?_⟩
    refine List.ext_getElem (by simp) fun i hi _ => ?_
    rw [Mem.length_bytes] at hi
    rw [List.getElem_reverse]
    simp only [Mem.bytes, List.getElem_map, List.getElem_range, List.length_map, List.length_range]
    rw [hdone i hi]
    by_cases hmid : i < n.toNat / 2 ∨ n.toNat - 1 - i < n.toNat / 2
    · rw [if_pos hmid]
    · rw [if_neg hmid, show n.toNat - 1 - i = i by omega]

/-- The bases of `push_unsigned`. -/
def Base (base : BitVec 32) : Prop := base = 2#32 ∨ base = 8#32 ∨ base = 10#32 ∨ base = 16#32

theorem Base.bounds {base : BitVec 32} (h : Base base) :
    1 < base.toNat ∧ base.toNat ≤ 16 ∧ (base.signExtend 64).toNat = base.toNat := by
  rcases h with rfl | rfl | rfl | rfl <;> decide

theorem pushUnsigned_sat (h : Exact A b w lent l) {u : BitVec 64} {base : BitVec 32} {upper : Bool}
    (hroom : Room b 64#32) (hfuel : 2 ^ 31 ≤ fuel) :
    Sat (After A b w lent (l ++ numeral base.toNat upper u.toNat))
      (pushUnsigned R A fuel b w u base upper) := by
  have hlt := hroom.1
  have h64 : (64#32).toNat = 64 := rfl
  rw [pushUnsigned]
  refine sat_bind (Q := fun _ => Base base) (sat_require fun hreq => ?_) fun _ hbase => ?_
  · simpa [Base] using hreq
  obtain ⟨hb, hb16, hext⟩ := hbase.bounds
  refine sat_bind (ensure_sat h hroom hfuel) ?_
  rintro ⟨b', w'⟩ ⟨lent', he⟩
  rw [h64] at hlt he
  have hbounds := he.exact.bounds
  have hcap := he.room
  have hlen : b'.len.toNat = b.len.toNat := by rw [he.len]
  have hend := he.toNat_end (Nat.zero_le 64)
  rw [BitVec.add_zero, Nat.add_zero] at hend
  dsimp only at hbounds hcap hlen hend ⊢
  refine sat_bind (digitLoop_sat upper (u := u)
    (by rw [hext]; exact hb) (by rw [hext]; exact hb16) (by rw [hend]; omega) hfuel) ?_
  rintro ⟨m₁, n⟩ ⟨hwritten, hn⟩
  dsimp only at hwritten hn ⊢
  refine sat_bind (turnAround_sat (m := m₁) (by omega) (by rw [hend]; omega) hfuel) ?_
  rintro m₂ ⟨hsame, hturned⟩
  obtain ⟨made, hall, hmade, hbytes⟩ := hwritten.made
  rw [List.append_nil] at hall
  have hafter := he.append (b'.len + n) hn (toNat_add_of_lt (by omega))
    (by rw [← hend]; exact hwritten.same.trans hsame)
  have htext : m₂.bytes (b'.data.toNat + b'.len.toNat) n.toNat = numeral base.toNat upper u.toNat := by
    rw [← hend, hturned, hbytes, ← hall, hext, numeral_eq hb]
  rw [htext] at hafter
  exact hafter

/-! ### Decimal -/

section Decimal

variable {k : Nat}

/-- What the loop has written of the `count` digits of `n` that end at `out + count`, before round
`i + 1`. -/
structure Placed (m₀ : Mem) (out count n : Nat) (m : Mem) (i : Nat) (rest : List Nat) : Prop where
  made : ∃ made, remainders 10 n = made ++ rest ∧ made.length = i
    ∧ m.bytes (out + (count - i)) i = (made.map (digitText false)).reverse
  same : Mem.SameOutside out (out + count) m₀ m

theorem Placed.step {m₀ m : Mem} {out count n i r : Nat} {rest : List Nat} {v : BitVec 32}
    (h : Placed m₀ out count n m i (r :: rest)) (hi : i < count)
    (hv : v.setWidth 8 = digitText false r) :
    Placed m₀ out count n (m.setByte (out + (count - (i + 1))) v) (i + 1) rest := by
  obtain ⟨made, hall, hlen, hbytes⟩ := h.made
  refine ⟨⟨made ++ [r], by rw [hall, List.append_assoc]; rfl, by simp [hlen], ?_⟩,
    h.same.setByte (by omega) (by omega)⟩
  have hhigh : (m.setByte (out + (count - (i + 1))) v).bytes (out + (count - i)) i
      = m.bytes (out + (count - i)) i :=
    Mem.bytes_congr fun j hj => by rw [Mem.byte_setByte, if_neg (by omega)]
  rw [Nat.add_comm i 1, Mem.bytes_add, Nat.add_comm 1 i,
    show out + (count - (i + 1)) + 1 = out + (count - i) by omega, hhigh, hbytes, List.map_append,
    List.reverse_append]
  simp [Mem.bytes, Mem.byte_setByte, hv]

theorem toNat_ten (hk : 10 < 2 ^ k) : (10#k).toNat = 10 := Nat.mod_eq_of_lt hk

theorem count_sat {n : BitVec k} {most : Nat} (hk : 10 < 2 ^ k)
    (hn : n.toNat < 10 ^ (most + 1)) (hmost : most < 64) (hfuel : 2 ^ 31 ≤ fuel) :
    Sat (fun count => count.toNat = (remainders 10 n.toNat).length)
      (iterate countRound fuel (1#32, n / 10#k)) := by
  have hle := length_remainders_le (show 1 < 10 by decide) hn
  have hdiv : (n / 10#k).toNat = n.toNat / 10 := by
    rw [BitVec.toNat_udiv, toNat_ten hk]
  refine iterate_sat (fun s : BitVec 32 × BitVec k =>
      s.1.toNat + (Nat.digits 10 s.2.toNat).length = (remainders 10 n.toNat).length) _
    (fun s => (Nat.digits 10 s.2.toNat).length) ?_ fuel _ ?_ ?_
  · rintro ⟨count, v⟩ h
    dsimp only at h ⊢
    rw [countRound]
    by_cases hv : v = 0#k
    · rw [if_neg (not_not.mpr hv)]
      rw [hv] at h
      simpa using h
    · rw [if_pos hv]
      have hpos : 0 < v.toNat := Nat.pos_of_ne_zero fun h0 => hv (BitVec.eq_of_toNat_eq (by simpa using h0))
      have hcons := Nat.digits_def' (b := 10) (by decide) hpos
      have hv10 : (v / 10#k).toNat = v.toNat / 10 := by
        rw [BitVec.toNat_udiv, toNat_ten hk]
      have hc : (count + 1#32).toNat = count.toNat + 1 := toNat_add_of_lt (by
        simp only [BitVec.toNat_ofNat]
        omega)
      rw [hcons, List.length_cons] at h
      rw [pure_eq, sat_done, Sum.elim_inl]
      dsimp only
      rw [hv10, hc, hcons, List.length_cons]
      omega
  · dsimp only
    rw [hdiv, remainders, List.length_cons]
    have h1 : (1#32).toNat = 1 := rfl
    omega
  · dsimp only
    rw [hdiv]
    rw [remainders, List.length_cons] at hle
    omega

/-- The text of a number, and its length. -/
def Text (m₀ : Mem) (out most : Nat) (text : List (BitVec 8)) (r : BitVec 32 × Mem) : Prop :=
  r.1.toNat = text.length ∧ text.length ≤ most ∧
    Mem.SameOutside out (out + text.length) m₀ r.2 ∧ r.2.bytes out text.length = text

theorem decimalToBytes_sat {m₀ : Mem} {n : BitVec k} {out mostWord : BitVec 32} {most : Nat}
    (hk : 10 < 2 ^ k) (hn : n.toNat < 10 ^ (most + 1)) (hmost : most < 64)
    (hend : out.toNat + 64 < 2 ^ 32) (hfuel : 2 ^ 31 ≤ fuel) :
    Sat (Text m₀ out.toNat (most + 1) (numeral 10 false n.toNat))
      (decimalToBytes R fuel mostWord m₀ n out) := by
  have hle := length_remainders_le (show 1 < 10 by decide) hn
  have hlength : (numeral 10 false n.toNat).length = (remainders 10 n.toNat).length := by
    rw [numeral_eq (by decide), List.length_reverse, List.length_map]
  rw [decimalToBytes]
  refine sat_bind (count_sat hk hn hmost hfuel) fun count hcount => ?_
  have h1 : (1#32).toNat = 1 := rfl
  have hsucc : (count + 1#32).toNat = count.toNat + 1 := toNat_add_of_lt (by omega)
  have hpos : 1 ≤ count.toNat := by
    rw [hcount, remainders, List.length_cons]
    omega
  refine sat_bind (Q := fun r => Placed m₀ out.toNat count.toNat n.toNat r.1 count.toNat []) ?_ ?_
  · refine (forLoop_range_sat (by omega) (by omega) (by omega)
      (fun i r => Placed m₀ out.toNat count.toNat n.toNat r.1 (i - 1)
        (left 10 (decide (i = 1)) r.2.toNat)) ?_ ?_).mono ?_
    · exact ⟨⟨[], rfl, rfl, rfl⟩, .refl _ _ _⟩
    · rintro i ⟨m, v⟩ hi hi' h
      obtain ⟨j, rfl⟩ : ∃ j, i = j + 1 := ⟨i - 1, by omega⟩
      rw [hsucc] at hi'
      rw [Nat.add_sub_cancel] at h
      -- a digit is left, as fewer were made than were counted
      have hgo : decide (j + 1 = 1) = true ∨ v.toNat ≠ 0 := by
        by_contra hno
        obtain ⟨hf, hv⟩ := not_or.mp hno
        have hnil : left 10 (decide (j + 1 = 1)) v.toNat = [] :=
          left_eq_nil (Bool.eq_false_iff.mpr hf) (not_not.mp hv)
        obtain ⟨made, hall, hlen, -⟩ := h.made
        rw [hnil, List.append_nil] at hall
        rw [← hall] at hlen
        omega
      rw [left_eq_cons (by decide) hgo] at h
      have hi32 : (BitVec.ofNat 32 (j + 1)).toNat = j + 1 := Nat.mod_eq_of_lt (by omega)
      have haddr : (out + (count - BitVec.ofNat 32 (j + 1))).toNat
          = out.toNat + (count.toNat - (j + 1)) := by
        have hsub : (count - BitVec.ofNat 32 (j + 1)).toNat = count.toNat - (j + 1) := by
          rw [BitVec.toNat_sub, hi32]
          omega
        rw [toNat_add_of_lt (by omega), hsub]
      have hmod : (v % 10#k).toNat = v.toNat % 10 := by rw [BitVec.toNat_umod, toNat_ten hk]
      have hchar : (48#32 + (v % 10#k).setWidth 32).setWidth 8 = digitText false (v.toNat % 10) := by
        have hlt := Nat.mod_lt v.toNat (show 0 < 10 by decide)
        apply BitVec.eq_of_toNat_eq
        rw [digitText, if_pos hlt, BitVec.toNat_setWidth, BitVec.toNat_add, BitVec.toNat_setWidth,
          hmod, BitVec.toNat_ofNat]
        simp only [BitVec.toNat_ofNat]
        omega
      refine sat_bind (store8_sat R _ _ _) ?_
      rintro m' rfl
      rw [pure_eq, sat_done, haddr, Nat.add_sub_cancel]
      have hstep := h.step (by omega) hchar
      have hv10 : (v / 10#k).toNat = v.toNat / 10 := by rw [BitVec.toNat_udiv, toNat_ten hk]
      dsimp only
      rw [hv10, decide_eq_false (by omega)]
      exact hstep
    · rintro ⟨m, v⟩ h
      rw [hsucc, Nat.add_sub_cancel] at h
      obtain ⟨⟨made, hall, hlen, hbytes⟩, hsame⟩ := h
      dsimp only at hall hlen hbytes hsame ⊢
      have hnil : left 10 (decide (count.toNat + 1 = 1)) v.toNat = [] := by
        have := congrArg List.length hall
        rw [List.length_append, ← hcount, hlen] at this
        exact List.eq_nil_of_length_eq_zero (by omega)
      rw [hnil] at hall
      exact ⟨⟨made, hall, hlen, hbytes⟩, hsame⟩
  · rintro ⟨m, v⟩ ⟨⟨made, hall, hlen, hbytes⟩, hsame⟩
    rw [List.append_nil] at hall
    refine sat_bind (Q := fun _ => True) (sat_require fun _ => trivial) fun _ _ => ?_
    rw [Nat.sub_self, Nat.add_zero] at hbytes
    rw [pure_eq, sat_done, Text, hlength, ← hcount]
    refine ⟨rfl, by omega, hsame, ?_⟩
    rw [numeral_eq (by decide), hall]
    exact hbytes

theorem signedToBytes_sat {m₀ : Mem} {n : BitVec k} {out mostWord : BitVec 32} {most : Nat}
    {unsigned : Mem → BitVec k → BitVec 32 → Outcome (BitVec 32 × Mem)}
    (hmost : most < 64) (hend : out.toNat + 128 < 2 ^ 32)
    (hunsigned : ∀ (m : Mem) (u : BitVec k) (out : BitVec 32), out.toNat + 64 < 2 ^ 32 →
      Sat (Text m out.toNat most (numeral 10 false u.toNat)) (unsigned m u out)) :
    Sat (Text m₀ out.toNat (most + 1) (decimal n.toInt))
      (signedToBytes R mostWord unsigned m₀ n out) := by
  rw [signedToBytes]
  refine sat_bind (Q := Text m₀ out.toNat (most + 1) (decimal n.toInt)) ?_ ?_
  · rw [signedBody, decimal]
    have hslt : n.slt 0#k = decide (n.toInt < 0) := by
      rw [BitVec.slt_eq_decide, BitVec.toInt_zero]
    have habs : n.toInt.natAbs = if n.toInt < 0 then (0#k - n).toNat else n.toNat := by
      have hlt := n.isLt
      rw [BitVec.toNat_sub, BitVec.toNat_ofNat, BitVec.toInt_eq_toNat_cond]
      have hpow : 0 < 2 ^ k := Nat.two_pow_pos k
      by_cases hn : 2 * n.toNat < 2 ^ k
      · rw [if_pos hn, if_neg (by omega)]
        omega
      · rw [if_neg hn, if_pos (by omega), Nat.zero_mod, Nat.add_zero, Nat.mod_eq_of_lt (by omega)]
        omega
    rw [hslt, habs]
    by_cases hneg : n.toInt < 0
    · rw [if_pos (decide_eq_true hneg), if_pos hneg, if_pos hneg]
      have h1 : (1#32).toNat = 1 := rfl
      have hnext : (out + 1#32).toNat = out.toNat + 1 := toNat_add_of_lt (by omega)
      refine sat_bind (store8_sat R m₀ out 45#32) ?_
      rintro m₁ rfl
      refine sat_bind (hunsigned _ (0#k - n) (out + 1#32) (by omega)) ?_
      rintro ⟨count, m₂⟩ ⟨hcount, hle, hsame, hbytes⟩
      dsimp only at hcount hle hsame hbytes
      rw [hnext] at hsame hbytes
      refine sat_done.mpr ?_
      rw [Text, List.length_cons]
      refine ⟨?_, by omega, ?_, ?_⟩
      · rw [toNat_add_of_lt (by omega), h1, hcount, Nat.add_comm]
      · refine ((Mem.SameOutside.refl _ _ m₀).setByte le_rfl (by omega)).trans
          (hsame.mono (by omega) (by omega))
      · rw [Nat.add_comm, Mem.bytes_add, hsame.bytes (.inl le_rfl)]
        dsimp only
        rw [hbytes]
        simp [Mem.bytes, Mem.byte_setByte]
    · rw [if_neg hneg, if_neg hneg, if_neg (by simpa using hneg)]
      refine (hunsigned m₀ n out (by omega)).mono ?_
      rintro ⟨count, m₁⟩ ⟨hcount, hle, hrest⟩
      exact ⟨hcount, by omega, hrest⟩
  · rintro ⟨res, m⟩ hr
    exact sat_bind (Q := fun _ => True) (sat_require fun _ => trivial) fun _ _ => hr

end Decimal

theorem Exact.end_lt (h : Exact A b w lent l) : (b.data + b.len).toNat + 128 < 2 ^ 32 := by
  have hb := h.bounds
  have hle := h.len_le
  rw [toNat_add_of_lt (by omega)]
  omega

/-- A number written behind the bytes in use. -/
theorem Ensured.pushText_sat {n most : Nat} {text : List (BitVec 8)}
    (write : Mem → BitVec 32 → Outcome (BitVec 32 × Mem))
    (h : Ensured A b w lent l n b' w' lent') (hlt : b.len.toNat + n < 2 ^ 31) (hn : most ≤ n)
    (hwrite : Sat (Text w'.mem (b'.data + b'.len).toNat most text) (write w'.mem (b'.data + b'.len))) :
    Sat (After A b w lent (l ++ text)) (do
      let (k, m) ← write w'.mem (b'.data + b'.len)
      pure ({ b' with len := b'.len + k }, { w' with mem := m })) := by
  have hlen : b'.len.toNat = b.len.toNat := by rw [h.len]
  have hend := h.toNat_end (Nat.zero_le n)
  rw [BitVec.add_zero, Nat.add_zero] at hend
  refine sat_bind hwrite ?_
  rintro ⟨k, m⟩ ⟨hk, hle, hsame, hbytes⟩
  rw [hend] at hsame hbytes
  dsimp only at hk hsame hbytes ⊢
  have hafter := h.append (b'.len + k) (show text.length ≤ n by omega)
    (by rw [toNat_add_of_lt (by omega), hk]) hsame
  rw [hbytes] at hafter
  exact hafter

theorem pushInt_sat (h : Exact A b w lent l) {n : BitVec 32} (hroom : Room b 11#32)
    (hfuel : 2 ^ 31 ≤ fuel) :
    Sat (After A b w lent (l ++ decimal n.toInt)) (pushInt R A fuel b w n) := by
  have h11 : (11#32).toNat = 11 := rfl
  rw [pushInt]
  refine sat_bind (ensure_sat h hroom hfuel) ?_
  rintro ⟨b', w'⟩ ⟨lent', he⟩
  rw [h11] at he
  refine he.pushText_sat (fun m out => intToBytes R fuel m n out) hroom.1 (le_refl 11) ?_
  refine signedToBytes_sat (show 10 < 64 by decide) ?_ fun m u out hout => ?_
  · exact he.exact.end_lt
  · exact decimalToBytes_sat (by decide) (u.isLt.trans (show 2 ^ 32 < 10 ^ (9 + 1) by decide)) (by decide) hout hfuel

theorem pushI64_sat (h : Exact A b w lent l) {n : BitVec 64} (hroom : Room b 21#32)
    (hfuel : 2 ^ 31 ≤ fuel) :
    Sat (After A b w lent (l ++ decimal n.toInt)) (pushI64 R A fuel b w n) := by
  have h21 : (21#32).toNat = 21 := rfl
  rw [pushI64]
  refine sat_bind (ensure_sat h hroom hfuel) ?_
  rintro ⟨b', w'⟩ ⟨lent', he⟩
  rw [h21] at he
  refine he.pushText_sat (fun m out => int64ToBytes R fuel m n out) hroom.1 (le_refl 21) ?_
  refine signedToBytes_sat (show 20 < 64 by decide) ?_ fun m u out hout => ?_
  · exact he.exact.end_lt
  · exact decimalToBytes_sat (by decide) (u.isLt.trans (show 2 ^ 64 < 10 ^ (19 + 1) by decide)) (by decide) hout hfuel

end Aipl.StdBuf
