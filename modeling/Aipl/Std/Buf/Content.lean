import Aipl.Std.Buf.Writes

/-! # A buffer by its content

`std/buf` as the code that fills a buffer sees it: the bytes it holds, its capacity, and the state of the
allocator that a larger array comes from.  What it computes of the capacity is what the buffer in memory
does (`ensure_content`), and so is what it does not end on.

* `Holds` — the number of bytes that doubling the capacity reaches.
* `pushByte_sat`, `pushBytes_sat` — up to that number, a push appends.
-/

namespace Aipl.StdBuf

open Aipl.Lib Aipl.Lib.Outcome Aipl.Std

/-- `u8`, as an element. -/
def u8 : ElemType (BitVec 8) := ⟨1#32, 0#8⟩

structure Content (σ : Type) where
  bytes : List (BitVec 8)
  cap : BitVec 32
  heap : σ
deriving DecidableEq

namespace Content

variable {σ : Type} (A : Allocator σ) (fuel : Nat)

def len (b : Content σ) : BitVec 32 := arrLen b.bytes

def make (heap : σ) (capacity : BitVec 32) : Outcome (Content σ) := do
  let cap := if capacity.slt 16#32 then 16#32 else capacity
  let (_, heap) ← array A u8 heap cap
  let heap ← create A heap SIZEOF
  pure { bytes := [], cap, heap }

def clear (b : Content σ) : Content σ := { b with bytes := [] }

def truncate (b : Content σ) (n : BitVec 32) : Outcome (Content σ) := do
  require ((0#32).sle n && n.sle b.len)
  pure { b with bytes := b.bytes.take n.toNat }

def ensure (b : Content σ) (extra : BitVec 32) : Outcome (Content σ) := do
  let need := b.len + extra
  if need.sle b.cap then pure b
  else do
    let cap ← iterate (doubleRound need) fuel (2#32 * b.cap)
    let (_, heap) ← array A u8 b.heap cap
    let heap ← freeArray A u8 heap (List.replicate b.cap.toNat 0#8)
    pure { b with cap, heap }

def pushByte (b : Content σ) (c : BitVec 32) : Outcome (Content σ) := do
  let b ← ensure A fuel b 1#32
  pure { b with bytes := b.bytes ++ [c.setWidth 8] }

/-- `push_bytes` of a view of other memory, and `push_str`. -/
def pushBytes (b : Content σ) (s : List (BitVec 8)) : Outcome (Content σ) := do
  let b ← ensure A fuel b (arrLen s)
  pure { b with bytes := b.bytes ++ s }

def free (b : Content σ) : Outcome σ := do
  let heap ← freeArray A u8 b.heap (List.replicate b.cap.toNat 0#8)
  destroy A heap SIZEOF

variable {A fuel} {b : Content σ} {N : Nat}

/-- Doubling the capacity reaches `N` bytes. -/
def Holds (b : Content σ) (N : Nat) : Prop :=
  ∃ k, N ≤ b.cap.toNat * 2 ^ k ∧ b.cap.toNat * 2 ^ k < 2 ^ 31

/-- What an allocator that always has memory makes of an array that was made in memory. -/
theorem array_of_make {τ : Type} {M : BlockAllocator τ} {w : World τ} {n : BitVec 32}
    {r : Arr × World τ} (hr : Arr.make M w n = done r) {heap : σ}
    (hA : ∀ k, A.raw heap k = some heap) :
    array A u8 heap n = done (List.replicate n.toNat 0#8, heap) := by
  rw [Arr.make] at hr
  obtain ⟨_, hn, hr⟩ := bind_eq_done hr
  obtain ⟨bytes, hmul, hr⟩ := bind_eq_done hr
  obtain ⟨size, hadd, -⟩ := bind_eq_done hr
  have hnonneg : 0 ≤ n.toInt := by
    refine Sat.of_eq_done (Q := fun _ => 0 ≤ n.toInt) (sat_require fun h => ?_) hn
    simpa [BitVec.sle_eq_decide] using h
  have hb := sat_checkedMul.of_eq_done hmul
  have hs := sat_checkedAdd.of_eq_done hadd
  have hpos : (0#32).slt size = true := by
    have h0 : (0#32).toInt = 0 := rfl
    have h1 : (1#32).toInt = 1 := rfl
    have h8 : (8#32).toInt = 8 := rfl
    rw [h1] at hb
    rw [h8] at hs
    simp only [BitVec.slt_eq_decide, decide_eq_true_eq]
    omega
  have hsize : u8.size = 1#32 := rfl
  rw [array, hn, done_bind, hsize, hmul, done_bind, hadd, done_bind, raw, hpos, hA]
  rfl

/-- **The buffer in memory computes the same capacity.** -/
theorem ensure_content {τ : Type} {M : BlockAllocator τ} {h h' : Buf} {w w' : World τ}
    {extra : BitVec 32} {l : List (BitVec 8)} (hlen : h.len = arrLen l)
    (hr : StdBuf.ensure M fuel h w extra = done (h', w')) {heap : σ}
    (hA : ∀ k, A.raw heap k = some heap) (hfree : ∀ k, A.freeRaw heap k = some heap) :
    ensure A fuel ⟨l, h.cap, heap⟩ extra = done ⟨l, h'.cap, heap⟩ := by
  rw [StdBuf.ensure, hlen] at hr
  rw [ensure, len]
  by_cases hfit : (arrLen l + extra).sle h.cap = true
  · rw [if_pos hfit] at hr ⊢
    cases hr
    rfl
  · rw [if_neg hfit] at hr ⊢
    obtain ⟨cap, hcap, hr⟩ := bind_eq_done hr
    obtain ⟨⟨store, w₁⟩, hmake, hr⟩ := bind_eq_done hr
    obtain ⟨w₂, -, hr⟩ := bind_eq_done hr
    obtain ⟨w₃, -, hr⟩ := bind_eq_done hr
    cases hr
    rw [hcap, done_bind, array_of_make hmake hA, done_bind]
    dsimp only
    rw [freeArray, hfree]
    rfl

/-- … and does not end where it does not. -/
theorem ensure_outOfFuel {τ : Type} {M : BlockAllocator τ} {h : Buf} {w : World τ}
    {extra : BitVec 32} {l : List (BitVec 8)} {heap : σ} (hlen : h.len = arrLen l)
    (hr : ensure A fuel ⟨l, h.cap, heap⟩ extra = outOfFuel) :
    StdBuf.ensure M fuel h w extra = outOfFuel := by
  rw [ensure, len] at hr
  rw [StdBuf.ensure, hlen]
  by_cases hfit : (arrLen l + extra).sle h.cap = true
  · rw [if_pos hfit] at hr
    cases hr
  · rw [if_neg hfit] at hr ⊢
    dsimp only at hr
    cases hloop : iterate (doubleRound (arrLen l + extra)) fuel (2#32 * h.cap) with
    | outOfFuel => rfl
    | stop =>
      rw [hloop] at hr
      cases hr
    | done cap =>
      rw [hloop, done_bind] at hr
      have hsat : Sat (fun _ => True) (do
          let (_, heap) ← array A u8 heap cap
          let heap ← freeArray A u8 heap (List.replicate h.cap.toNat 0#8)
          pure (⟨l, cap, heap⟩ : Content σ)) :=
        sat_bind sat_array fun _ _ => sat_bind (sat_ofOption fun _ _ => trivial) fun _ (_ : True) => trivial
      exact absurd hr hsat.ne_outOfFuel

/-- Doubling the capacity reaches what `extra` more bytes need. -/
def Room (b : Content σ) (extra : BitVec 32) : Prop :=
  b.bytes.length + extra.toNat < 2 ^ 31 ∧
    (b.cap.slt (b.len + extra) = true → ∃ k, (b.len + extra).sle (doubled (2#32 * b.cap) k) = true)

theorem ensure_room_sat {extra : BitVec 32} (hroom : b.Room extra) (hfuel : 2 ^ 31 ≤ fuel) :
    Sat (fun b' => b'.bytes = b.bytes) (ensure A fuel b extra) := by
  obtain ⟨-, hdouble⟩ := hroom
  rw [ensure]
  by_cases hfit : (b.len + extra).sle b.cap = true
  · rw [if_pos hfit]
    rfl
  · rw [if_neg hfit]
    obtain ⟨k, hk, hk32⟩ : ∃ k, (b.len + extra).sle (doubled (2#32 * b.cap) k) = true ∧ k ≤ 32 := by
      obtain ⟨k, hk⟩ := hdouble (by simpa [BitVec.sle_eq_not_slt] using hfit)
      rcases Nat.le_total k 32 with hle | hge
      · exact ⟨k, hk, hle⟩
      · rw [doubled_of_ge hge] at hk
        exact ⟨32, by rw [doubled_of_ge le_rfl]; exact hk, le_rfl⟩
    refine sat_bind (double_sat hk (by omega)) fun cap _ => ?_
    refine sat_bind sat_array ?_
    rintro ⟨_, heap⟩ -
    exact sat_bind (Q := fun _ => True) (sat_ofOption fun _ _ => trivial) fun _ _ => rfl

theorem pushBytes_room_sat {s : List (BitVec 8)} (hroom : b.Room (arrLen s)) (hfuel : 2 ^ 31 ≤ fuel) :
    Sat (fun b' => b'.bytes = b.bytes ++ s) (pushBytes A fuel b s) := by
  rw [pushBytes]
  exact sat_bind (ensure_room_sat hroom hfuel) fun b' hbytes => congrArg (· ++ s) hbytes

theorem make_endsOr {C : Prop} {heap : σ} {capacity : BitVec 32} (hmem : C ∨ Plentiful A ∧ capacity.toInt + 8 < 2 ^ 31) :
    EndsOr C (fun b => b.bytes = [] ∧ b.cap = if capacity.slt 16#32 then 16#32 else capacity) (make A heap capacity) := by
  have h16 : (16#32).toInt = 16 := by decide
  have hu8 : u8.size.toInt = 1 := by decide
  rw [make]
  refine endsOr_bind (array_endsOr (hmem.imp_right fun h => ⟨h.1, ?_, by rw [hu8]; decide, ?_⟩)) ?_
  · split
    · rw [h16]
      decide
    · rename_i hlarge
      rw [BitVec.slt_eq_decide, decide_eq_true_eq] at hlarge
      omega
  · have hlt := h.2
    rw [hu8]
    split
    · rw [h16]
      decide
    · omega
  · rintro ⟨xs, heap'⟩ -
    exact endsOr_bind (create_endsOr (by decide) (hmem.imp_right fun h => h.1)) fun heap'' _ => ⟨rfl, rfl⟩

theorem make_sat {heap : σ} {capacity : BitVec 32} (hcap : capacity.slt 16#32 = false) :
    Sat (fun b => b.bytes = [] ∧ b.cap = capacity) (make A heap capacity) := by
  refine (endsOr_true.mp (make_endsOr (.inl trivial))).mono fun b ⟨hbytes, hb⟩ => ⟨hbytes, ?_⟩
  rw [hb, hcap]
  rfl

theorem toNat_len (h : b.bytes.length < 2 ^ 32) : b.len.toNat = b.bytes.length :=
  toNat_arrLen h

theorem Holds.lt (h : b.Holds N) : N < 2 ^ 31 := by
  obtain ⟨k, hk, hlt⟩ := h
  omega

/-- Room past 2^30 bytes is looked for without end, when the capacity is a power of two. -/
theorem ensure_diverges {extra : BitVec 32} {j : Nat} (hcap : b.cap.toNat = 2 ^ j)
    (hbig : 2 ^ 30 < b.bytes.length + extra.toNat) (hlt : b.bytes.length + extra.toNat < 2 ^ 31) :
    ensure A fuel b extra = outOfFuel := by
  have hlen := toNat_len (b := b) (by omega)
  have hneed : (b.len + extra).toNat = b.bytes.length + extra.toNat := by
    rw [toNat_add_of_lt (by omega), hlen]
  have hzero : b.cap = BitVec.ofNat 32 (2 ^ j) := by
    rw [← hcap, BitVec.ofNat_toNat, BitVec.setWidth_eq]
  have hpast : 2 ^ 30 < (b.len + extra).toNat := by omega
  have hnever := sle_doubled_pow hzero hpast (by omega)
  have hsle : (b.len + extra).sle b.cap = false := by
    have h0 := hnever 0
    rwa [doubled_zero] at h0
  have hdouble : ∀ k, (b.len + extra).sle (doubled (2#32 * b.cap) k) = false := fun k => by
    rw [BitVec.mul_comm, doubled_succ]
    exact hnever (k + 1)
  rw [ensure, if_neg (by simp [hsle]), double_diverges fuel hdouble]
  rfl

theorem pushBytes_diverges {s : List (BitVec 8)} {j : Nat} (hcap : b.cap.toNat = 2 ^ j)
    (hbig : 2 ^ 30 < b.bytes.length + s.length) (hlt : b.bytes.length + s.length < 2 ^ 31) :
    pushBytes A fuel b s = outOfFuel := by
  have hs := toNat_arrLen (show s.length < 2 ^ 32 by omega)
  rw [pushBytes, ensure_diverges hcap (by rw [hs]; exact hbig) (by rw [hs]; exact hlt)]
  rfl

/-- **Room**: up to the bytes that doubling the capacity `k` times reaches, it is found, with no more doublings. -/
theorem ensure_endsOr {C : Prop} {extra : BitVec 32} {k : Nat} (hk : N ≤ b.cap.toNat * 2 ^ k) (hlt : b.cap.toNat * 2 ^ k < 2 ^ 31)
    (hmem : C ∨ Plentiful A ∧ b.cap.toNat * 2 ^ k + 8 < 2 ^ 31) (hle : b.bytes.length + extra.toNat ≤ N) (hfuel : 2 ^ 31 ≤ fuel) :
    EndsOr C (fun b' => b'.bytes = b.bytes ∧ b.bytes.length + extra.toNat ≤ b'.cap.toNat ∧
      ∃ i ≤ k, b'.cap.toNat = b.cap.toNat * 2 ^ i ∧ (i = 0 ∨ b'.cap.toNat + 8 < 2 ^ 31)) (ensure A fuel b extra) := by
  have hlen := toNat_len (b := b) (by omega)
  have hneed : (b.len + extra).toNat = b.bytes.length + extra.toNat := by
    rw [toNat_add_of_lt (by omega), hlen]
  have hcap : b.cap.toNat ≤ b.cap.toNat * 2 ^ k := Nat.le_mul_of_pos_right _ (Nat.two_pow_pos k)
  rw [ensure]
  by_cases hfit : b.bytes.length + extra.toNat ≤ b.cap.toNat
  · rw [if_pos ((sle_iff (by omega) (by omega)).mpr (by omega))]
    exact ⟨rfl, hfit, 0, Nat.zero_le _, by rw [pow_zero, Nat.mul_one], .inl rfl⟩
  · rw [if_neg fun hc => hfit (by rw [sle_iff (by omega) (by omega)] at hc; omega)]
    obtain ⟨j, rfl⟩ : ∃ j, k = j + 1 := by
      cases k with
      | zero => omega
      | succ j => exact ⟨j, rfl⟩
    have hj31 : j < 2 ^ 31 := by
      have h1 : 2 ^ (j + 1) ≤ b.cap.toNat * 2 ^ (j + 1) := by
        refine Nat.le_mul_of_pos_left _ (Nat.pos_of_ne_zero fun h0 => ?_)
        rw [h0] at hk
        omega
      have h2 : j + 1 < 2 ^ (j + 1) := Nat.lt_two_pow_self
      omega
    have hpow : b.cap.toNat * 2 ^ (j + 1) = 2 * b.cap.toNat * 2 ^ j := by
      rw [pow_succ', ← Nat.mul_assoc, Nat.mul_comm b.cap.toNat 2]
    have h2cap : (2#32 * b.cap).toNat = 2 * b.cap.toNat := by
      have hle2 : 2 * b.cap.toNat ≤ 2 * b.cap.toNat * 2 ^ j :=
        Nat.le_mul_of_pos_right _ (Nat.two_pow_pos j)
      have h2 : (2#32).toNat = 2 := rfl
      rw [BitVec.toNat_mul, h2, Nat.mod_eq_of_lt (by omega)]
    refine endsOr_bind ((double_sat_of_le (k := j) (by rw [h2cap]; omega) (by rw [h2cap]; omega)
      (by omega)).endsOr fun hstop => absurd hstop (double_ne_stop fuel _)) ?_
    rintro cap ⟨hroom, i, hi, hcap'⟩
    have hgrown : b.cap.toNat * 2 ^ (i + 1) = cap.toNat := by
      rw [hcap', h2cap, pow_succ', ← Nat.mul_assoc, Nat.mul_comm b.cap.toNat 2]
    have hmost : b.cap.toNat * 2 ^ (i + 1) ≤ b.cap.toNat * 2 ^ (j + 1) :=
      Nat.mul_le_mul_left _ (Nat.pow_le_pow_right (by decide) (by omega))
    have h1 : u8.size.toInt = 1 := by decide
    have hint := toInt_eq_toNat (show cap.toNat < 2 ^ 31 by omega)
    refine endsOr_bind (array_endsOr (hmem.imp_right fun h => ⟨h.1, by omega, by rw [h1]; decide, by rw [h1]; omega⟩)) ?_
    rintro ⟨_, heap⟩ ⟨-, -, hbytes⟩
    rw [h1] at hbytes
    refine endsOr_bind (freeArray_endsOr (hmem.imp_right fun h => h.1)) fun heap' _ => ?_
    exact ⟨rfl, by dsimp only; omega, i + 1, by omega, hgrown.symm, .inr (by dsimp only; omega)⟩

theorem ensure_sat {extra : BitVec 32} (hN : b.Holds N) (hle : b.bytes.length + extra.toNat ≤ N)
    (hfuel : 2 ^ 31 ≤ fuel) :
    Sat (fun b' => b'.bytes = b.bytes ∧ b'.Holds N) (ensure A fuel b extra) := by
  obtain ⟨k, hk, hlt⟩ := hN
  refine (endsOr_true.mp (ensure_endsOr hk hlt (.inl trivial) hle hfuel)).mono fun b' ⟨hbytes, _, i, hi, hcap, _⟩ => ⟨hbytes, k - i, ?_⟩
  have hsplit : b'.cap.toNat * 2 ^ (k - i) = b.cap.toNat * 2 ^ k := by
    rw [hcap, Nat.mul_assoc, ← pow_add, Nat.add_sub_cancel' hi]
  rw [hsplit]
  exact ⟨hk, hlt⟩

theorem pushByte_sat {c : BitVec 32} (hN : b.Holds N) (hle : b.bytes.length + 1 ≤ N)
    (hfuel : 2 ^ 31 ≤ fuel) :
    Sat (fun b' => b'.bytes = b.bytes ++ [c.setWidth 8] ∧ b'.Holds N) (pushByte A fuel b c) := by
  rw [pushByte]
  refine sat_bind (ensure_sat hN hle hfuel) ?_
  rintro b' ⟨hbytes, hN'⟩
  exact ⟨by rw [hbytes], hN'⟩

/-- What a push returns. -/
theorem pushByte_returns (b : Content σ) (c : BitVec 32) :
    Returns (fun b' => b'.bytes = b.bytes ++ [c.setWidth 8]) (pushByte A fuel b c) := by
  rw [pushByte]
  refine returns_bind (Q := fun b' => b'.bytes = b.bytes) ?_ fun b' hbytes => congrArg (· ++ [c.setWidth 8]) hbytes
  rw [ensure]
  dsimp only
  split
  · rfl
  · refine returns_bind_any fun cap => returns_bind_any ?_
    rintro ⟨_, heap⟩
    exact returns_bind_any fun heap => rfl

/-- A push where there is room. -/
theorem pushByte_room {c : BitVec 32} (hroom : b.bytes.length < b.cap.toNat) (hcap : b.cap.toNat < 2 ^ 31) :
    pushByte A fuel b c = done { b with bytes := b.bytes ++ [c.setWidth 8] } := by
  have h1 : (1#32).toNat = 1 := rfl
  have hneed : (b.len + 1#32).toNat = b.bytes.length + 1 := by
    rw [toNat_add_of_lt (by rw [toNat_len (by omega)]; omega), toNat_len (by omega), h1]
  rw [pushByte, ensure, (sle_iff (by omega) hcap).mpr (by omega)]
  rfl

theorem pushBytes_sat {s : List (BitVec 8)} (hN : b.Holds N) (hle : b.bytes.length + s.length ≤ N)
    (hfuel : 2 ^ 31 ≤ fuel) :
    Sat (fun b' => b'.bytes = b.bytes ++ s ∧ b'.Holds N) (pushBytes A fuel b s) := by
  have hlt := hN.lt
  have hlen := toNat_arrLen (show s.length < 2 ^ 32 by omega)
  rw [pushBytes]
  refine sat_bind (ensure_sat hN (by omega) hfuel) ?_
  rintro b' ⟨hbytes, hN'⟩
  exact ⟨by rw [hbytes], hN'⟩

theorem free_endsOr {C : Prop} (hmem : C ∨ Plentiful A) : EndsOr C (fun _ => True) (b.free A) := by
  rw [free]
  exact endsOr_bind (freeArray_endsOr hmem) fun heap _ => destroy_endsOr hmem

/-- There is room for `n` more bytes, or the room can be found where `C` allows to stop. -/
def Space (C : Prop) (b : Content σ) (n : Nat) : Prop :=
  C ∧ b.Holds (b.bytes.length + n) ∨ b.bytes.length + n ≤ b.cap.toNat ∧ b.cap.toNat < 2 ^ 31

theorem pushBytes_space {C : Prop} {s : List (BitVec 8)} {n : Nat} (h : b.Space C (s.length + n)) (hfuel : 2 ^ 31 ≤ fuel) :
    EndsOr C (fun b' => b'.bytes = b.bytes ++ s ∧ b'.Space C n) (pushBytes A fuel b s) := by
  rcases h with ⟨hC, hN⟩ | ⟨hroom, hcap⟩
  · refine ((pushBytes_sat hN (by omega) hfuel).mono fun b' ⟨hbytes, hN'⟩ => ⟨hbytes, .inl ⟨hC, ?_⟩⟩).endsOr fun _ => hC
    rw [hbytes, List.length_append, Nat.add_assoc]
    exact hN'
  · have hlen := toNat_arrLen (show s.length < 2 ^ 32 by omega)
    have hneed : (b.len + arrLen s).toNat = b.bytes.length + s.length := by
      rw [toNat_add_of_lt (by rw [toNat_len (by omega)]; omega), toNat_len (by omega), hlen]
    rw [pushBytes, ensure, (sle_iff (by omega) hcap).mpr (by omega)]
    refine ⟨rfl, .inr ⟨?_, hcap⟩⟩
    dsimp only
    rw [List.length_append]
    omega

theorem pushByte_space {C : Prop} {n : Nat} (h : b.Space C (n + 1)) (hfuel : 2 ^ 31 ≤ fuel) (c : BitVec 32) :
    EndsOr C (fun b' => b'.bytes = b.bytes ++ [c.setWidth 8] ∧ b'.Space C n) (pushByte A fuel b c) :=
  pushBytes_space (s := [c.setWidth 8]) (by rwa [Nat.add_comm] at h) hfuel

end Content

end Aipl.StdBuf
