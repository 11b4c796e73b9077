import Aipl.Std.Buf.Model
import Aipl.Lib.Bits

/-! # The buffer's invariant, and making room

* `Exact` — the buffer holds a list of bytes, in a live array as long as its capacity, whose address
  it keeps.
* `ensure_sat` — room is made when doubling the capacity can reach it.
* `ensure_diverges` — and is looked for without end when it cannot.
-/

namespace Aipl.StdBuf

open Aipl.Lib Aipl.Lib.Outcome Aipl.Std

variable {σ : Type} {A : BlockAllocator σ} {fuel : Nat} {b b' : Buf} {w w' : World σ}
  {lent lent' : Nat → Prop} {l : List (BitVec 8)}

/-- **The buffer holds the bytes `l`.** -/
structure Exact (A : BlockAllocator σ) (b : Buf) (w : World σ) (lent : Nat → Prop)
    (l : List (BitVec 8)) : Prop where
  ok : w.Ok A lent
  live : b.store.Live w lent
  data : b.data = b.store.addr
  cap : b.cap = b.store.len
  len_le : b.len.toNat ≤ b.cap.toNat
  bytes : w.mem.bytes b.data.toNat b.len.toNat = l

theorem Exact.bounds (h : Exact A b w lent l) :
    8 ≤ b.data.toNat ∧ b.data.toNat + b.cap.toNat ≤ 2 ^ 31 := by
  rw [h.data, h.cap]
  exact ⟨h.live.prefix_le, h.live.end_le⟩

theorem Exact.inside (h : Exact A b w lent l) {x : Nat} (hlo : b.data.toNat ≤ x)
    (hhi : x < b.data.toNat + b.cap.toNat) : b.store.block x := by
  rw [h.data] at hlo hhi
  rw [h.cap] at hhi
  have := h.live.prefix_le
  exact ⟨by omega, by omega⟩

/-- Bytes written into the storage, and a length within it. -/
theorem Exact.rewrite (h : Exact A b w lent l) {m : Mem} (len : BitVec 32)
    (hm : Mem.SameOutside b.data.toNat (b.data.toNat + b.cap.toNat) w.mem m)
    (hlen : len.toNat ≤ b.cap.toNat) :
    Exact A { b with len := len } { w with mem := m } lent (m.bytes b.data.toNat len.toNat) := by
  refine ⟨⟨A.frame h.ok.holds hm.pages fun x hx => hm.byte x ?_, h.ok.made⟩,
    ⟨h.live.id, h.live.prefix_le, h.live.end_le, h.live.lent⟩, h.data, h.cap, hlen, rfl⟩
  by_contra hin
  exact hx (h.live.lent x (h.inside (by omega) (by omega)))

/-! ### Room -/

/-- **Doubling the capacity reaches what `extra` more bytes need.** -/
def Room (b : Buf) (extra : BitVec 32) : Prop :=
  b.len.toNat + extra.toNat < 2 ^ 31 ∧
    (b.cap.toNat < b.len.toNat + extra.toNat →
      ∃ k, (b.len + extra).sle (doubled (2#32 * b.cap) k) = true)

/-- What `ensure` leaves: the same bytes, with room behind them. -/
structure Ensured (A : BlockAllocator σ) (b : Buf) (w : World σ) (lent : Nat → Prop)
    (l : List (BitVec 8)) (extra : Nat) (b' : Buf) (w' : World σ) (lent' : Nat → Prop) : Prop where
  exact : Exact A b' w' lent' l
  len : b'.len = b.len
  room : b.len.toNat + extra ≤ b'.cap.toNat
  kept : ∀ x, lent x → ¬ b.store.block x →
    lent' x ∧ w'.mem.byte x = w.mem.byte x ∧ ¬ b'.store.block x
  same : b.len.toNat + extra ≤ b.cap.toNat → b' = b ∧ w' = w
  moved : b.cap.toNat < b.len.toNat + extra →
    w'.live = (w.made :: w.live).filter (· ≠ b.store.id)

/-- The bytes in use, copied into a new array. -/
theorem copy_sat {old store : Arr} {len : BitVec 32} (hlen : len.toNat < 2 ^ 31)
    (hfuel : 2 ^ 31 ≤ fuel)
    (hapart : ∀ i < len.toNat, old.addr.toNat + i < store.addr.toNat ∨
      store.addr.toNat + store.len.toNat ≤ old.addr.toNat + i) :
    Sat (fun w' => ∃ m, w' = { w with mem := m } ∧ len.toNat ≤ store.len.toNat
        ∧ Mem.SameOutside store.addr.toNat (store.addr.toNat + len.toNat) w.mem m
        ∧ m.bytes store.addr.toNat len.toNat = w.mem.bytes old.addr.toNat len.toNat)
      (forLoop fuel 0#32 len
        (fun i w => do
          let x ← old.get w i
          store.set w i x)
        w) := by
  refine (forLoop_range_sat hlen (Nat.zero_le _) (by omega)
    (fun k w' => ∃ m, w' = { w with mem := m } ∧ k ≤ store.len.toNat
      ∧ Mem.SameOutside store.addr.toNat (store.addr.toNat + k) w.mem m
      ∧ ∀ i < k, m.byte (store.addr.toNat + i) = w.mem.byte (old.addr.toNat + i)) ?_ ?_).mono ?_
  · exact ⟨w.mem, rfl, Nat.zero_le _, .refl _ _ _, fun i hi => absurd hi (Nat.not_lt_zero i)⟩
  · rintro k w' - hk ⟨m, rfl, hroom, hsame, hdone⟩
    have hi : (BitVec.ofNat 32 k).toNat = k := Nat.mod_eq_of_lt (by omega)
    refine sat_bind Arr.get_sat fun v hv => ?_
    refine Arr.set_sat.mono ?_
    rintro w'' ⟨hin, rfl⟩
    rw [hi] at hv hin ⊢
    refine ⟨_, rfl, hin, (hsame.mono le_rfl (by omega)).setByte (by omega) (by omega), ?_⟩
    intro i hik
    rw [Mem.byte_setByte]
    by_cases hlast : i = k
    · subst hlast
      have := hapart i hk
      rw [if_pos rfl, hv.2]
      exact hsame.byte _ (by omega)
    · rw [if_neg (by omega)]
      exact hdone i (by omega)
  · rintro w' ⟨m, rfl, hroom, hsame, hdone⟩
    exact ⟨m, rfl, hroom, hsame, Mem.bytes_congr fun i hi => hdone i hi⟩

theorem ensure_sat (h : Exact A b w lent l) {extra : BitVec 32} (hroom : Room b extra)
    (hfuel : 2 ^ 31 ≤ fuel) :
    Sat (fun r => ∃ lent', Ensured A b w lent l extra.toNat r.1 r.2 lent')
      (ensure A fuel b w extra) := by
  obtain ⟨hneed, hdouble⟩ := hroom
  have hcap := h.bounds
  have hneed' : (b.len + extra).toNat = b.len.toNat + extra.toNat := by
    rw [BitVec.toNat_add]
    omega
  have hsle := sle_iff (x := b.len + extra) (y := b.cap) (by omega) (by omega)
  rw [hneed'] at hsle
  rw [ensure]
  by_cases hfit : b.len.toNat + extra.toNat ≤ b.cap.toNat
  · rw [if_pos (hsle.mpr hfit)]
    exact ⟨lent, h, rfl, hfit, fun x hx hb => ⟨hx, rfl, hb⟩, fun _ => ⟨rfl, rfl⟩,
      fun hlt => absurd hfit (by omega)⟩
  · rw [if_neg (fun hc => hfit (hsle.mp hc))]
    obtain ⟨k, hk⟩ := hdouble (by omega)
    have hk32 : k < 32 := by
      by_contra hge
      rw [doubled_of_ge (by omega), sle_iff (by omega) (by decide), hneed'] at hk
      simp at hk
      omega
    refine sat_bind (double_sat hk (by omega)) ?_
    rintro cap ⟨hle, -⟩
    refine sat_bind (Arr.make_sat h.ok cap) ?_
    rintro ⟨store, w₁⟩ ⟨hslen, hsid, hlive₁, hmade₁, lent₁, hkept₁, hstore, hapart⟩
    dsimp only at hslen hsid hlive₁ hmade₁ hkept₁ hstore hapart ⊢
    have hcaplt : cap.toNat < 2 ^ 31 := by
      have := hstore.end_le
      have := hstore.prefix_le
      rw [hslen] at *
      omega
    have hle' : b.len.toNat + extra.toNat ≤ cap.toNat := by
      rw [sle_iff (by omega) hcaplt, hneed'] at hle
      exact hle
    -- the old block was held before the new one was handed out
    have hdisj : ∀ x, b.store.block x → ¬ store.block x := fun x hx => hapart x (h.live.lent x hx)
    have hpre := h.live.prefix_le
    have hspre := hstore.prefix_le
    have hlenle := h.len_le
    have hcapb := h.cap
    refine sat_bind (copy_sat (by omega) hfuel fun i hi => ?_) ?_
    · by_contra hin
      refine hdisj (b.store.addr.toNat + i) ⟨by omega, ?_⟩ ⟨by omega, by omega⟩
      rw [← hcapb]
      omega
    rintro w₂ ⟨m, rfl, -, hsame, hcopied⟩
    have hsend := hstore.end_le
    have hw₂ : World.Ok A { w₁ with mem := m } lent₁ := by
      refine ⟨A.frame hkept₁.ok.holds hsame.pages fun x hx => hsame.byte x ?_, hkept₁.ok.made⟩
      by_contra hin
      refine hx (hstore.lent x ⟨by omega, ?_⟩)
      rw [hslen]
      omega
    have hold : b.store.Live { w₁ with mem := m } lent₁ := by
      refine ⟨?_, hpre, h.live.end_le, fun x hx => (hkept₁.kept x (h.live.lent x hx) id).1⟩
      dsimp only
      rw [hlive₁]
      exact List.mem_cons_of_mem _ h.live.id
    refine sat_bind (Arr.free_sat hw₂ hold) ?_
    rintro w₃ ⟨hlive₃, hmade₃, lent₃, hkept₃⟩
    have hbytes₃ : ∀ x, store.block x → lent₃ x ∧ w₃.mem.byte x = m.byte x := fun x hx =>
      hkept₃.kept x (hstore.lent x hx) fun hin => hdisj x hin hx
    refine ⟨lent₃, ⟨hkept₃.ok, ⟨?_, hspre, hsend, fun x hx => (hbytes₃ x hx).1⟩, rfl, hslen.symm, ?_,
      ?_⟩, rfl, hle', fun x hx hout => ?_, fun hc => absurd hc (by omega), fun _ => ?_⟩
    · rw [hlive₃]
      dsimp only
      rw [hlive₁, hsid]
      refine List.mem_filter.mpr ⟨List.mem_cons_self, ?_⟩
      have := h.ok.made _ h.live.id
      simpa using (by omega : w.made ≠ b.store.id)
    · dsimp only
      omega
    · dsimp only
      rw [← h.bytes, h.data]
      have hmem : m.bytes store.addr.toNat b.len.toNat = w.mem.bytes b.store.addr.toNat b.len.toNat := by
        rw [hcopied]
        refine Mem.bytes_congr fun i hi => ?_
        refine (hkept₁.kept _ (h.live.lent _ ⟨by omega, ?_⟩) id).2
        rw [← hcapb]
        omega
      rw [← hmem]
      refine Mem.bytes_congr fun i hi => (hbytes₃ _ ⟨by omega, ?_⟩).2
      rw [hslen]
      omega
    · have hx₁ := hkept₁.kept x hx id
      obtain ⟨hl₃, hb₃⟩ := hkept₃.kept x hx₁.1 hout
      refine ⟨hl₃, ?_, hapart x hx⟩
      rw [hb₃]
      refine (hsame.byte x ?_).trans hx₁.2
      by_contra hin
      refine hapart x hx ⟨by omega, ?_⟩
      rw [hslen]
      omega
    · rw [hlive₃]
      dsimp only
      rw [hlive₁]

/-- **Room that no doubling reaches is looked for without end.** -/
theorem ensure_diverges {extra : BitVec 32} (hneed : b.cap.slt (b.len + extra) = true)
    (h : ∀ k, (b.len + extra).sle (doubled (2#32 * b.cap) k) = false) (fuel : Nat) :
    ensure A fuel b w extra = outOfFuel := by
  have hsle : (b.len + extra).sle b.cap = false := by
    rw [BitVec.sle_eq_not_slt, hneed]
    rfl
  rw [ensure, if_neg (by simp [hsle]), double_diverges fuel h, outOfFuel_bind]

end Aipl.StdBuf
