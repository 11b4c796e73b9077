import Aipl.Std.Buf.Invariant

/-! # Pushing and inserting bytes

* `Pushable` — a view that the push reads as it was: its bytes do not run across the end of the
  buffer's, nor lie in the storage that the push gives up.
* `pushByte_sat`, `pushBytes_sat`, `pushStr_sat`, `insert_sat`.
-/

namespace Aipl.StdBuf

open Aipl.Lib Aipl.Lib.Outcome Aipl.Std

variable {σ : Type} {R : Runtime} {A : BlockAllocator σ} {fuel : Nat} {b b' : Buf} {w w' : World σ}
  {lent lent' : Nat → Prop} {l : List (BitVec 8)} {n : Nat}

/-- After an operation the buffer holds `l`.  Room was made, as in `w₁`; after that memory changed in
the buffer's array alone, so of the memory that was held only the old storage may have changed. -/
def After (A : BlockAllocator σ) (b : Buf) (w : World σ) (lent : Nat → Prop) (l : List (BitVec 8))
    (r : Buf × World σ) : Prop :=
  ∃ lent', Exact A r.1 r.2 lent' l ∧
    (∀ x, lent x → ¬ b.store.block x → lent' x ∧ r.2.mem.byte x = w.mem.byte x) ∧
    ∃ b₁ w₁ l₁ n, Ensured A b w lent l₁ n b₁ w₁ lent' ∧ r.1.store = b₁.store ∧
      Mem.SameOutside r.1.data.toNat (r.1.data.toNat + r.1.cap.toNat) w₁.mem r.2.mem

theorem Ensured.rewrite (h : Ensured A b w lent l n b' w' lent') {m : Mem} (len : BitVec 32)
    (hm : Mem.SameOutside b'.data.toNat (b'.data.toNat + b'.cap.toNat) w'.mem m)
    (hlen : len.toNat ≤ b'.cap.toNat) :
    After A b w lent (m.bytes b'.data.toNat len.toNat)
      ({ b' with len := len }, { w' with mem := m }) := by
  refine ⟨lent', h.exact.rewrite len hm hlen, fun x hx hout => ?_, b', w', l, n, h, rfl, hm⟩
  obtain ⟨hl, hbyte, hout'⟩ := h.kept x hx hout
  refine ⟨hl, (hm.byte x ?_).trans hbyte⟩
  by_contra hin
  exact hout' (h.exact.inside (by omega) (by omega))

/-- No room is needed for no more bytes. -/
theorem Exact.ensured (h : Exact A b w lent l) : Ensured A b w lent l 0 b w lent :=
  ⟨h, rfl, h.len_le, fun _ hx hout => ⟨hx, rfl, hout⟩, fun _ => ⟨rfl, rfl⟩,
    fun hlt => absurd h.len_le (Nat.not_le.mpr hlt)⟩

/-- Bytes written behind those in use. -/
theorem Ensured.append (h : Ensured A b w lent l n b' w' lent') {m : Mem} (len : BitVec 32) {k : Nat}
    (hk : k ≤ n) (hlen : len.toNat = b'.len.toNat + k)
    (hm : Mem.SameOutside (b'.data.toNat + b'.len.toNat) (b'.data.toNat + b'.len.toNat + k) w'.mem m) :
    After A b w lent (l ++ m.bytes (b'.data.toNat + b'.len.toNat) k)
      ({ b' with len := len }, { w' with mem := m }) := by
  have hroom := h.room
  have hl := h.len
  rw [hl] at hlen hm ⊢
  have hafter := h.rewrite len (hm.mono (by omega) (by omega)) (by omega)
  rw [hlen, Mem.bytes_add] at hafter
  have hfront : m.bytes b'.data.toNat b.len.toNat = l := by
    rw [hm.bytes (.inl le_rfl), ← hl]
    exact h.exact.bytes
  rw [hfront] at hafter
  exact hafter

/-- Addresses behind the bytes in use. -/
theorem Ensured.toNat_end (h : Ensured A b w lent l n b' w' lent') {k : Nat} (hk : k ≤ n) :
    (b'.data + b'.len + BitVec.ofNat 32 k).toNat = b'.data.toNat + b'.len.toNat + k := by
  have hroom := h.room
  have hb := h.exact.bounds
  rw [← h.len] at hroom
  rw [BitVec.toNat_add, BitVec.toNat_add, BitVec.toNat_ofNat]
  omega

theorem pushByte_sat (h : Exact A b w lent l) {c : BitVec 32} (hroom : Room b 1#32)
    (hfuel : 2 ^ 31 ≤ fuel) :
    Sat (After A b w lent (l ++ [c.setWidth 8])) (pushByte R A fuel b w c) := by
  have hlt := hroom.1
  have h1 : (1#32).toNat = 1 := rfl
  rw [pushByte]
  refine sat_bind (ensure_sat h hroom hfuel) ?_
  rintro ⟨b', w'⟩ ⟨lent', he⟩
  rw [h1] at hlt he
  have hend := he.toNat_end (Nat.zero_le 1)
  rw [BitVec.add_zero, Nat.add_zero] at hend
  refine sat_bind (store8_sat R _ _ _) ?_
  rintro m rfl
  have hlen := he.len
  dsimp only at hlen hend ⊢
  rw [hend]
  have hafter := he.append (b'.len + 1#32) (le_refl 1)
    (toNat_add_of_lt (by rw [hlen, h1]; omega))
    ((Mem.SameOutside.refl _ _ w'.mem).setByte (v := c) le_rfl (Nat.lt_succ_self _))
  have hbyte : (w'.mem.setByte (b'.data.toNat + b'.len.toNat) c).bytes
      (b'.data.toNat + b'.len.toNat) 1 = [c.setWidth 8] := by
    simp [Mem.bytes, Mem.byte_setByte]
  rw [hbyte] at hafter
  exact hafter

/-! ### Views -/

/-- The address of the view's first byte. -/
def Bytes.addr (s : Bytes) : Nat :=
  (match s.data with
    | none => 0
    | some a => a.addr.toNat) + s.start.toNat

/-- The bytes a view is of. -/
def Bytes.content (m : Mem) (s : Bytes) : List (BitVec 8) := m.bytes s.addr s.len.toNat

/-- The view is of an array that is freed, or will be when the buffer grows. -/
def Bytes.Stale (b : Buf) (w : World σ) (s : Bytes) : Prop :=
  ∃ a, s.data = some a ∧ a.id < w.made ∧ (a.id ∉ w.live ∨ a.id = b.store.id)

/-- **A view the buffer may push.**  It is there; when the buffer does not grow, its bytes do not start
before the buffer's end and run past it; when it grows, the view is checked and stale, or its bytes
lie in other memory that is held. -/
structure Pushable (b : Buf) (w : World σ) (lent : Nat → Prop) (s : Bytes) : Prop where
  present : 0 ≤ s.len.toInt
  unwrapped : s.start.toNat + s.len.toNat ≤ 2 ^ 32
  across : b.len.toNat + s.len.toNat ≤ b.cap.toNat → s.addr < b.data.toNat + b.len.toNat →
    s.addr + s.len.toNat ≤ b.data.toNat + b.len.toNat
  elsewhere : b.cap.toNat < b.len.toNat + s.len.toNat → s.Stale b w ∨
    ∀ i < s.len.toNat, lent (s.addr + i) ∧ ¬ b.store.block (s.addr + i)

/-- Reading a view: it is of a live array or of bare memory. -/
theorem byteAt_sat {s : Bytes} {k : Nat} (hun : s.start.toNat + s.len.toNat ≤ 2 ^ 32)
    (hk : k < s.len.toNat) (hlt : s.len.toNat < 2 ^ 31) :
    Sat (fun v => v.setWidth 8 = w.mem.byte (s.addr + k) ∧ ∀ a, s.data = some a → a.id ∈ w.live)
      (byteAt w s (BitVec.ofNat 32 k)) := by
  have hi : (s.start + BitVec.ofNat 32 k).toNat = s.start.toNat + k := by
    have hk32 : (BitVec.ofNat 32 k).toNat = k := Nat.mod_eq_of_lt (by omega)
    rw [toNat_add_of_lt (by omega), hk32]
  rw [byteAt, Bytes.addr]
  refine sat_bind (Q := fun _ => True) (sat_require fun _ => trivial) fun _ _ => ?_
  cases hdata : s.data with
  | none =>
    refine (load8_sat w.mem _).mono fun v hv => ⟨?_, fun a ha => by cases ha⟩
    rw [hv, hi, Nat.zero_add]
  | some d =>
    refine Arr.get_sat.mono fun v hv => ⟨?_, fun a ha => ?_⟩
    · rw [hv.2, hi, Nat.add_assoc]
    · cases ha
      exact hv.1

/-- A pushable view's bytes are still there when the push comes to them, or the read stops the
program. -/
theorem Ensured.source_kept {s : Bytes} (h : Ensured A b w lent l s.len.toNat b' w' lent')
    (hs : Pushable b w lent s) :
    (∃ a, s.data = some a ∧ a.id ∉ w'.live) ∨
      ∀ k < s.len.toNat, ∀ m, Mem.SameOutside (b'.data.toNat + b'.len.toNat)
        (b'.data.toNat + b'.len.toNat + k) w'.mem m → m.byte (s.addr + k) = w.mem.byte (s.addr + k) := by
  have hlen : b'.len.toNat = b.len.toNat := by rw [h.len]
  have hroom := h.room
  rcases Nat.lt_or_ge b.cap.toNat (b.len.toNat + s.len.toNat) with hgrow | hfit
  · rcases hs.elsewhere hgrow with ⟨a, hdata, hmade, hstale⟩ | hother
    · refine .inl ⟨a, hdata, ?_⟩
      rw [h.moved hgrow]
      intro hin
      obtain ⟨hmem, hne⟩ := List.mem_filter.mp hin
      rcases List.mem_cons.mp hmem with heq | hmem
      · omega
      · rcases hstale with hdead | hstore
        · exact hdead hmem
        · simp [hstore] at hne
    · refine .inr fun k hk m hm => ?_
      obtain ⟨hl, hout⟩ := hother k hk
      obtain ⟨-, hbyte, hout'⟩ := h.kept _ hl hout
      refine (hm.byte _ ?_).trans hbyte
      by_contra hin
      exact hout' (h.exact.inside (by omega) (by omega))
  · obtain ⟨rfl, rfl⟩ := h.same hfit
    have hacross := hs.across hfit
    exact .inr fun k hk m hm => hm.byte _ (by omega)

/-- A loop that pushes what `read` gives. -/
theorem Ensured.pushLoop_sat {n : BitVec 32} (h : Ensured A b w lent l n.toNat b' w' lent')
    (hlt : b.len.toNat + n.toNat < 2 ^ 31) (hfuel : 2 ^ 31 ≤ fuel) (c : Nat → BitVec 8)
    (read : BitVec 32 → Mem → Outcome (BitVec 32))
    (hread : ∀ k m, k < n.toNat → Mem.SameOutside (b'.data.toNat + b'.len.toNat)
      (b'.data.toNat + b'.len.toNat + k) w'.mem m →
      Sat (fun v => v.setWidth 8 = c k) (read (BitVec.ofNat 32 k) m)) :
    Sat (After A b w lent (l ++ (List.range n.toNat).map c)) (do
      let m ← forLoop fuel 0#32 n
        (fun i m => do
          let x ← read i m
          store8 R m (b'.data + b'.len + i) x)
        w'.mem
      pure ({ b' with len := b'.len + n }, { w' with mem := m })) := by
  have hlen := h.len
  refine sat_bind (storeLoop_sat (a := b'.data.toNat + b'.len.toNat) c (by omega) (by omega)
    fun k m hk hm => ?_) ?_
  · refine sat_bind (hread k m hk hm) fun v hv => ?_
    refine (store8_sat R m _ v).mono fun m' hm' => ⟨v, hv, ?_⟩
    rw [hm', h.toNat_end hk.le]
  · rintro m ⟨hsame, hbytes⟩
    have hafter := h.append (b'.len + n) (le_refl n.toNat)
      (toNat_add_of_lt (by rw [hlen]; omega)) hsame
    rw [hbytes] at hafter
    exact hafter

theorem pushBytes_sat (h : Exact A b w lent l) {s : Bytes} (hroom : Room b s.len)
    (hs : Pushable b w lent s) (hfuel : 2 ^ 31 ≤ fuel) :
    Sat (After A b w lent (l ++ s.content w.mem)) (pushBytes R A fuel b w s) := by
  have hlt := hroom.1
  rw [pushBytes]
  refine sat_bind (ensure_sat h hroom hfuel) ?_
  rintro ⟨b', w'⟩ ⟨lent', he⟩
  refine he.pushLoop_sat hlt hfuel (fun k => w.mem.byte (s.addr + k))
    (fun i m => byteAt { w' with mem := m } s i) fun k m hk hm => ?_
  refine (byteAt_sat hs.unwrapped hk (by omega)).mono ?_
  rintro v ⟨hv, hlive⟩
  rcases he.source_kept hs with ⟨a, hdata, hdead⟩ | hkept
  · exact absurd (hlive a hdata) hdead
  · exact hv.trans (hkept k hk m hm)

theorem pushStr_sat (h : Exact A b w lent l) {s : Str} (hroom : Room b s.len)
    (hs : Pushable b w lent ⟨none, s.ptr, s.len⟩) (hfuel : 2 ^ 31 ≤ fuel) :
    Sat (After A b w lent (l ++ w.mem.bytes s.ptr.toNat s.len.toNat)) (pushStr R A fuel b w s) := by
  have hlt := hroom.1
  have haddr : Bytes.addr ⟨none, s.ptr, s.len⟩ = s.ptr.toNat := Nat.zero_add _
  rw [pushStr]
  refine sat_bind (ensure_sat h hroom hfuel) ?_
  rintro ⟨b', w'⟩ ⟨lent', he⟩
  refine he.pushLoop_sat hlt hfuel (fun k => w.mem.byte (s.ptr.toNat + k))
    (fun i m => load8 m (s.ptr + i)) fun k m hk hm => ?_
  refine (load8_sat m _).mono fun v hv => ?_
  have hun := hs.unwrapped
  have hk32 : (BitVec.ofNat 32 k).toNat = k := Nat.mod_eq_of_lt (by omega)
  dsimp only at hun
  rw [toNat_add_of_lt (by omega), hk32] at hv
  rcases he.source_kept hs with ⟨a, hdata, -⟩ | hkept
  · cases hdata
  · rw [haddr] at hkept
    exact hv.trans (hkept k hk m hm)

/-! ### Inserting -/

/-- Moving the bytes from `at_` on right by `n`, the last first. -/
theorem shift_sat {m : Mem} {d len at_ n : BitVec 32} (hat : at_.toNat ≤ len.toNat)
    (hend : d.toNat + len.toNat + n.toNat < 2 ^ 32) (hlen : len.toNat + n.toNat < 2 ^ 31)
    (hfuel : 2 ^ 31 ≤ fuel) :
    Sat (fun m' => Mem.SameOutside (d.toNat + at_.toNat + n.toNat) (d.toNat + len.toNat + n.toNat) m m'
        ∧ m'.bytes (d.toNat + at_.toNat + n.toNat) (len.toNat - at_.toNat)
          = m.bytes (d.toNat + at_.toNat) (len.toNat - at_.toNat))
      (forLoop fuel 0#32 (len - at_)
        (fun j m => do
          let i := len - 1#32 - j
          let x ← load8 m (d + i)
          store8 R m (d + (i + n)) x)
        m) := by
  have hsub : (len - at_).toNat = len.toNat - at_.toNat := by
    rw [BitVec.toNat_sub]
    omega
  refine (forLoop_range_sat (by omega) (Nat.zero_le _) (by omega)
    (fun k m' => Mem.SameOutside (d.toNat + len.toNat - k + n.toNat) (d.toNat + len.toNat + n.toNat) m m'
      ∧ ∀ i, len.toNat - k ≤ i → i < len.toNat →
        m'.byte (d.toNat + i + n.toNat) = m.byte (d.toNat + i)) ?_ ?_).mono ?_
  · exact ⟨.refl _ _ _, fun i h₁ h₂ => by simp at h₁; omega⟩
  · rintro k m' - hk ⟨hsame, hdone⟩
    have hk32 : (BitVec.ofNat 32 k).toNat = k := Nat.mod_eq_of_lt (by omega)
    have hi : (len - 1#32 - BitVec.ofNat 32 k).toNat = len.toNat - 1 - k := by
      rw [BitVec.toNat_sub, BitVec.toNat_sub, hk32]
      simp only [BitVec.toNat_ofNat]
      omega
    dsimp only
    refine sat_bind (load8_sat m' _) fun v hv => ?_
    rw [toNat_add_of_lt (by omega), hi] at hv
    refine (store8_sat R m' _ v).mono ?_
    rintro m'' rfl
    rw [toNat_add_of_lt (by rw [toNat_add_of_lt (by omega)]; omega), toNat_add_of_lt (by omega), hi]
    refine ⟨(hsame.mono (by omega) le_rfl).setByte (by omega) (by omega), fun i h₁ h₂ => ?_⟩
    rw [Mem.byte_setByte]
    by_cases hik : i = len.toNat - 1 - k
    · subst hik
      rw [if_pos (by omega), hv]
      exact hsame.byte _ (by omega)
    · rw [if_neg (by omega)]
      exact hdone i (by omega) h₂
  · rintro m' ⟨hsame, hdone⟩
    rw [hsub] at hsame hdone
    refine ⟨hsame.mono (by omega) le_rfl, Mem.bytes_congr fun i hi => ?_⟩
    have := hdone (at_.toNat + i) (by omega) (by omega)
    rw [show d.toNat + at_.toNat + n.toNat + i = d.toNat + (at_.toNat + i) + n.toNat by omega,
      show d.toNat + at_.toNat + i = d.toNat + (at_.toNat + i) by omega]
    exact this

theorem insert_sat (h : Exact A b w lent l) {at_ n c : BitVec 32} (hroom : Room b n)
    (hfuel : 2 ^ 31 ≤ fuel) :
    Sat (After A b w lent (l.take at_.toNat ++ List.replicate n.toNat (c.setWidth 8) ++
        l.drop at_.toNat))
      (insert R A fuel b w at_ n c) := by
  have hlt := hroom.1
  rw [insert]
  refine sat_bind (Q := fun _ => at_.toNat ≤ b.len.toNat) (sat_require fun hreq => ?_) fun _ hat => ?_
  · simp only [Bool.and_eq_true, BitVec.sle_eq_decide, decide_eq_true_eq] at hreq
    have h0 : (0#32).toInt = 0 := rfl
    have hat := toInt_of_nonneg (x := at_) (by omega)
    have hlen := toInt_eq_toNat (x := b.len) (by omega)
    omega
  refine sat_bind (ensure_sat h hroom hfuel) ?_
  rintro ⟨b', w'⟩ ⟨lent', he⟩
  dsimp only at he
  have hbytes := he.exact.bytes
  have hb := he.exact.bounds
  have hcap := he.room
  have hlen := he.len
  dsimp only
  rw [hlen] at hbytes ⊢
  refine sat_bind (shift_sat hat (by omega) hlt hfuel) ?_
  rintro m₁ ⟨hsame₁, hshift⟩
  refine sat_bind (storeLoop_sat (a := b'.data.toNat + at_.toNat) (fun _ => c.setWidth 8) (by omega)
    (by omega) fun k m hk _ => ?_) ?_
  · refine (store8_sat R m _ c).mono fun m' hm' => ⟨c, rfl, ?_⟩
    have hk32 : (BitVec.ofNat 32 k).toNat = k := Nat.mod_eq_of_lt (by omega)
    rw [hm', toNat_add_of_lt (by rw [toNat_add_of_lt (by omega)]; omega), toNat_add_of_lt (by omega),
      hk32, Nat.add_assoc]
  rintro m₂ ⟨hsame₂, hfill⟩
  have hnew : (b.len + n).toNat = b.len.toNat + n.toNat := toNat_add_of_lt (by omega)
  have hafter := he.rewrite (m := m₂) (b.len + n)
    ((hsame₁.mono (by omega) (by omega)).trans (hsame₂.mono (by omega) (by omega))) (by omega)
  have hsplit : b.len.toNat + n.toNat = at_.toNat + n.toNat + (b.len.toNat - at_.toNat) := by omega
  have hall : m₂.bytes b'.data.toNat (b.len + n).toNat
      = l.take at_.toNat ++ List.replicate n.toNat (c.setWidth 8) ++ l.drop at_.toNat := by
    rw [hnew, hsplit, Mem.bytes_add, Mem.bytes_add, hfill, hsame₂.bytes (.inl le_rfl),
      hsame₁.bytes (.inl (by omega)), hsame₂.bytes (.inr (by omega)), ← Nat.add_assoc, hshift,
      ← hbytes, Mem.take_bytes _ _ hat, Mem.drop_bytes _ _ hat, List.map_const',
      List.length_range]
  rw [hall] at hafter
  exact hafter

end Aipl.StdBuf
