import Aipl.Std.Stream.Model

/-! # The window of a reader

What a reader has left is the bytes of its window that it has not handed out, and behind them those of
its source.

* `Reader.Ok` — the invariant; `Reader.Fits` — when more can be asked for.
* `makeRoom_sat` — the unread bytes are moved, not changed.
* `fill_sat` — a fill moves bytes from the source to the window, and changes nothing else.
-/

namespace Aipl.StdStream

open Aipl.Lib Aipl.Lib.Outcome Aipl.Std
open Aipl.StdBuf (u8 Content)

/-! ### Views -/

section Views

variable {win : List (BitVec 8)}

theorem byteAt_eq {i : BitVec 32} {c : BitVec 8} (hlt : win.length < 2 ^ 31)
    (h : win[i.toNat]? = some c) : byteAt win i = done (c.setWidth 32) := by
  have hi : i.toNat < win.length := (List.getElem?_eq_some_iff.mp h).1
  have hlen := toNat_arrLen (show win.length < 2 ^ 32 by omega)
  have hreq : ((0#32).sle i && i.slt (arrLen win)) = true := by
    rw [Bool.and_eq_true, slt_iff (by omega) (by omega)]
    exact ⟨zero_sle (by omega), by omega⟩
  rw [byteAt, hreq, arrGet_eq h]
  rfl

theorem setByte_eq {i c : BitVec 32} (hlt : win.length < 2 ^ 31) (hi : i.toNat < win.length) :
    setByte win i c = done (win.set i.toNat (c.setWidth 8)) := by
  have hlen := toNat_arrLen (show win.length < 2 ^ 32 by omega)
  have hreq : ((0#32).sle i && i.slt (arrLen win)) = true := by
    rw [Bool.and_eq_true, slt_iff (by omega) (by omega)]
    exact ⟨zero_sle (by omega), by omega⟩
  rw [setByte, hreq, arrSet_eq hi]
  rfl

theorem slice_eq {start len : BitVec 32} (hlt : win.length < 2 ^ 31)
    (h : start.toNat + len.toNat ≤ win.length) : slice win start len = done (start, len) := by
  have hlen := toNat_arrLen (show win.length < 2 ^ 32 by omega)
  have hsum : (start + len).toNat = start.toNat + len.toNat := toNat_add_of_lt (by omega)
  have hreq : ((0#32).sle start && ((0#32).sle len && (start + len).sle (arrLen win))) = true := by
    rw [zero_sle (by omega), zero_sle (by omega), Bool.true_and, Bool.true_and,
      sle_iff (by omega) (by omega)]
    omega
  rw [slice, hreq]
  rfl

theorem load_eq {i : BitVec 32} {c : BitVec 8} (h : win[i.toNat]? = some c) : load win i = c := by
  rw [load, List.getD_eq_getElem?_getD, h]
  rfl

@[simp] theorem setWidth_setWidth_byte (c : BitVec 8) : (c.setWidth 32).setWidth 8 = c :=
  BitVec.setWidth_setWidth_of_le _ (by decide) |>.trans (BitVec.setWidth_eq _)

@[simp] theorem length_storeAll (i : Nat) (bs : List (BitVec 8)) :
    (storeAll win i bs).length = win.length := by
  induction bs generalizing win i with
  | nil => rfl
  | cons b bs ih => rw [storeAll, ih, List.length_set]

theorem storeAll_append (i : Nat) (bs cs : List (BitVec 8)) :
    storeAll win i (bs ++ cs) = storeAll (storeAll win i bs) (i + bs.length) cs := by
  induction bs generalizing win i with
  | nil => rfl
  | cons b bs ih =>
    rw [List.cons_append, storeAll, storeAll, ih, List.length_cons, Nat.add_right_comm, Nat.add_assoc]

theorem getElem?_storeAll (i : Nat) (bs : List (BitVec 8)) (j : Nat)
    (h : i + bs.length ≤ win.length) :
    (storeAll win i bs)[j]? = if i ≤ j ∧ j < i + bs.length then bs[j - i]? else win[j]? := by
  induction bs generalizing win i with
  | nil =>
    rw [if_neg (by simp)]
    rfl
  | cons b bs ih =>
    rw [List.length_cons] at h
    rw [storeAll, ih _ (by rw [List.length_set]; omega), List.length_cons]
    rcases Nat.lt_trichotomy i j with hlt | rfl | hgt
    · have hsub : j - i = (j - (i + 1)) + 1 := by omega
      have hiff : (i + 1 ≤ j ∧ j < i + 1 + bs.length) ↔ (i ≤ j ∧ j < i + (bs.length + 1)) := by omega
      rw [hsub, List.getElem?_cons_succ, if_congr hiff rfl rfl, List.getElem?_set_ne (by omega)]
    · rw [if_neg (by omega), if_pos (by omega), Nat.sub_self, List.getElem?_set_self (by omega)]
      rfl
    · rw [if_neg (by omega), if_neg (by omega), List.getElem?_set_ne (by omega)]

/-- The elements from `s` up to `e`. -/
def between (win : List (BitVec 8)) (s e : Nat) : List (BitVec 8) := (win.drop s).take (e - s)

theorem length_between {s e : Nat} (h : e ≤ win.length) : (between win s e).length = e - s := by
  rw [between, List.length_take, List.length_drop]
  omega

theorem getElem?_between (s e i : Nat) :
    (between win s e)[i]? = if i < e - s then win[s + i]? else none := by
  rw [between, List.getElem?_take]
  split
  · rw [List.getElem?_drop]
  · rfl

theorem between_append {s m e : Nat} (hsm : s ≤ m) (hme : m ≤ e) :
    between win s m ++ between win m e = between win s e := by
  have hdrop : win.drop m = (win.drop s).drop (m - s) := by
    rw [List.drop_drop]
    congr 1
    omega
  have hsub : e - s = (m - s) + (e - m) := by omega
  rw [between, between, between, hsub, List.take_add, hdrop]

theorem between_one {k : Nat} {c : BitVec 8} (h : win[k]? = some c) : between win k (k + 1) = [c] := by
  refine List.ext_getElem? fun j => ?_
  rw [getElem?_between, Nat.add_sub_cancel_left]
  cases j with
  | zero => simpa using h
  | succ j => simp

@[simp] theorem between_self (s : Nat) : between win s s = [] := by
  rw [between, Nat.sub_self, List.take_zero]

theorem drop_eq_between (s : Nat) : win.drop s = between win s win.length := by
  rw [between, List.take_of_length_le (by rw [List.length_drop])]

/-- Bytes stored behind the first ones of the window. -/
theorem between_storeAll {s e : Nat} {bs : List (BitVec 8)} (hse : s ≤ e)
    (hle : e + bs.length ≤ win.length) :
    between (storeAll win e bs) s (e + bs.length) = between win s e ++ bs := by
  refine List.ext_getElem? fun i => ?_
  rw [getElem?_between, getElem?_storeAll _ _ _ hle, List.getElem?_append,
    length_between (by omega), getElem?_between]
  by_cases h : i < e - s
  · rw [if_pos (by omega), if_neg (by omega), if_pos h]
    simp only [h, if_true]
  · by_cases h' : i < e + bs.length - s
    · rw [if_pos h', if_pos (by omega), if_neg h]
      congr 1
      omega
    · rw [if_neg h', if_neg h, List.getElem?_eq_none (by omega)]

/-- The first `n` elements are those from `s` on in another list. -/
theorem between_zero_eq {ys : List (BitVec 8)} {s n : Nat}
    (h : ∀ i < n, win[i]? = ys[s + i]?) : between win 0 n = between ys s (s + n) := by
  refine List.ext_getElem? fun i => ?_
  rw [getElem?_between, getElem?_between, Nat.sub_zero, Nat.add_sub_cancel_left]
  split
  · rw [Nat.zero_add]
    exact h i ‹_›
  · rfl

end Views

/-! ### Sources and readers -/

def Source.pieces : Source → List (List (BitVec 8))
  | .fd s => s.pieces
  | .memory => []
  | .custom s => s.pieces

/-- The bytes a source has left. -/
def Source.left (src : Source) : List (BitVec 8) := src.pieces.flatten

/-- What a source delivers: no empty piece, and from a fill function none that its buffer cannot
hold. -/
def Source.Ok : Source → Prop
  | .fd s => ∀ p ∈ s.pieces, p ≠ []
  | .memory => True
  | .custom s => ∀ p ∈ s.pieces, p ≠ [] ∧ p.length ≤ 2 ^ 30

variable {σ : Type} {A : Allocator σ} {fuel : Nat}

namespace Reader

/-- The bytes read and not handed out. -/
def unread (r : Reader σ) : List (BitVec 8) := between r.win r.start.toNat r.end_.toNat

/-- What the reader still has to hand out. -/
def rest (r : Reader σ) : List (BitVec 8) := r.unread ++ r.src.left

structure Bounds (r : Reader σ) : Prop where
  start_le : r.start.toNat ≤ r.end_.toNat
  end_le : r.end_.toNat ≤ r.win.length
  size : r.win.length < 2 ^ 31

/-- A window of the reader's own: 8 KiB, doubled. -/
def Grown (r : Reader σ) : Prop := ∃ j ≤ 17, r.win.length = 8192 * 2 ^ j

/-- **The invariant.** -/
structure Ok (r : Reader σ) : Prop where
  bounds : r.Bounds
  src : r.src.Ok
  grown : r.atEnd = false → r.Grown
  done : r.atEnd = true → r.src.left = []

/-- The bytes that the next fill asks room for. -/
def need (r : Reader σ) : Nat :=
  match r.src with
  | .fd _ => 4096
  | .memory => 0
  | .custom s => (s.pieces.headD []).length

/-- **When more can be asked for**: doubling reaches the room for it. -/
def Fits (r : Reader σ) : Prop := r.atEnd = true ∨ r.unread.length + r.need ≤ 2 ^ 30

variable {r : Reader σ}

theorem Bounds.length_unread (h : r.Bounds) :
    r.unread.length = r.end_.toNat - r.start.toNat := length_between h.end_le

theorem Bounds.toNat_sub (h : r.Bounds) : (r.end_ - r.start).toNat = r.unread.length := by
  rw [toNat_sub_of_le h.start_le, h.length_unread]

theorem Bounds.unread_eq_nil (h : r.Bounds) : r.start = r.end_ ↔ r.unread = [] := by
  rw [← List.length_eq_zero_iff, h.length_unread]
  have hle := h.start_le
  constructor
  · intro heq
    rw [heq]
    exact Nat.sub_self _
  · intro hzero
    exact BitVec.eq_of_toNat_eq (by omega)

/-! ### Making room -/

theorem compact_ends (h : r.Bounds) (hfuel : 2 ^ 31 ≤ fuel) :
    Ends (fun r' => ∃ win, r' = { r with win := win, start := 0#32, end_ := r.end_ - r.start }
        ∧ win.length = r.win.length ∧ between win 0 r.unread.length = r.unread)
      (compact fuel r) := by
  have hs := h.start_le
  have he := h.end_le
  have hsize := h.size
  have hlen := h.length_unread
  have hn := h.toNat_sub
  rw [compact]
  by_cases hpos : 0 < r.start.toNat
  · rw [if_pos ((zero_slt_iff (by omega)).mpr hpos)]
    refine ends_bind (Q := fun win => win.length = r.win.length
      ∧ ∀ i < r.unread.length, win[i]? = r.win[r.start.toNat + i]?) ?_ ?_
    · refine (forLoop_range_ends (by omega) (Nat.zero_le _) (by omega)
        (fun k win => win.length = r.win.length ∧ (∀ i < k, win[i]? = r.win[r.start.toNat + i]?)
          ∧ ∀ i ≥ k, win[i]? = r.win[i]?) ?_ ?_).mono ?_
      · exact ⟨rfl, fun i hi => absurd hi (Nat.not_lt_zero i), fun i _ => rfl⟩
      · rintro k win - hk ⟨hl, hfront, hback⟩
        have hk32 : (BitVec.ofNat 32 k).toNat = k := toNat_ofNat_of_lt (by omega)
        have hsk : (r.start + BitVec.ofNat 32 k).toNat = r.start.toNat + k := by
          rw [toNat_add_of_lt (by omega), hk32]
        obtain ⟨c, hc⟩ : ∃ c, r.win[r.start.toNat + k]? = some c :=
          ⟨_, List.getElem?_eq_getElem (by omega)⟩
        rw [byteAt_eq (by omega) (by rw [hsk, hback _ (by omega), hc]), done_bind,
          setByte_eq (by omega) (by omega), ends_done, hk32, setWidth_setWidth_byte]
        refine ⟨by rw [List.length_set, hl], fun i hi => ?_, fun i hi => ?_⟩
        · by_cases hik : i = k
          · subst hik
            rw [List.getElem?_set_self (by omega), hc]
          · rw [List.getElem?_set_ne (by omega)]
            exact hfront i (by omega)
        · rw [List.getElem?_set_ne (by omega)]
          exact hback i (by omega)
      · rintro win ⟨hl, hfront, -⟩
        rw [hn] at hfront
        exact ⟨hl, hfront⟩
    · rintro win ⟨hl, hfront⟩
      refine ⟨win, rfl, hl, ?_⟩
      rw [between_zero_eq hfront, hlen, Nat.add_sub_cancel' hs]
      rfl
  · rw [if_neg fun hc => hpos ((zero_slt_iff (by omega)).mp hc)]
    have hzero : r.start = 0#32 := BitVec.eq_of_toNat_eq (by simpa using hpos)
    refine ⟨r.win, ?_, rfl, ?_⟩
    · cases r
      simp_all
    · rw [hlen, unread, hzero]
      rfl

theorem widen_sat {n need : BitVec 32} (hg : r.Grown) (hn : n.toNat ≤ r.win.length)
    (hneed : n.toNat + need.toNat ≤ 2 ^ 30) (hmore : r.win.length < n.toNat + need.toNat)
    (hfuel : 2 ^ 31 ≤ fuel) :
    Sat (fun r' => ∃ win heap, r' = { r with win := win, heap := heap } ∧ r'.Grown
        ∧ n.toNat + need.toNat ≤ win.length ∧ between win 0 n.toNat = between r.win 0 n.toNat)
      (widen A fuel r n need) := by
  obtain ⟨j, hj, hwin⟩ := hg
  have hcap : r.cap.toNat = 8192 * 2 ^ j := by
    have hpow : 2 ^ j ≤ 2 ^ 17 := Nat.pow_le_pow_right (by decide) hj
    rw [cap, toNat_arrLen (by omega), hwin]
  -- the window is not the largest yet
  have hj17 : j < 17 := by
    by_contra hge
    obtain rfl : j = 17 := by omega
    omega
  have hcap2 : (r.cap * 2#32).toNat = 8192 * 2 ^ (j + 1) := by
    have hpow : 2 ^ j ≤ 2 ^ 17 := Nat.pow_le_pow_right (by decide) hj
    have h2 : (2#32).toNat = 2 := rfl
    rw [BitVec.toNat_mul, hcap, h2, Nat.mod_eq_of_lt (by omega), pow_succ]
    omega
  have htop : 8192 * 2 ^ (j + 1) * 2 ^ (16 - j) = 2 ^ 30 := by
    rw [Nat.mul_assoc, ← pow_add, show j + 1 + (16 - j) = 17 by omega]
    rfl
  have hsum : (n + need).toNat = n.toNat + need.toNat := toNat_add_of_lt (by omega)
  rw [widen]
  refine sat_bind (double_sat_of_le (k := 16 - j) (by rw [hsum, hcap2, htop]; exact hneed)
    (by rw [hcap2, htop]; decide) (by omega)) ?_
  rintro bigger ⟨hle, i, hi, hbigger⟩
  rw [hcap2, Nat.mul_assoc, ← pow_add] at hbigger
  rw [hsum] at hle
  have hpow : 2 ^ (j + 1 + i) ≤ 2 ^ 17 := Nat.pow_le_pow_right (by decide) (by omega)
  refine sat_bind sat_array ?_
  rintro ⟨store, heap⟩ ⟨hstore, -, -⟩
  dsimp only at hstore ⊢
  refine sat_bind (Q := fun store => store.length = bigger.toNat
    ∧ ∀ i < n.toNat, store[i]? = r.win[i]?) ?_ ?_
  · refine (forLoop_range_sat (by omega) (Nat.zero_le _) (by omega)
      (fun k store => store.length = bigger.toNat ∧ ∀ i < k, store[i]? = r.win[i]?) ?_ ?_).mono ?_
    · exact ⟨by rw [hstore, List.length_replicate], fun i hi => absurd hi (Nat.not_lt_zero i)⟩
    · rintro k store - hk ⟨hl, hdone⟩
      have hk32 : (BitVec.ofNat 32 k).toNat = k := toNat_ofNat_of_lt (by omega)
      obtain ⟨c, hc⟩ : ∃ c, r.win[k]? = some c := ⟨_, List.getElem?_eq_getElem (by omega)⟩
      rw [arrGet_eq (by rw [hk32, hc]), done_bind, arrSet_eq (by omega), sat_done, hk32]
      refine ⟨by rw [List.length_set, hl], fun i hi => ?_⟩
      by_cases hik : i = k
      · subst hik
        rw [List.getElem?_set_self (by omega), hc]
      · rw [List.getElem?_set_ne (by omega)]
        exact hdone i (by omega)
    · exact fun _ h => h
  · rintro store ⟨hl, hdone⟩
    refine sat_bind (Q := fun _ => True) (sat_ofOption fun _ _ => trivial) fun heap _ => ?_
    refine sat_bind (Q := fun _ => True) (sat_require fun _ => trivial) fun _ _ => ?_
    refine ⟨store, heap, rfl, ⟨j + 1 + i, by omega, by rw [hl, hbigger]⟩, by omega, ?_⟩
    have hcopy := between_zero_eq (s := 0) (n := n.toNat) fun i hi =>
      show store[i]? = r.win[0 + i]? by rw [Nat.zero_add]; exact hdone i hi
    rw [hcopy, Nat.zero_add]

/-- What room-making leaves. -/
structure Moved (r r' : Reader σ) (n : Nat) : Prop where
  bounds : r'.Bounds
  unread : r'.unread = r.unread
  room : r'.end_.toNat + n ≤ r'.win.length
  grown : r'.Grown
  src : r'.src = r.src
  atEnd : r'.atEnd = r.atEnd
  failed : r'.failed = r.failed

theorem makeRoom_sat {need : BitVec 32} (h : r.Bounds) (hg : r.Grown)
    (hneed : r.unread.length + need.toNat ≤ 2 ^ 30) (hfuel : 2 ^ 31 ≤ fuel) :
    Sat (Moved r · need.toNat) (makeRoom A fuel r need) := by
  have he := h.end_le
  have hsize := h.size
  have hlen := h.length_unread
  have hn := h.toNat_sub
  rw [makeRoom]
  refine sat_bind (compact_ends h hfuel).sat ?_
  rintro r' ⟨win, rfl, hl, hfront⟩
  have hsum : (r.end_ - r.start + need).toNat = r.unread.length + need.toNat := by
    rw [toNat_add_of_lt (by omega), hn]
  have hcap : (Reader.cap { r with win := win, start := 0#32, end_ := r.end_ - r.start }).toNat
      = r.win.length := by
    rw [cap, toNat_arrLen (by dsimp only; omega), ← hl]
  have hiff := sle_iff (x := r.end_ - r.start + need)
    (y := Reader.cap { r with win := win, start := 0#32, end_ := r.end_ - r.start })
    (by omega) (by omega)
  rw [hsum, hcap] at hiff
  have hunread : ∀ win' : List (BitVec 8), between win' 0 r.unread.length = r.unread →
      between win' (0#32).toNat (r.end_ - r.start).toNat = r.unread := by
    intro win' hw
    rw [hn]
    exact hw
  by_cases hfit : r.unread.length + need.toNat ≤ r.win.length
  · rw [if_pos (hiff.mpr hfit)]
    refine ⟨⟨Nat.zero_le _, ?_, ?_⟩, hunread win hfront, ?_, ?_, rfl, rfl, rfl⟩
    · dsimp only
      omega
    · dsimp only
      omega
    · dsimp only
      omega
    · obtain ⟨j, hj, hwin⟩ := hg
      exact ⟨j, hj, hl.trans hwin⟩
  · rw [if_neg fun hc => hfit (hiff.mp hc)]
    have hg' : Grown { r with win := win, start := 0#32, end_ := r.end_ - r.start } := by
      obtain ⟨j, hj, hwin⟩ := hg
      exact ⟨j, hj, hl.trans hwin⟩
    refine (widen_sat hg' (by dsimp only; omega) (by omega) (by dsimp only; omega) hfuel).mono ?_
    rintro r' ⟨win', heap, rfl, hgrown, hroom, hsame⟩
    dsimp only at hroom hsame
    rw [hn] at hroom hsame
    obtain ⟨j, hj, hwin⟩ := hgrown
    have hpow : 2 ^ j ≤ 2 ^ 17 := Nat.pow_le_pow_right (by decide) hj
    refine ⟨⟨Nat.zero_le _, ?_, ?_⟩, hunread win' (hsame.trans hfront), ?_, ⟨j, hj, hwin⟩, rfl, rfl, rfl⟩
    · dsimp only
      omega
    · omega
    · dsimp only
      omega

/-- **Room that no doubling reaches is looked for without end.** -/
theorem makeRoom_diverges {need : BitVec 32} (h : r.Bounds) (hg : r.Grown)
    (hneed : 2 ^ 30 < r.unread.length + need.toNat) (hlt : r.unread.length + need.toNat < 2 ^ 31)
    (hfuel : 2 ^ 31 ≤ fuel) : makeRoom A fuel r need = outOfFuel := by
  obtain ⟨r', hr', win, rfl, hl, -⟩ := (compact_ends h hfuel).exists
  obtain ⟨j, hj, hwin⟩ := hg
  have hsum : (r.end_ - r.start + need).toNat = r.unread.length + need.toNat := by
    rw [toNat_add_of_lt (by rw [h.toNat_sub]; omega), h.toNat_sub]
  have hpow : 2 ^ j ≤ 2 ^ 17 := Nat.pow_le_pow_right (by decide) hj
  have hcap : (arrLen win).toNat = 8192 * 2 ^ j := by
    rw [toNat_arrLen (by omega), hl, hwin]
  have hpower : arrLen win * 2#32 = BitVec.ofNat 32 (2 ^ (14 + j)) := by
    have h2 : (2#32).toNat = 2 := rfl
    apply BitVec.eq_of_toNat_eq
    rw [BitVec.toNat_mul, hcap, h2, BitVec.toNat_ofNat, Nat.pow_add, Nat.mul_right_comm]
  have hbig : 2 ^ 30 < (r.end_ - r.start + need).toNat := by omega
  have hnever := sle_doubled_pow hpower hbig (by omega)
  rw [makeRoom, hr', done_bind, if_neg]
  · rw [widen, cap]
    dsimp only
    rw [double_diverges fuel hnever]
    rfl
  · rw [cap]
    dsimp only
    rw [sle_iff (by omega) (by omega), hsum, hcap]
    omega

end Reader

end Aipl.StdStream
