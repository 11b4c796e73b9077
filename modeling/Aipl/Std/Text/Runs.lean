import Aipl.Std.Text.Walks

/-! # Splitting, joining and replacing agree

* `pushViews_endsOr`, `pushViews_past` — what a buffer takes, and what it does not.
* `split_eq`, `join_eq`, `replace_eq` — each is a fold over the pieces.
* `texts_endsOr`, `texts_returns` — what holds of the texts that can be handled, and that nothing else returns.
* `texts_exact` — both together.
-/

namespace Aipl.StdText

open Aipl.Lib Aipl.Lib.Outcome Aipl.Std Aipl.StdBytes Aipl.StdStr
open Aipl.StdBuf (Content)

variable {σ : Type} {A : Allocator σ} {fuel : Nat} {b sep to_ : Bytes} {C : Prop} {c k e : Nat} {o : Content σ} {s : Bytes}
  {l : List Bytes}

theorem foldAll_single {α β : Type} (f : β → α → Outcome β) (acc : β) (x : α) : foldAll f acc [x] = f acc x := by
  rw [foldAll]
  exact bind_pure _

/-! ### Buffers -/

/-- A buffer made with capacity `c` grows to hold `n` bytes. -/
def Fillable (c n : Nat) : Prop := ∃ k, n ≤ c * 2 ^ k ∧ c * 2 ^ k + 8 < 2 ^ 31

/-- The capacity has been doubled, at most `k` times. -/
def Made (c k : Nat) (o : Content σ) : Prop := ∃ i ≤ k, o.cap.toNat = c * 2 ^ i

theorem pushView_endsOr (ho : Made c k o) (hlt : c * 2 ^ k < 2 ^ 31) (hmem : C ∨ Plentiful A ∧ c * 2 ^ k + 8 < 2 ^ 31)
    (hle : o.bytes.length + s.length ≤ c * 2 ^ k) (hfuel : 2 ^ 31 ≤ fuel) :
    EndsOr C (fun o' => o'.bytes = o.bytes ++ s ∧ o'.bytes.length ≤ o'.cap.toNat ∧ Made c k o' ∧
      (o'.cap = o.cap ∨ o'.cap.toNat + 8 < 2 ^ 31)) (pushView A fuel o s) := by
  obtain ⟨i, hi, hcap⟩ := ho
  have hpow : o.cap.toNat * 2 ^ (k - i) = c * 2 ^ k := by
    rw [hcap, Nat.mul_assoc, ← pow_add, Nat.add_sub_cancel' hi]
  have hs := toNat_arrLen (show s.length < 2 ^ 32 by omega)
  rw [pushView]
  refine endsOr_bind (Content.ensure_endsOr (k := k - i) (hle.trans hpow.ge) (by rw [hpow]; exact hlt)
    (by rw [hpow]; exact hmem) (by rw [hs]) hfuel) ?_
  rintro o' ⟨hbytes, hroom, j, hj, hcap', hgrown⟩
  rw [hs, ← hbytes] at hroom
  refine endsOr_bind (Q := fun _ => True) (endsOr_require (fun _ => trivial) (.inr (decide_eq_true hroom))) fun _ _ => ?_
  refine ⟨by dsimp only; rw [hbytes], by dsimp only; rw [List.length_append]; exact hroom, ⟨i + j, by omega, ?_⟩, ?_⟩
  · dsimp only
    rw [hcap', hcap, Nat.mul_assoc, ← pow_add]
  · rcases hgrown with rfl | hgrown
    · rw [pow_zero, Nat.mul_one] at hcap'
      exact .inl (BitVec.eq_of_toNat_eq hcap')
    · exact .inr hgrown

/-- The bytes pushed one view after another. -/
theorem pushViews_endsOr (hlt : c * 2 ^ k < 2 ^ 31) (hmem : C ∨ Plentiful A ∧ c * 2 ^ k + 8 < 2 ^ 31)
    (hfuel : 2 ^ 31 ≤ fuel) : ∀ (ws : List Bytes) (o : Content σ), Made c k o → o.bytes.length ≤ o.cap.toNat →
      o.cap.toNat + 8 < 2 ^ 31 → o.bytes.length + ws.flatten.length ≤ c * 2 ^ k →
      EndsOr C (fun o' => o'.bytes = o.bytes ++ ws.flatten ∧ o'.bytes.length ≤ o'.cap.toNat ∧ Made c k o' ∧ o'.cap.toNat + 8 < 2 ^ 31)
        (foldAll (pushView A fuel) o ws)
  | [], o, ho, hle, hcap, _ => ⟨(List.append_nil _).symm, hle, ho, hcap⟩
  | w :: ws, o, ho, _, hcap, hlen => by
      rw [List.flatten_cons, List.length_append] at hlen
      rw [foldAll]
      refine endsOr_bind (pushView_endsOr ho hlt hmem (by omega) hfuel) ?_
      rintro o₁ ⟨hbytes, hroom, ho₁, hcap₁⟩
      have hsmall : o₁.cap.toNat + 8 < 2 ^ 31 := by
        rcases hcap₁ with heq | hlt
        · rw [heq]
          exact hcap
        · exact hlt
      refine (pushViews_endsOr hlt hmem hfuel ws o₁ ho₁ hroom hsmall ?_).mono ?_
      · rw [hbytes, List.length_append]
        omega
      · rintro o₂ ⟨hbytes₂, h⟩
        refine ⟨?_, h⟩
        rw [hbytes₂, hbytes, List.flatten_cons, List.append_assoc]

/-- A buffer that began with 64 bytes takes no more than 2^30. -/
theorem pushViews_past (hfuel : 2 ^ 31 ≤ fuel) : ∀ (ws : List Bytes) (o : Content σ), (∀ w ∈ ws, w.length < 2 ^ 31) → Made 64 24 o →
    o.bytes.length ≤ 2 ^ 30 → 2 ^ 30 < o.bytes.length + ws.flatten.length → Returns (fun _ => False) (foldAll (pushView A fuel) o ws)
  | [], o, _, _, hle, hlt => absurd hlt (by rw [List.flatten_nil, List.length_nil]; omega)
  | w :: ws, o, hw, ho, hle, hlt => by
      have hshort := hw w List.mem_cons_self
      rw [List.flatten_cons, List.length_append] at hlt
      rw [foldAll]
      rcases Nat.lt_or_ge (2 ^ 30) (o.bytes.length + w.length) with hbig | hfit
      · obtain ⟨i, hi, hcap⟩ := ho
        have hpow : o.cap.toNat = 2 ^ (6 + i) := by rw [hcap, pow_add]; rfl
        have hs := toNat_arrLen (show w.length < 2 ^ 32 by omega)
        rcases Nat.lt_or_ge (o.bytes.length + w.length) (2 ^ 31) with hsmall | hwrap
        · rw [pushView, Content.ensure_diverges hpow (by rw [hs]; exact hbig) (by rw [hs]; exact hsmall)]
          trivial
        · -- what is needed wraps, and the bytes would be put outside the array
          have hlen := Content.toNat_len (b := o) (by omega)
          have hneed : (o.len + arrLen w).toNat = o.bytes.length + w.length := by
            rw [toNat_add_of_lt (by omega), hlen, hs]
          have hmost : 2 ^ (6 + i) ≤ 2 ^ 30 := Nat.pow_le_pow_right (by decide) (by omega)
          have hsle : (o.len + arrLen w).sle o.cap = true := by
            rw [BitVec.sle_eq_decide, decide_eq_true_eq, BitVec.toInt_eq_toNat_cond, BitVec.toInt_eq_toNat_cond, if_neg (by omega),
              if_pos (by omega)]
            omega
          rw [pushView, Content.ensure, if_pos hsle, pure_eq, done_bind, require, if_neg (by simp; omega)]
          trivial
      · refine returns_bind (endsOr_true.mp (pushView_endsOr (k := 24) ho (by decide) (.inl trivial) hfit hfuel)).returns ?_
        rintro o₁ ⟨hbytes, -, ho₁, -⟩
        have hlen := congrArg List.length hbytes
        rw [List.length_append] at hlen
        exact pushViews_past hfuel ws o₁ (fun w' h => hw w' (List.mem_cons_of_mem _ h)) ho₁ (by omega) (by omega)

/-- A buffer made, and filled. -/
theorem filled_endsOr {heap : σ} {capacity : BitVec 32} {ws : List Bytes} (hc : capacity.toNat = c) (h16 : 16 ≤ c)
    (hfill : Fillable c ws.flatten.length) (hmem : C ∨ Plentiful A) (hfuel : 2 ^ 31 ≤ fuel) :
    EndsOr C (fun o => o.bytes = ws.flatten)
      (Content.make A heap capacity >>= fun o => foldAll (pushView A fuel) o ws) := by
  obtain ⟨k, hk, hlt⟩ := hfill
  have hpos : c ≤ c * 2 ^ k := Nat.le_mul_of_pos_right _ (Nat.two_pow_pos k)
  have hint := toInt_eq_toNat (show capacity.toNat < 2 ^ 31 by omega)
  refine endsOr_bind (Content.make_endsOr (hmem.imp_right fun h => ⟨h, by omega⟩)) fun o ⟨hbytes, hcap⟩ => ?_
  have hlarge : capacity.slt 16#32 = false := by
    have h16' : (16#32).toInt = 16 := rfl
    rw [BitVec.slt_eq_decide, decide_eq_false_iff_not, hint, h16']
    omega
  rw [hlarge, if_neg Bool.false_ne_true] at hcap
  refine (pushViews_endsOr (by omega) (hmem.imp_right fun h => ⟨h, hlt⟩) hfuel ws o ⟨0, Nat.zero_le _, ?_⟩ ?_ ?_ ?_).mono
    fun o' ⟨hbytes', _⟩ => ?_
  · rw [hcap, hc, pow_zero, Nat.mul_one]
  · rw [hbytes]
    exact Nat.zero_le _
  · rw [hcap]
    omega
  · rw [hbytes, List.length_nil]
    omega
  · rw [hbytes', hbytes, List.nil_append]

/-- Doubling comes between `2 ^ 30` and `2 ^ 31`. -/
theorem exists_doubling (hpos : 0 < c) (hlt : c < 2 ^ 31) : ∃ k, 2 ^ 30 ≤ c * 2 ^ k ∧ c * 2 ^ k < 2 ^ 31 := by
  induction hn : 2 ^ 31 - c using Nat.strong_induction_on generalizing c with
  | _ n ih =>
    rcases Nat.lt_or_ge c (2 ^ 30) with hsmall | hlarge
    · obtain ⟨k, hk, hk'⟩ := ih (2 ^ 31 - 2 * c) (by omega) (c := 2 * c) (by omega) (by omega) rfl
      have hpow : c * 2 ^ (k + 1) = 2 * c * 2 ^ k := by rw [pow_succ', ← Nat.mul_assoc, Nat.mul_comm c 2]
      exact ⟨k + 1, by omega, by omega⟩
    · exact ⟨0, by omega, by omega⟩

/-- A buffer that was filled could be. -/
theorem filled_sat {heap : σ} {capacity : BitVec 32} {ws : List Bytes} (hc : capacity.toNat = c) (h16 : 16 ≤ c) (hsmall : c + 8 < 2 ^ 31)
    (hlen : ws.flatten.length ≤ 2 ^ 30) (hfuel : 2 ^ 31 ≤ fuel) :
    Sat (fun o => o.bytes = ws.flatten ∧ Fillable c ws.flatten.length)
      (Content.make A heap capacity >>= fun o => foldAll (pushView A fuel) o ws) := by
  obtain ⟨k, hk, hlt⟩ := exists_doubling (c := c) (by omega) (by omega)
  have hint := toInt_eq_toNat (show capacity.toNat < 2 ^ 31 by omega)
  refine sat_bind (endsOr_true.mp (Content.make_endsOr (.inl trivial))) fun o ⟨hbytes, hcap⟩ => ?_
  have hlarge : capacity.slt 16#32 = false := by
    have h16' : (16#32).toInt = 16 := rfl
    rw [BitVec.slt_eq_decide, decide_eq_false_iff_not, hint, h16']
    omega
  rw [hlarge, if_neg Bool.false_ne_true] at hcap
  refine (endsOr_true.mp (pushViews_endsOr (k := k) hlt (.inl trivial) hfuel ws o ⟨0, Nat.zero_le _, ?_⟩ ?_ ?_ ?_)).mono
    fun o' ⟨hbytes', hroom, ⟨i, _, hcap'⟩, hless⟩ => ?_
  · rw [hcap, hc, pow_zero, Nat.mul_one]
  · rw [hbytes]
    exact Nat.zero_le _
  · rw [hcap]
    omega
  · rw [hbytes, List.length_nil]
    omega
  · rw [hbytes, List.nil_append] at hbytes'
    rw [hbytes'] at hroom
    exact ⟨hbytes', i, by omega, by omega⟩

/-! ### The vec of pieces -/

/-- The vec began with room for eight pieces, and has room for `2 ^ 26` at most. -/
def Sized (v : Vec σ Bytes) : Prop := ∃ j ≤ 23, v.cap.toNat = 8 * 2 ^ j

theorem Sized.le {v : Vec σ Bytes} (h : Sized v) : v.cap.toNat ≤ 2 ^ 26 := by
  obtain ⟨j, hj, hcap⟩ := h
  have hpow : 2 ^ j ≤ 2 ^ 23 := Nat.pow_le_pow_right (by decide) hj
  omega

theorem pushPieces_endsOr : ∀ (l : List Bytes) (v : Vec σ Bytes), v.Ok → Sized v →
    (C ∨ Plentiful A ∧ v.elems.length + l.length ≤ 2 ^ 26) →
    EndsOr C (fun v' => v'.Ok ∧ v'.elems = v.elems ++ l ∧ Sized v') (foldAll (Vec.push A view) v l)
  | [], v, hok, hsized, _ => ⟨hok, (List.append_nil _).symm, hsized⟩
  | x :: l, v, hok, hsized, hmem => by
      rw [List.length_cons] at hmem
      obtain ⟨j, hj, hcap⟩ := hsized
      have h16 : view.size.toInt = 16 := by decide
      have hpow : ∀ i ≤ 23, 2 ^ i ≤ 2 ^ 23 := fun i hi => Nat.pow_le_pow_right (by decide) hi
      rw [foldAll]
      refine endsOr_bind (Vec.push_endsOr hok x (hmem.imp_right fun hm => ⟨hm.1, by rw [h16]; decide, fun hfull => ?_⟩)) ?_
      · have hj22 : j ≤ 22 := by
          by_contra hgt
          obtain rfl : j = 23 := by omega
          omega
        have hpow22 : 2 ^ j ≤ 2 ^ 22 := Nat.pow_le_pow_right (by decide) hj22
        rw [h16]
        omega
      · rintro v' ⟨hok', helems, hgrown⟩
        have hsized' : Sized v' := by
          rcases hgrown with heq | ⟨heq, hlt⟩
          · exact ⟨j, hj, by rw [heq, hcap]⟩
          · rw [h16] at hlt
            have hj22 : j + 1 ≤ 23 := by
              by_contra hgt
              obtain rfl : j = 23 := by omega
              omega
            exact ⟨j + 1, hj22, by rw [heq, hcap, pow_succ']; omega⟩
        refine (pushPieces_endsOr l v' hok' hsized' (hmem.imp_right fun hm => ⟨hm.1, ?_⟩)).mono ?_
        · rw [helems, List.length_append, List.length_singleton]
          omega
        · rintro v'' ⟨hok'', helems'', h⟩
          refine ⟨hok'', ?_, h⟩
          rw [helems'', helems, List.append_assoc]
          rfl

section

variable (hsep : 0 < sep.length) (hb : b.length < 2 ^ 31) (hlong : sep.length < 2 ^ 31) (hfuel : 2 ^ 33 ≤ fuel)

include hsep hb hlong hfuel

/-- **`split`** pushes the pieces. -/
theorem split_endsOr {heap : σ} (h : Pieces b sep 0 l e) (hreach : InReach b sep e) (hmem : C ∨ Plentiful A ∧ l.length ≤ 2 ^ 26) :
    EndsOr C (fun v => v.Ok ∧ v.elems = l ∧ l.length ≤ 2 ^ 26) (split A fuel heap b sep) := by
  have hcount := h.count_le hsep (Nat.zero_le _)
  have hend := h.le_length (Nat.zero_le _)
  have h16 : view.size.toInt = 16 := by decide
  have h8 : (8#32).toInt = 8 := rfl
  rw [split, require, if_pos (decide_eq_true hsep), done_bind]
  refine endsOr_bind (Vec.make_endsOr (hmem.imp_right fun hm => ⟨hm.1, by rw [h16]; decide, by rw [h8]; decide, by rw [h16, h8]; decide⟩)) ?_
  rintro v ⟨hok, helems, hcap⟩
  have hsized : Sized v := ⟨0, Nat.zero_le _, by rw [hcap]; rfl⟩
  have hpushed := pushPieces_endsOr (A := A) l v hok hsized (hmem.imp_right fun hm => ⟨hm.1, by rw [helems, List.length_nil]; omega⟩)
  have heach := each_eq (Vec.push A view) hb hlong (show b.length + 2 * sep.length + 1 < fuel by omega) h hreach (Nat.zero_le _) v
    (show l.length ≤ fuel by omega)
  have hlast : slice b e (b.length - e) = done (b.drop e) := by
    rw [slice_eq (by omega), List.take_of_length_le (by rw [List.length_drop])]
  have hrun : (findFrom fuel b sep 0 >>= fun i => iterate (eachRound fuel b sep (Vec.push A view)) fuel (v, 0, i) >>= fun s =>
      slice b s.2 (b.length - s.2) >>= fun piece => s.1.push A view piece) = foldAll (Vec.push A view) v l := by
    rw [← bind_assoc, show (0 : Int) = ((0 : Nat) : Int) from rfl, heach, bind_assoc]
    conv_rhs => rw [h.getLast, foldAll_append]
    congr 1
    funext v'
    rw [done_bind, hlast, done_bind, foldAll_single]
  refine (show EndsOr C _ _ from hrun ▸ hpushed).mono ?_
  rintro v' ⟨hok', helems', hsized'⟩
  rw [helems, List.nil_append] at helems'
  have hroom := hok'.le
  have hmost := hsized'.le
  rw [helems'] at hroom
  exact ⟨hok', helems', by omega⟩

/-- A separator that goes out of reach is sought for ever. -/
theorem split_past {heap : σ} (h : Pieces b sep 0 l e) (hreach : ¬ InReach b sep e) :
    Returns (fun _ => False) (split A fuel heap b sep) := by
  rw [split]
  refine returns_bind_any fun _ => returns_bind_any fun v => ?_
  have hpast := each_past (Vec.push A view) hb hlong (show b.length + 2 * sep.length + 1 < fuel by omega) h hreach (Nat.zero_le _) v
    (m := fuel)
  have hrun : Returns (fun _ : Vec σ Bytes => False) (_ >>= fun s : Vec σ Bytes × Nat =>
      slice b s.2 (b.length - s.2) >>= fun piece => s.1.push A view piece) := returns_bind hpast fun s hfalse => hfalse.elim
  rw [bind_assoc] at hrun
  exact hrun

/-- **`replace`** pushes the pieces, and what they are replaced with between them. -/
theorem replace_eq (h : Pieces b sep 0 l e) (hreach : InReach b sep e) (heap : σ) (to_ : Bytes) :
    replace A fuel heap b sep to_ = (Content.make A heap (arrLen b + 16#32) >>= fun o => foldAll (pushView A fuel) o (l.intersperse to_)) := by
  have hcount := h.count_le hsep (Nat.zero_le _)
  have hend := h.le_length (Nat.zero_le _)
  have hlast : slice b e (b.length - e) = done (b.drop e) := by
    rw [slice_eq (by omega), List.take_of_length_le (by rw [List.length_drop])]
  have hpairs : ∀ (ps : List Bytes) (o : Content σ), foldAll (fun out piece => do
      let out ← pushView A fuel out piece
      pushView A fuel out to_) o ps = foldAll (pushView A fuel) o (ps.flatMap fun p => [p, to_]) := fun ps => by
    induction ps with
    | nil => exact fun _ => rfl
    | cons p ps ih =>
      intro o
      rw [foldAll, List.flatMap_cons, List.cons_append, List.singleton_append, foldAll, bind_assoc]
      congr 1
      funext o₁
      rw [foldAll]
      congr 1
      funext o₂
      exact ih o₂
  rw [replace, require, if_pos (decide_eq_true hsep), done_bind]
  congr 1
  funext o
  have heach := each_eq (fun out piece => do
      let out ← pushView A fuel out piece
      pushView A fuel out to_) hb hlong (show b.length + 2 * sep.length + 1 < fuel by omega) h hreach (Nat.zero_le _) o
    (show l.length ≤ fuel by omega)
  rw [← bind_assoc, show (0 : Int) = ((0 : Nat) : Int) from rfl, heach, bind_assoc, hpairs]
  conv_rhs => rw [h.getLast, intersperse_concat, foldAll_append]
  congr 1
  funext o'
  rw [done_bind]
  dsimp only
  rw [hlast, done_bind, foldAll_single]

end

/-- **`join`** pushes the parts, and the separator between them. -/
theorem join_eq {parts : Vec σ Bytes} (hok : parts.Ok) (heap : σ) (to_ : Bytes) :
    join A fuel heap parts to_ = (Content.make A heap 64#32 >>= fun o => foldAll (pushView A fuel) o (parts.elems.intersperse to_)) := by
  have hlen := hok.toNat_len
  have hle := hok.le
  have hlt := hok.lt
  have hrange : ∀ (k : Nat) (o : Content σ), k ≤ parts.elems.length → foldAll (joinRound A fuel parts to_) o (List.range k) =
      foldAll (pushView A fuel) o ((parts.elems.take k).intersperse to_) := fun k => by
    induction k with
    | zero => exact fun _ _ => rfl
    | succ k ih =>
      intro o hk
      obtain ⟨part, hpart⟩ : ∃ part, parts.elems[k]? = some part := ⟨_, List.getElem?_eq_getElem hk⟩
      have hk32 : (BitVec.ofNat 32 k).toNat = k := Nat.mod_eq_of_lt (by omega)
      have hat : parts.at_ (BitVec.ofNat 32 k) = done part := Vec.at_eq hok (by rw [hk32]; exact hpart)
      rw [List.range_succ, foldAll_append, ih o (by omega), List.take_add_one, hpart, Option.toList_some]
      cases k with
      | zero =>
        have hround : ∀ o, joinRound A fuel parts to_ o 0 = pushView A fuel o part := fun o => by
          rw [joinRound, if_neg (lt_irrefl 0), pure_eq, done_bind, hat, done_bind]
        rw [List.take_zero, List.nil_append, List.intersperse_nil, List.intersperse_singleton, foldAll_single, foldAll, done_bind,
          foldAll_single, hround]
      | succ k =>
        obtain ⟨last, hlast⟩ : ∃ last, parts.elems[k]? = some last := ⟨_, List.getElem?_eq_getElem (by omega)⟩
        have hround : ∀ o, joinRound A fuel parts to_ o (k + 1) = foldAll (pushView A fuel) o [to_, part] := fun o => by
          rw [joinRound, if_pos (Nat.succ_pos k), hat, foldAll]
          simp only [done_bind, foldAll_single]
        have hlonger : (parts.elems.take (k + 1) ++ [part]).intersperse to_ = (parts.elems.take (k + 1)).intersperse to_ ++ [to_, part] := by
          rw [intersperse_concat, List.take_add_one, hlast, Option.toList_some, intersperse_concat, List.flatMap_append]
          simp
        rw [hlonger, foldAll_append]
        congr 1
        funext o'
        rw [foldAll_single, hround]
  rw [join]
  congr 1
  funext o
  rw [hlen, hrange _ o le_rfl, List.take_length]

section

variable {parts : Vec σ Bytes} (hok : parts.Ok) (heap : σ) (hfuel : 2 ^ 33 ≤ fuel)

include hok hfuel

variable (to_) in
theorem join_endsOr (hle : (parts.elems.intersperse to_).flatten.length ≤ 2 ^ 30) (hmem : C ∨ Plentiful A) :
    EndsOr C (fun o => o.bytes = (parts.elems.intersperse to_).flatten) (join A fuel heap parts to_) := by
  rw [join_eq hok]
  exact filled_endsOr rfl (by decide) ⟨24, hle, by decide⟩ hmem (by omega)

theorem join_returns (hshort : ∀ part ∈ parts.elems, part.length < 2 ^ 31) (hto : to_.length < 2 ^ 31) :
    Returns (fun _ => (parts.elems.intersperse to_).flatten.length ≤ 2 ^ 30) (join A fuel heap parts to_) := by
  rw [join_eq hok]
  rcases Nat.lt_or_ge (2 ^ 30) (parts.elems.intersperse to_).flatten.length with hbig | hfit
  · refine returns_bind (endsOr_true.mp (Content.make_endsOr (.inl trivial))).returns fun o ⟨hbytes, hcap⟩ => ?_
    have hmade : Made 64 24 o := ⟨0, Nat.zero_le _, by rw [hcap]; rfl⟩
    have hempty : o.bytes.length = 0 := by rw [hbytes, List.length_nil]
    refine (pushViews_past (by omega) _ o (fun w hw => ?_) hmade (by omega) (by omega)).mono fun _ h => h.elim
    rcases mem_intersperse hw with rfl | hw
    · exact hto
    · exact hshort w hw
  · exact (returns_bind_any fun _ => Returns.mono (Q := fun _ => True) (by cases foldAll _ _ _ <;> trivial) fun _ _ => hfit)

end

/-! ### All four -/

/-- What splitting, joining and replacing have to do with each other. -/
structure Agree (b sep : Bytes) (r : Texts) : Prop where
  joined : r.joined = b
  rejoined : r.rejoined = r.replaced
  count : r.pieces.length = r.count + 1
  first : ∀ piece ∈ r.pieces.dropLast, ∀ k < piece.length, ¬ OccursAt (piece ++ sep) sep k

/-- A text, with pieces `l`, that the buffers can hold, and a separator that stays in reach. -/
structure HandledAs (b sep to_ : Bytes) (l : List Bytes) (e : Nat) : Prop where
  pieces : Pieces b sep 0 l e
  reach : InReach b sep e
  short : b.length ≤ 2 ^ 30
  replaced : (l.intersperse to_).flatten.length ≤ 2 ^ 30
  fillable : Fillable (b.length + 16) (l.intersperse to_).flatten.length

def Handled (b sep to_ : Bytes) : Prop := ∃ l e, HandledAs b sep to_ l e

/-- The vec can hold the pieces too. -/
def Storable (b sep to_ : Bytes) : Prop := ∃ l e, HandledAs b sep to_ l e ∧ l.length ≤ 2 ^ 26

section

variable (hsep : 0 < sep.length) (hb : b.length < 2 ^ 31) (hlong : sep.length < 2 ^ 31) (hto : to_.length < 2 ^ 31)
  (hfuel : 2 ^ 33 ≤ fuel) (heap : σ)

include hsep hb hlong hfuel

theorem texts_endsOr (h : HandledAs b sep to_ l e) (hmem : C ∨ Plentiful A ∧ l.length ≤ 2 ^ 26) :
    EndsOr C (Agree b sep) (texts A fuel heap b sep to_) := by
  have hplenty : C ∨ Plentiful A := hmem.imp_right And.left
  have hflatten : (l.intersperse sep).flatten = b := by
    rw [h.pieces.flatten, List.drop_zero]
  have hlast := congrArg List.length h.pieces.getLast
  rw [List.length_append, List.length_singleton] at hlast
  have hcount := h.pieces.count_le hsep (Nat.zero_le _)
  have hshort := h.short
  rw [texts]
  refine endsOr_bind (split_endsOr hsep hb hlong hfuel h.pieces h.reach hmem) fun pieces ⟨hok, helems, _⟩ => ?_
  refine endsOr_bind (join_endsOr sep hok _ hfuel (by rw [helems, hflatten]; exact hshort) hplenty) fun joined hjoined => ?_
  refine endsOr_bind (join_endsOr to_ hok _ hfuel (by rw [helems]; exact h.replaced) hplenty) fun rejoined hrejoined => ?_
  rw [replace_eq hsep hb hlong hfuel h.pieces h.reach]
  have hcap : (arrLen b + 16#32).toNat = b.length + 16 := by
    have harr := toNat_arrLen (show b.length < 2 ^ 32 by omega)
    rw [BitVec.toNat_add, harr]
    exact Nat.mod_eq_of_lt (by simp; omega)
  refine endsOr_bind (filled_endsOr hcap (by omega) h.fillable hplenty (by omega)) fun replaced hreplaced => ?_
  have hcounted : count fuel b sep = done l.dropLast.length := by
    have hwalk := count_eq hb hlong (show b.length + 2 * sep.length + 1 < fuel by omega) h.pieces h.reach (Nat.zero_le _) 0
      (show l.length ≤ fuel by omega)
    rw [Nat.zero_add] at hwalk
    rw [count, require, if_pos (decide_eq_true hsep), done_bind]
    exact hwalk
  rw [hcounted, done_bind]
  rw [helems] at hjoined hrejoined
  refine ⟨hjoined.trans hflatten, hrejoined.trans hreplaced.symm, ?_, ?_⟩
  · dsimp only
    rw [helems, hlast]
  · dsimp only
    rw [helems]
    exact h.pieces.first

include hto

theorem texts_returns : Returns (fun _ => Storable b sep to_) (texts A fuel heap b sep to_) := by
  obtain ⟨l, e, hpieces⟩ := Pieces.exists_of (b := b) hsep b.length 0 (Nat.zero_add _).symm
  by_cases hreach : InReach b sep e
  · have hparts : ∀ part ∈ l, part.length < 2 ^ 31 := fun part hpart => (hpieces.length_le part hpart).trans_lt hb
    rw [texts]
    refine returns_bind (endsOr_true.mp (split_endsOr hsep hb hlong hfuel hpieces hreach (.inl trivial))).returns
      fun pieces ⟨hok, helems, hfew⟩ => ?_
    refine returns_bind (join_returns hok _ hfuel (by rw [helems]; exact hparts) hlong) fun joined hjoined => ?_
    refine returns_bind (join_returns hok _ hfuel (by rw [helems]; exact hparts) hto) fun rejoined hrejoined => ?_
    rw [helems, hpieces.flatten, List.drop_zero] at hjoined
    rw [helems] at hrejoined
    rw [replace_eq hsep hb hlong hfuel hpieces hreach]
    have hcap : (arrLen b + 16#32).toNat = b.length + 16 := by
      have harr := toNat_arrLen (show b.length < 2 ^ 32 by omega)
      rw [BitVec.toNat_add, harr]
      exact Nat.mod_eq_of_lt (by simp; omega)
    refine returns_bind (filled_sat hcap (by omega) (by omega) hrejoined (by omega)).returns fun replaced ⟨_, hfill⟩ => ?_
    refine returns_bind_any fun n => ?_
    exact ⟨l, e, ⟨hpieces, hreach, hjoined, hrejoined, hfill⟩, hfew⟩
  · exact returns_bind (split_past hsep hb hlong hfuel hpieces hreach) fun _ h => h.elim

/-- **They agree** on the texts the buffers can hold, when the separator stays in reach; and nothing else is returned. -/
theorem texts_exact (A : Allocator σ) : (Handled b sep to_ → Sat (Agree b sep) (texts A fuel heap b sep to_)) ∧
    (Plentiful A → (Ends (Agree b sep) (texts A fuel heap b sep to_) ↔ Storable b sep to_)) := by
  refine ⟨fun ⟨l, e, h⟩ => ?_, fun hmem => ⟨fun hends => ?_, fun ⟨l, e, h, hfew⟩ => ?_⟩⟩
  · exact endsOr_true.mp (texts_endsOr hsep hb hlong hfuel heap h (.inl trivial))
  · obtain ⟨r, hr, -⟩ := hends.exists
    have hreturns := texts_returns (A := A) hsep hb hlong hto hfuel heap
    rw [hr] at hreturns
    exact hreturns
  · exact endsOr_false.mp (texts_endsOr hsep hb hlong hfuel heap h (.inr ⟨hmem, hfew⟩))

end

/-- In "aaa" there is one "aa". -/
theorem texts_overlapping : Ends (Agree [97#8, 97#8, 97#8] [97#8, 97#8])
    (texts Allocator.ample (2 ^ 33) () [97#8, 97#8, 97#8] [97#8, 97#8] [98#8]) := by
  have hfirst : First [97#8, 97#8, 97#8] [97#8, 97#8] 0 0 :=
    ⟨le_rfl, ⟨by decide, by decide⟩, fun j _ hj => absurd hj (Nat.not_lt_zero j)⟩
  have hnone : ∀ j, 2 ≤ j → ¬ OccursAt [97#8, 97#8, 97#8] [97#8, 97#8] j := fun j hj hocc => by
    have hle : j + 2 ≤ 3 := hocc.1
    omega
  have hpieces : Pieces [97#8, 97#8, 97#8] [97#8, 97#8] 0 [[], [97#8]] 2 := .more hfirst (.last hnone)
  have hhandled : HandledAs [97#8, 97#8, 97#8] [97#8, 97#8] [98#8] [[], [97#8]] 2 :=
    ⟨hpieces, fun hlong => absurd hlong (by decide), by decide, by decide, ⟨0, by decide, by decide⟩⟩
  exact ((texts_exact (by decide) (by decide) (by decide) (by decide) (le_refl (2 ^ 33)) () Allocator.ample).2
    ⟨fun _ _ => rfl, fun _ _ => rfl⟩).mpr ⟨_, _, hhandled, by decide⟩

/-- A text of 2^30 + 1 bytes is not joined again: its length is never reached by doubling. -/
theorem texts_refuted : ¬ ∀ b sep to_ : Bytes, b.length < 2 ^ 31 → 0 < sep.length → sep.length < 2 ^ 31 → to_.length < 2 ^ 31 →
    Ends (Agree b sep) (texts Allocator.ample (2 ^ 33) () b sep to_) := by
  intro h
  obtain ⟨n, hn⟩ : ∃ n, n = 2 ^ 30 + 1 := ⟨_, rfl⟩
  have hlen : (List.replicate n 0#8).length = n := List.length_replicate
  have hends := h (List.replicate n 0#8) [1#8] [] (by omega) (by decide) (by decide) (by decide)
  obtain ⟨r, hr, -⟩ := hends.exists
  have hreturns : Returns (fun _ => Storable (List.replicate n 0#8) [1#8] []) (texts Allocator.ample (2 ^ 33) () (List.replicate n 0#8) [1#8] []) :=
    texts_returns (by decide) (by omega) (by decide) (by decide) le_rfl ()
  rw [hr] at hreturns
  obtain ⟨l, e, hhandled, -⟩ := hreturns
  have hshort := hhandled.short
  omega

end Aipl.StdText
