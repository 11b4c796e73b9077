import Aipl.Std.Str.Search

/-! # What `str.find_from` and `str.rfind` find

A place past which a long needle would reach is computed in 32 bits: if it is `2 ^ 31` or more the matching goes
on behind the end of the text.

* `Fits` — at no alignment that is tried does the needle reach that far.
* `twoWay_ends`, `twoWay_returns` — the matching is exact where that holds, and returns nothing where it does not.
* `search_exact_iff` — the two searches are exact exactly then.
-/

namespace Aipl.StdStr

open Aipl.Lib Aipl.Lib.Outcome Aipl.Lib.Words

variable {b h p : List (BitVec 8)} {rev : Bool} {start fuel : Nat}

/-- `p` occurs in `b` at `i`. -/
def OccursAt (b p : List (BitVec 8)) (i : Nat) : Prop := i + p.length ≤ b.length ∧ p <+: b.drop i

/-- The first place at or after `start`, or -1. -/
def IsFirst (b p : List (BitVec 8)) (start : Nat) (r : Int) : Prop :=
  (∃ i : Nat, r = i ∧ start ≤ i ∧ OccursAt b p i ∧ ∀ j, start ≤ j → j < i → ¬ OccursAt b p j) ∨
    (r = -1 ∧ ∀ j, start ≤ j → ¬ OccursAt b p j)

/-- The last place, or -1. -/
def IsLast (b p : List (BitVec 8)) (r : Int) : Prop :=
  (∃ i : Nat, r = i ∧ OccursAt b p i ∧ ∀ j, i < j → ¬ OccursAt b p j) ∨ (r = -1 ∧ ∀ j, ¬ OccursAt b p j)

/-- **The needle stays in reach.**  At every alignment that two-way matching tries, the place past the needle is
below `2 ^ 31`. -/
def Fits (h p : List (BitVec 8)) (rev : Bool) (start : Nat) : Prop :=
  ∀ P : Plan, P.For (letters p rev) p.length →
    ∀ a, Tried P (letters p rev) p.length (letters h rev) h.length start a → a.pos + p.length < 2 ^ 31

/-! ### Occurrences -/

theorem occursAt_iff {i : Nat} (hi : i + p.length ≤ b.length) :
    OccursAt b p i ↔ ∀ k < p.length, b.getD (i + k) 0#8 = p.getD k 0#8 := by
  rw [OccursAt, List.prefix_iff_getElem]
  constructor
  · rintro ⟨-, hle, heq⟩ k hk
    have hk' := heq k hk
    rw [List.getElem_drop] at hk'
    rw [List.getD_eq_getElem _ _ (by omega), List.getD_eq_getElem _ _ hk, hk']
  · intro heq
    refine ⟨hi, by rw [List.length_drop]; omega, fun k hk => ?_⟩
    have hk' := heq k hk
    rw [List.getD_eq_getElem _ _ (by omega), List.getD_eq_getElem _ _ hk] at hk'
    rw [List.getElem_drop, hk']

theorem letters_eq_iff {x y : List (BitVec 8)} {i j : Nat} :
    letters x false i = letters y false j ↔ x.getD i 0#8 = y.getD j 0#8 := by
  rw [letters, letters]
  exact ⟨fun h => BitVec.eq_of_toNat_eq (Int.ofNat_inj.mp h), fun h => congrArg _ (congrArg _ h)⟩

theorem letters_true {x : List (BitVec 8)} (i : Nat) : letters x true i = letters x false (x.length - 1 - i) := rfl

theorem occurs_iff {i : Nat} (hi : i + p.length ≤ b.length) :
    Occurs (letters p false) p.length (letters b false) i ↔ OccursAt b p i := by
  rw [occursAt_iff hi, Occurs]
  exact forall₂_congr fun _ _ => letters_eq_iff

/-- An occurrence in the bytes read backwards. -/
theorem occurs_rev_iff {i : Nat} (hi : i + p.length ≤ b.length) :
    Occurs (letters p true) p.length (letters b true) i ↔ OccursAt b p (b.length - p.length - i) := by
  rw [← occurs_iff (by omega)]
  have hmirror : ∀ k < p.length, letters b true (i + k)
      = letters b false (b.length - p.length - i + (p.length - 1 - k)) := by
    intro k hk
    rw [letters_true]
    congr 1
    omega
  constructor
  · intro h k hk
    have hk' := h (p.length - 1 - k) (by omega)
    rw [hmirror _ (by omega), letters_true] at hk'
    rwa [show p.length - 1 - (p.length - 1 - k) = k by omega] at hk'
  · intro h k hk
    rw [hmirror k hk, letters_true]
    exact h _ (by omega)

/-! ### Two-way matching -/

/-- What the matching finds. -/
def IsMatch (h p : List (BitVec 8)) (rev : Bool) (start : Nat) (r : Int) : Prop :=
  (∃ i : Nat, r = i ∧ start ≤ i ∧ i + p.length ≤ h.length ∧ Occurs (letters p rev) p.length (letters h rev) i ∧
      ∀ j, start ≤ j → j < i → ¬ Occurs (letters p rev) p.length (letters h rev) j) ∨
    (r = -1 ∧ ∀ j, start ≤ j → j + p.length ≤ h.length → ¬ Occurs (letters p rev) p.length (letters h rev) j)

theorem exists_plan (rev : Bool) (hp : 0 < p.length) : ∃ P : Plan, P.For (letters p rev) p.length := by
  have hcut : Ends (fun k => ∃ P : Plan, P.For (letters p rev) p.length ∧ k.Keeps P) (cut (2 * p.length + 1) p rev) :=
    cut_ends hp (Nat.lt_succ_self _)
  obtain ⟨_, -, P, hP, -⟩ := hcut.exists
  exact ⟨P, hP⟩

/-- **The matching is exact** where the needle stays in reach. -/
theorem twoWay_ends (hp : 0 < p.length) (hn : h.length < 2 ^ 31) (hstart : start ≤ h.length)
    (hfits : Fits h p rev start) (hfuel : h.length + 2 * p.length + 1 < fuel) :
    Ends (IsMatch h p rev start) (twoWay fuel h p start rev) := by
  rw [twoWay]
  refine ends_bind (cut_ends hp (by omega)) ?_
  rintro k ⟨P, hP, hk⟩
  refine iterate_ends
    (fun s => ∃ a, s = Held.of a ∧ Tried P (letters p rev) p.length (letters h rev) h.length start a) _
    (fun s => (h.length + 1 - s.pos).toNat) ?_ fuel _ ⟨⟨start, 0⟩, rfl, .refl⟩ (by dsimp only; omega)
  rintro _ ⟨a, rfl, ha⟩
  have hinv := ha.inv hP hstart
  have hsum := hfits P hP a ha
  by_cases hin : a.pos + p.length ≤ h.length
  · refine (alignRound_ends hP hk hn hin (ha.mem_lt hP) hinv.agrees (by omega)).mono ?_
    rintro r (⟨a', rfl, hs⟩ | ⟨rfl, hocc⟩)
    · have hlt := hs.lt hP
      have hle := hs.le hP
      exact ⟨⟨a', rfl, ha.tail hs⟩, by simp only [Held.of]; omega⟩
    · exact .inl ⟨a.pos, rfl, hinv.from_le, hin, hocc, hinv.passed⟩
  · rw [alignRound, Held.of]
    dsimp only
    rw [wrap_place hsum, if_neg (by omega)]
    exact .inr ⟨rfl, fun j hj hjn => hinv.passed j hj (by omega)⟩

/-- The needle would reach `2 ^ 31`, or further. -/
structure Past (h p : List (BitVec 8)) (a : Align) : Prop where
  pos : a.pos ≤ h.length
  mem : a.mem < p.length
  le : 2 ^ 31 ≤ a.pos + p.length

/-- Past the text the right part is never matched to its end. -/
theorem right_returns {a : Align} {c : Nat} (hn : h.length < 2 ^ 31) (hp : p.length < 2 ^ 31) (ha : Past h p a)
    (hc : c < p.length) :
    Returns (fun j : Int => ∃ j' : Nat, j = j' ∧ c ≤ j' ∧ j' < p.length ∧ a.pos + j' < h.length)
      (iterate (rightRound h p rev a.pos) fuel (c : Int)) := by
  obtain ⟨hpos, -, hpast⟩ := ha
  refine iterate_returns (fun j : Int => ∃ j' : Nat, j = j' ∧ c ≤ j' ∧ j' < p.length) _ ?_ fuel _ ⟨c, rfl, le_rfl, hc⟩
  rintro _ ⟨j, rfl, hj, hjl⟩
  rw [rightRound, if_pos (by omega)]
  refine returns_bind_any fun x => returns_bind (nth_returns _) fun y hy => ?_
  have hin : a.pos + j < h.length := by
    rcases Nat.lt_or_ge (a.pos + j) (2 ^ 31) with hlt | hge
    · rw [wrap_place hlt] at hy
      omega
    · have hneg := wrap_neg (a := a.pos) (b := j) (by omega) (by omega)
      omega
  split_ifs
  · exact ⟨j + 1, by omega, by omega, by omega⟩
  · exact ⟨j, rfl, hj, hjl, hin⟩

theorem alignRound_returns {P : Plan} {k : Cut} {a : Align} (hP : P.For (letters p rev) p.length) (hk : k.Keeps P)
    (hn : h.length < 2 ^ 31) (hp : p.length < 2 ^ 31) (ha : Past h p a) :
    Returns (Sum.elim (fun s => ∃ a', s = Held.of a' ∧ Past h p a') fun _ => False)
      (alignRound fuel h p rev k (Held.of a)) := by
  have hcut := hP.critical.lt
  obtain ⟨hpos, hmem, hpast⟩ := id ha
  have hneg := wrap_neg (a := a.pos) (b := p.length) (by omega) (by omega)
  rw [alignRound, Held.of]
  dsimp only
  rw [if_pos (by omega), start_eq hk]
  refine returns_bind (right_returns hn hp ha (by omega)) ?_
  rintro _ ⟨j, rfl, hj, hjl, hin⟩
  have hsum : (a.pos : Int) + (j - k.ms) = (a.pos + (j - P.cut + 1) : Nat) := by
    rw [hk.ms]
    omega
  rw [if_pos (by omega), wrap_eq (by omega) (by omega), hsum]
  refine ⟨⟨_, 0⟩, rfl, ?_, ?_, ?_⟩
  · show a.pos + (j - P.cut + 1) ≤ h.length
    omega
  · exact Nat.zero_lt_of_lt hjl
  · show 2 ^ 31 ≤ a.pos + (j - P.cut + 1) + p.length
    omega

/-- **Out of reach, the matching returns nothing**: it reads on until it reads outside the text. -/
theorem twoWay_returns (hp : 0 < p.length) (hpn : p.length < 2 ^ 31) (hn : h.length < 2 ^ 31)
    (hstart : start ≤ h.length) (hfits : ¬ Fits h p rev start) (hfuel : 2 * p.length < fuel) :
    Returns (fun _ => False) (twoWay fuel h p start rev) := by
  rw [Fits] at hfits
  push Not at hfits
  obtain ⟨P', hP', a, ha, hpast⟩ := hfits
  rw [twoWay]
  refine returns_bind (cut_ends hp hfuel).sat.returns ?_
  rintro k ⟨P, hP, hk⟩
  obtain rfl := hP.unique hP'
  refine iterate_returns (fun s => ∃ a', s = Held.of a' ∧ (Past h p a' ∨
      Tried P (letters p rev) p.length (letters h rev) h.length start a' ∧
        Relation.ReflTransGen (Shift P (letters p rev) p.length (letters h rev) h.length) a' a)) _ ?_ fuel _
    ⟨_, rfl, .inr ⟨.refl, ha⟩⟩
  have hround : ∀ a', Past h p a' → Returns (Sum.elim (fun s => ∃ a', s = Held.of a' ∧ (Past h p a' ∨
      Tried P (letters p rev) p.length (letters h rev) h.length start a' ∧
        Relation.ReflTransGen (Shift P (letters p rev) p.length (letters h rev) h.length) a' a)) fun _ => False)
      (alignRound fuel h p rev k (Held.of a')) := by
    intro a' ha'
    refine (alignRound_returns hP hk hn hpn ha').mono ?_
    rintro (s | i) hs
    · obtain ⟨a'', rfl, ha''⟩ := hs
      exact ⟨a'', rfl, .inl ha''⟩
    · exact hs
  rintro _ ⟨a', rfl, ha' | ⟨htried, hreach⟩⟩
  · exact hround a' ha'
  · rcases hreach.cases_head with rfl | ⟨a'', hs, hreach⟩
    · exact hround a' ⟨(htried.inv hP hstart).le, htried.mem_lt hP, hpast⟩
    · refine (alignRound_ends hP hk hn hs.fits (htried.mem_lt hP) (htried.inv hP hstart).agrees
        (by omega)).sat.returns.mono ?_
      rintro r (⟨b, rfl, hs'⟩ | ⟨rfl, hocc⟩)
      · obtain rfl := hs.unique hs'
        exact ⟨a'', rfl, .inr ⟨htried.tail hs, hreach⟩⟩
      · exact hs.not_occurs hP hocc

/-! ### Short needles -/

theorem atIs_ends {i : Nat} (hi : i + p.length ≤ b.length) :
    Ends (fun r => r = true ↔ OccursAt b p i) (atIs b p i) := by
  have hbyte : ∀ k ∈ List.range p.length, (do
      let x ← load8 b ((i : Int) + (k : Nat))
      let y ← load8 p (k : Nat)
      pure (decide (x = y))) = done (decide (b.getD (i + k) 0#8 = p.getD k 0#8)) := by
    intro k hk
    have hk' := List.mem_range.mp hk
    rw [show (i : Int) + (k : Nat) = (i + k : Nat) by omega, load8_eq (by omega), load8_eq hk', done_bind, done_bind]
    exact congrArg done (decide_eq_decide.mpr letters_eq_iff)
  rw [atIs, allOf_eq hbyte, ends_done, List.all_eq_true, occursAt_iff hi]
  exact ⟨fun h k hk => of_decide_eq_true (h k (List.mem_range.mpr hk)),
    fun h k hk => decide_eq_true (h k (List.mem_range.mp hk))⟩

/-- An occurrence begins with the first byte. -/
theorem OccursAt.first {i : Nat} (hocc : OccursAt b p i) (hp : 0 < p.length) : b.getD i 0#8 = p.getD 0 0#8 :=
  (occursAt_iff hocc.1).mp hocc 0 hp

theorem findRound_ends {i : Nat} (hp : 0 < p.length) (hi : start ≤ i)
    (hpassed : ∀ j, start ≤ j → j < i → ¬ OccursAt b p j) :
    Ends (Sum.elim
        (fun i' : Int => (∃ j : Nat, i' = j ∧ start ≤ j ∧ ∀ k, start ≤ k → k < j → ¬ OccursAt b p k) ∧
          (b.length + 1 - i').toNat < (b.length + 1 - (i : Int)).toNat)
        (IsFirst b p start)) (findRound b p ((p.getD 0 0#8).toNat : Int) i) := by
  rw [findRound]
  by_cases hin : i + p.length ≤ b.length
  · rw [if_pos (by omega), load8_eq (by omega), done_bind]
    have hfound : Ends (fun r => r = true ↔ OccursAt b p i)
        (if ((b.getD i 0#8).toNat : Int) = ((p.getD 0 0#8).toNat : Int) then atIs b p i else pure false) := by
      split_ifs with hfirst
      · exact atIs_ends hin
      · refine ⟨fun h => absurd h Bool.false_ne_true, fun hocc => absurd ?_ hfirst⟩
        rw [hocc.first hp]
    refine ends_bind hfound fun r hr => ?_
    cases r with
    | true => exact .inl ⟨i, rfl, hi, hr.mp rfl, hpassed⟩
    | false =>
      have hnot : ¬ OccursAt b p i := fun hocc => Bool.false_ne_true (hr.mpr hocc)
      refine ⟨⟨i + 1, by simp, by omega, fun k hk hki => ?_⟩, by omega⟩
      rcases Nat.lt_succ_iff_lt_or_eq.mp hki with hki | rfl
      · exact hpassed k hk hki
      · exact hnot
  · rw [if_neg (by omega)]
    refine .inr ⟨rfl, fun j hj hocc => ?_⟩
    have hle := hocc.1
    exact hpassed j hj (by omega) hocc

theorem rfindRound_ends {j : Nat} (hpassed : ∀ i, b.length < i + p.length + j → ¬ OccursAt b p i) :
    Ends (Sum.elim
        (fun j' : Int => (∃ k : Nat, j' = k ∧ ∀ i, b.length < i + p.length + k → ¬ OccursAt b p i) ∧
          (b.length + 1 - j').toNat < (b.length + 1 - (j : Int)).toNat)
        (IsLast b p)) (rfindRound b p j) := by
  rw [rfindRound]
  by_cases hin : j + p.length ≤ b.length
  · have hidx : (b.length : Int) - p.length - j = (b.length - p.length - j : Nat) := by omega
    rw [if_pos (by omega), hidx]
    refine ends_bind (atIs_ends (by omega)) fun r hr => ?_
    cases r with
    | true => exact .inl ⟨_, rfl, hr.mp rfl, fun i hi => hpassed i (by omega)⟩
    | false =>
      have hnot : ¬ OccursAt b p (b.length - p.length - j) := fun hocc => Bool.false_ne_true (hr.mpr hocc)
      refine ⟨⟨j + 1, by simp, fun i hi => ?_⟩, by omega⟩
      rcases Nat.lt_or_ge b.length (i + p.length + j) with hlt | hge
      · exact hpassed i hlt
      · obtain rfl : i = b.length - p.length - j := by omega
        exact hnot
  · rw [if_neg (by omega)]
    refine .inr ⟨rfl, fun i hocc => ?_⟩
    have hle := hocc.1
    exact hpassed i (by omega) hocc

/-! ### The searches -/

/-- The length past which a needle is found by two-way matching. -/
theorem findFrom_long {s : Int} (hp : 64 < p.length) (h0 : 0 ≤ s) (hs : s ≤ b.length) :
    findFrom fuel b p s = twoWay fuel b p s false := by
  rw [findFrom, decide_eq_true ⟨h0, hs⟩, if_neg (by omega), if_pos hp]
  rfl

theorem rfind_long (hp : 64 < p.length) : rfind fuel b p = twoWay fuel b p 0 true >>= fun r =>
    pure (if r < 0 then -1 else (b.length : Int) - p.length - r) := by
  rw [rfind, if_neg (by omega), if_pos hp]

theorem findFrom_short (hp : p.length ≤ 64) (hstart : start ≤ b.length) (hfuel : b.length + 1 < fuel) :
    Ends (IsFirst b p start) (findFrom fuel b p start) := by
  rw [findFrom, decide_eq_true ⟨Int.natCast_nonneg start, Int.ofNat_le.mpr hstart⟩]
  show Ends _ (if p.length = 0 then _ else _)
  by_cases hzero : p.length = 0
  · rw [if_pos hzero]
    refine .inl ⟨start, rfl, le_rfl, (occursAt_iff (by omega)).mpr fun k hk => by omega, fun j hj hj' => by omega⟩
  · rw [if_neg hzero, if_neg (by omega), show (0 : Int) = (0 : Nat) from rfl, load8_eq (by omega), done_bind]
    refine iterate_ends (fun i : Int => ∃ j : Nat, i = j ∧ start ≤ j ∧ ∀ k, start ≤ k → k < j → ¬ OccursAt b p k) _
      (fun i => (b.length + 1 - i).toNat) ?_ fuel _ ⟨start, rfl, le_rfl, fun k hk hk' => by omega⟩ (by omega)
    rintro _ ⟨i, rfl, hi, hpassed⟩
    exact findRound_ends (by omega) hi hpassed

theorem rfind_short (hp : p.length ≤ 64) (hfuel : b.length + 1 < fuel) : Ends (IsLast b p) (rfind fuel b p) := by
  rw [rfind]
  by_cases hzero : p.length = 0
  · rw [if_pos hzero]
    refine .inl ⟨b.length, rfl, (occursAt_iff (by omega)).mpr fun k hk => by omega, fun j hj hocc => ?_⟩
    have hle := hocc.1
    omega
  · rw [if_neg hzero, if_neg (by omega)]
    refine iterate_ends (fun j : Int => ∃ k : Nat, j = k ∧ ∀ i, b.length < i + p.length + k → ¬ OccursAt b p i) _
      (fun j => (b.length + 1 - j).toNat) ?_ fuel _ ⟨0, rfl, fun i hi hocc => ?_⟩ (by omega)
    · rintro _ ⟨j, rfl, hpassed⟩
      exact rfindRound_ends hpassed
    · have hle := hocc.1
      omega

theorem IsMatch.first {r : Int} (hr : IsMatch b p false start r) : IsFirst b p start r := by
  rcases hr with ⟨i, rfl, hi, hin, hocc, hpassed⟩ | ⟨rfl, hnone⟩
  · exact .inl ⟨i, rfl, hi, (occurs_iff hin).mp hocc, fun j hj hji hocc' => hpassed j hj hji ((occurs_iff hocc'.1).mpr hocc')⟩
  · exact .inr ⟨rfl, fun j hj hocc => hnone j hj hocc.1 ((occurs_iff hocc.1).mpr hocc)⟩

/-- The first match read backwards is the last one. -/
theorem IsMatch.last {r : Int} (hr : IsMatch b p true 0 r) :
    IsLast b p (if r < 0 then -1 else (b.length : Int) - p.length - r) := by
  have hmirror : ∀ j, OccursAt b p j →
      Occurs (letters p true) p.length (letters b true) (b.length - p.length - j) := by
    intro j hocc
    have hle := hocc.1
    rw [occurs_rev_iff (by omega)]
    rwa [show b.length - p.length - (b.length - p.length - j) = j by omega]
  rcases hr with ⟨i, rfl, -, hin, hocc, hpassed⟩ | ⟨rfl, hnone⟩
  · rw [if_neg (by omega)]
    refine .inl ⟨b.length - p.length - i, by omega, (occurs_rev_iff hin).mp hocc, fun j hj hocc' => ?_⟩
    have hle := hocc'.1
    exact hpassed _ (Nat.zero_le _) (by omega) (hmirror j hocc')
  · rw [if_pos (by omega)]
    refine .inr ⟨rfl, fun j hocc => ?_⟩
    have hle := hocc.1
    exact hnone _ (Nat.zero_le _) (by omega) (hmirror j hocc)

/-- A needle that occurs: no alignment past the occurrence is tried. -/
theorem fits_of_occurs {i : Nat} (hn : h.length < 2 ^ 31) (hstart : start ≤ h.length) (hi : start ≤ i)
    (hin : i + p.length ≤ h.length) (hocc : Occurs (letters p rev) p.length (letters h rev) i) :
    Fits h p rev start := by
  intro P hP a ha
  have hle := ha.le_of_occurs hP hstart hi hocc
  omega

/-- A needle that would reach too far at once. -/
theorem not_fits (hp : 0 < p.length) (hlen : 2 ^ 31 ≤ start + p.length) : ¬ Fits h p rev start := by
  obtain ⟨P, hP⟩ := exists_plan rev hp
  intro hfits
  have hlt : start + p.length < 2 ^ 31 := hfits P hP ⟨start, 0⟩ .refl
  omega

theorem findFrom_iff (hb : b.length < 2 ^ 31) (hp : p.length < 2 ^ 31) (hstart : start ≤ b.length)
    (hfuel : b.length + 2 * p.length + 1 < fuel) :
    Ends (IsFirst b p start) (findFrom fuel b p start) ↔ (64 < p.length → Fits b p false start) := by
  rcases Nat.lt_or_ge 64 p.length with hlong | hshort
  · rw [findFrom_long hlong (Int.natCast_nonneg start) (Int.ofNat_le.mpr hstart)]
    refine ⟨fun hends _ => ?_, fun hfits => ?_⟩
    · by_contra hfits
      obtain ⟨r, hr, -⟩ := hends.exists
      exact (twoWay_returns (by omega) hp hb hstart hfits (by omega)).of_eq_done hr
    · exact (twoWay_ends (by omega) hb hstart (hfits hlong) hfuel).mono fun r hr => hr.first
  · exact ⟨fun _ hlong => absurd hlong (Nat.not_lt.mpr hshort), fun _ => findFrom_short hshort hstart (by omega)⟩

theorem rfind_iff (hb : b.length < 2 ^ 31) (hp : p.length < 2 ^ 31) (hfuel : b.length + 2 * p.length + 1 < fuel) :
    Ends (IsLast b p) (rfind fuel b p) ↔ (64 < p.length → Fits b p true 0) := by
  rcases Nat.lt_or_ge 64 p.length with hlong | hshort
  · rw [rfind_long hlong]
    refine ⟨fun hends _ => ?_, fun hfits => ?_⟩
    · by_contra hfits
      have hnone : Returns (fun _ => False) (twoWay fuel b p (0 : Nat) true) :=
        twoWay_returns (by omega) hp hb (Nat.zero_le _) hfits (by omega)
      obtain ⟨r, hr, -⟩ := hends.exists
      obtain ⟨r', hr', -⟩ := bind_eq_done hr
      exact hnone.of_eq_done hr'
    · have hmatch : Ends (IsMatch b p true 0) (twoWay fuel b p (0 : Nat) true) :=
        twoWay_ends (by omega) hb (Nat.zero_le _) (hfits hlong) hfuel
      exact ends_bind hmatch fun r hr => hr.last
  · exact ⟨fun _ hlong => absurd hlong (Nat.not_lt.mpr hshort), fun _ => rfind_short hshort (by omega)⟩

/-- **Substring search is exact** where a long needle stays in reach, and only there: elsewhere bytes outside the
text are read. -/
theorem search_exact_iff (b p : List (BitVec 8)) (start fuel : Nat) (hb : b.length < 2 ^ 31) (hp : p.length < 2 ^ 31)
    (hstart : start ≤ b.length) (hfuel : b.length + 2 * p.length + 1 < fuel) :
    (Ends (IsFirst b p start) (findFrom fuel b p start) ↔ (64 < p.length → Fits b p false start)) ∧
      (Ends (IsLast b p) (rfind fuel b p) ↔ (64 < p.length → Fits b p true 0)) :=
  ⟨findFrom_iff hb hp hstart hfuel, rfind_iff hb hp hfuel⟩

/-- Seventy bytes in seventy: the needle is found at once. -/
theorem search_exact_seventy :
    (Ends (IsFirst (List.replicate 70 0#8) (List.replicate 70 0#8) 0)
        (findFrom 300 (List.replicate 70 0#8) (List.replicate 70 0#8) (0 : Nat)) ↔
      (64 < (List.replicate 70 0#8).length → Fits (List.replicate 70 0#8) (List.replicate 70 0#8) false 0)) ∧
      (Ends (IsLast (List.replicate 70 0#8) (List.replicate 70 0#8))
          (rfind 300 (List.replicate 70 0#8) (List.replicate 70 0#8)) ↔
        (64 < (List.replicate 70 0#8).length → Fits (List.replicate 70 0#8) (List.replicate 70 0#8) true 0)) :=
  search_exact_iff _ _ 0 300 (by simp) (by simp) (by simp) (by simp)

/-- **A needle as long as the text, sought at its end**, where the two lengths add up to `2 ^ 31`: the sum is
negative, and the matching begins behind the text. -/
theorem findFrom_past_end (hb : b.length < 2 ^ 31) (hlong : 64 < b.length) (hlen : 2 ^ 31 ≤ b.length + b.length)
    (hfuel : b.length + 2 * b.length + 1 < fuel) : ¬ Ends (IsFirst b b b.length) (findFrom fuel b b b.length) := by
  rw [findFrom_iff hb hb le_rfl hfuel]
  exact fun h => not_fits (by omega) hlen (h hlong)

/-- So it is for `2 ^ 30` bytes. -/
theorem findFrom_not_exact : ¬ ∀ (b p : List (BitVec 8)) (start fuel : Nat), b.length < 2 ^ 31 → p.length < 2 ^ 31 →
    start ≤ b.length → b.length + 2 * p.length + 1 < fuel → Ends (IsFirst b p start) (findFrom fuel b p start) := by
  intro h
  obtain ⟨b, hlen⟩ : ∃ b : List (BitVec 8), b.length = 2 ^ 30 := ⟨List.replicate (2 ^ 30) 0#8, List.length_replicate⟩
  exact findFrom_past_end (by omega) (by omega) (by omega) (Nat.lt_succ_self _)
    (h b b b.length (b.length + 2 * b.length + 2) (by omega) (by omega) le_rfl (by omega))

end Aipl.StdStr
