import Aipl.Lib.Factorization
import Mathlib.Logic.Relation

/-! # Library — two-way matching

Which alignments of a word against a text are tried: the right part of the word is compared left to right, then
the left part, and a mismatch moves the alignment on.  Nothing here names a program.

* `Plan.For` — where a word is cut, and what a mismatch of its left part moves by; `Plan.For.unique`.
* `Shift` — one alignment, and the next; `Shift.no_occurrence`, `Shift.agrees`.
* `Tried`, `Tried.inv` — the alignments tried from a place on, and what holds at each.
-/

namespace Aipl.Lib.Words

variable {α : Type} {p h : Nat → α} {l n c d t j pos : Nat}

/-- The word is in the text at `i`. -/
def Occurs (p : Nat → α) (l : Nat) (h : Nat → α) (i : Nat) : Prop := ∀ x < l, h (i + x) = p x

structure LeastPeriod (p : Nat → α) (lo hi d : Nat) : Prop where
  pos : 0 < d
  period : Period p lo hi d
  least : ∀ t, 0 < t → t < d → ¬ Period p lo hi t

theorem LeastPeriod.unique {lo hi : Nat} (h : LeastPeriod p lo hi c) (h' : LeastPeriod p lo hi d) : c = d := by
  rcases Nat.lt_trichotomy c d with hlt | heq | hlt
  · exact absurd h.period (h'.least c h.pos hlt)
  · exact heq
  · exact absurd h'.period (h.least d h'.pos hlt)

theorem LeastPeriod.le {lo hi : Nat} (h : LeastPeriod p lo hi d) (hlt : lo < hi) : lo + d ≤ hi := by
  by_contra hgt
  exact h.least (hi - lo) (by omega) (by omega) fun x hx hxd => by omega

/-- Where a word is cut, how far a mismatch of its left part moves it, and how much of it is then known to
agree. -/
structure Plan where
  cut : Nat
  step : Nat
  keep : Nat
deriving DecidableEq

/-! ### Alignments -/

/-- Where the word is held against the text, and how many of its first letters are known to agree. -/
structure Align where
  pos : Nat
  mem : Nat
deriving DecidableEq

/-- **One alignment, and the next.**  In a text of `n` letters the word does not agree at the first: a letter of
its right part is the first that differs, or only letters of its left part do. -/
inductive Shift (P : Plan) (p : Nat → α) (l : Nat) (h : Nat → α) (n : Nat) : Align → Align → Prop
  | right {a : Align} {j : Nat} (hin : a.pos + l ≤ n) (hj : max P.cut a.mem ≤ j) (hjl : j < l)
      (heq : ∀ x, max P.cut a.mem ≤ x → x < j → p x = h (a.pos + x)) (hne : p j ≠ h (a.pos + j)) :
      Shift P p l h n a ⟨a.pos + (j - P.cut + 1), 0⟩
  | left {a : Align} (hin : a.pos + l ≤ n)
      (heq : ∀ x, max P.cut a.mem ≤ x → x < l → p x = h (a.pos + x))
      (hne : ∃ x, a.mem ≤ x ∧ x < P.cut ∧ p x ≠ h (a.pos + x)) :
      Shift P p l h n a ⟨a.pos + P.step, P.keep⟩

/-- The letters known to agree do. -/
def Align.Agrees (p h : Nat → α) (a : Align) : Prop := ∀ x < a.mem, p x = h (a.pos + x)

variable {P P' : Plan} {a a' a'' : Align} {s : Nat}

theorem Shift.fits (hs : Shift P p l h n a a') : a.pos + l ≤ n := by
  cases hs with
  | right hin _ _ _ _ => exact hin
  | left hin _ _ => exact hin

/-- The next alignment is determined. -/
theorem Shift.unique (hs : Shift P p l h n a a') (hs' : Shift P p l h n a a'') : a' = a'' := by
  cases hs with
  | @right j _ hj hjl heq hne =>
    cases hs' with
    | @right j' _ hj' hjl' heq' hne' =>
      rcases Nat.lt_trichotomy j j' with hlt | rfl | hlt
      · exact absurd (heq' j hj hlt) hne
      · rfl
      · exact absurd (heq j' hj' hlt) hne'
    | left _ heq' _ => exact absurd (heq' j hj hjl) hne
  | left _ heq hne =>
    cases hs' with
    | @right j' _ hj' hjl' _ hne' => exact absurd (heq j' hj' hjl') hne'
    | left _ _ _ => rfl

/-- What agrees from the cut on, whether it was compared or known to agree. -/
theorem Align.Agrees.right (ha : a.Agrees p h) (heq : ∀ x, max c a.mem ≤ x → x < j → p x = h (a.pos + x)) :
    ∀ x, c ≤ x → x < j → p x = h (a.pos + x) := by
  intro x hx hxj
  rcases Nat.lt_or_ge x a.mem with hlt | hge
  · exact ha x hlt
  · exact heq x (max_le hx hge) hxj

/-- The word, found `t` places on, recurs about the cut as far as it agrees. -/
theorem repeats_of_occurs (heq : ∀ x, c ≤ x → x < j → p x = h (pos + x)) (hj : c + t ≤ j ∨ l ≤ j)
    (hocc : Occurs p l h (pos + t)) : Repeats p l c t := by
  intro x hcx hx htx hxl
  have hx' := hocc (x - t) (by omega)
  rw [show pos + t + (x - t) = pos + x by omega, ← heq x hcx (by omega)] at hx'
  exact hx'.symm

/-- The alignments tried from `s` on. -/
def Tried (P : Plan) (p : Nat → α) (l : Nat) (h : Nat → α) (n s : Nat) : Align → Prop :=
  Relation.ReflTransGen (Shift P p l h n) ⟨s, 0⟩

/-- **What holds at every alignment tried.** -/
structure Tried.Inv (p : Nat → α) (l : Nat) (h : Nat → α) (n s : Nat) (a : Align) : Prop where
  agrees : a.Agrees p h
  from_le : s ≤ a.pos
  le : a.pos ≤ n
  passed : ∀ i, s ≤ i → i < a.pos → ¬ Occurs p l h i

/-! ### Plans -/

variable [LinearOrder α]

/-- The later of the two greatest suffixes, for the order and for its converse. -/
def Critical (p : Nat → α) (l c : Nat) : Prop :=
  ∃ i j, Greatest (· < ·) p l i ∧ Greatest (· > ·) p l j ∧ c = max i j

/-- The plan for a word: its period, if that is the period of its right part; else what no period is under. -/
inductive Plan.For (p : Nat → α) (l : Nat) : Plan → Prop
  | periodic {c d : Nat} (hc : Critical p l c) (hd : LeastPeriod p c l d) (hp : Period p 0 l d) :
      For p l ⟨c, d, l - d⟩
  | aperiodic {c d : Nat} (hc : Critical p l c) (hd : LeastPeriod p c l d) (hp : ¬ Period p 0 l d) :
      For p l ⟨c, max c (l - c + 1), 0⟩

theorem Critical.unique (h : Critical p l c) (h' : Critical p l d) : c = d := by
  obtain ⟨i, j, hi, hj, rfl⟩ := h
  obtain ⟨i', j', hi', hj', rfl⟩ := h'
  rw [hi.unique hi', hj.unique hj']

theorem Critical.lt (h : Critical p l c) : c < l := by
  obtain ⟨i, j, hi, hj, rfl⟩ := h
  exact max_lt hi.1 hj.1

/-- What recurs about the cut is a period of the word, and is longer than what is before the cut. -/
theorem Critical.of_repeats (h : Critical p l c) (ht : 0 < t) (hrep : Repeats p l c t) :
    c < t ∧ Period p 0 l t := by
  obtain ⟨i, j, hi, hj, rfl⟩ := h
  rcases le_total i j with hle | hle
  · rw [max_eq_right hle] at hrep ⊢
    exact ⟨hj.lt_of_repeats ht hrep,
      hj.period_of_repeats (fun a b hab hba => lt_asymm hab hba) hi hle ht hrep⟩
  · rw [max_eq_left hle] at hrep ⊢
    exact ⟨hi.lt_of_repeats ht hrep,
      hi.period_of_repeats (fun a b hab hba => lt_asymm hab hba) hj hle ht hrep⟩

theorem Plan.For.unique (h : P.For p l) (h' : P'.For p l) : P = P' := by
  cases h with
  | periodic hc hd hp =>
    cases h' with
    | periodic hc' hd' hp' =>
      obtain rfl := hc.unique hc'
      obtain rfl := hd.unique hd'
      rfl
    | aperiodic hc' hd' hp' =>
      obtain rfl := hc.unique hc'
      obtain rfl := hd.unique hd'
      exact absurd hp hp'
  | aperiodic hc hd hp =>
    cases h' with
    | periodic hc' hd' hp' =>
      obtain rfl := hc.unique hc'
      obtain rfl := hd.unique hd'
      exact absurd hp' hp
    | aperiodic hc' hd' hp' =>
      obtain rfl := hc.unique hc'
      rfl

theorem Plan.For.critical (h : P.For p l) : Critical p l P.cut := by
  cases h with
  | periodic hc _ _ => exact hc
  | aperiodic hc _ _ => exact hc

theorem Plan.For.step_pos (h : P.For p l) : 0 < P.step := by
  cases h with
  | periodic _ hd _ => exact hd.pos
  | aperiodic _ _ _ => exact lt_max_of_lt_right (Nat.succ_pos _)

theorem Plan.For.step_le (h : P.For p l) : P.step ≤ l := by
  cases h with
  | periodic hc hd hp => exact le_trans (Nat.le_add_left _ _) (hd.le hc.lt)
  | @aperiodic c d hc hd hp =>
    have hlt := hc.lt
    have hpos : 0 < c := by
      rcases Nat.eq_zero_or_pos c with rfl | hpos
      · exact absurd hd.period hp
      · exact hpos
    show max c (l - c + 1) ≤ l
    omega

/-- A period of the word that the right part has room for makes the least period of that part one of the word. -/
theorem LeastPeriod.of_period (hd : LeastPeriod p c l d) (hc : Critical p l c) (ht : 0 < t) (htl : c + t ≤ l)
    (hp : Period p 0 l t) : Period p 0 l d := by
  have hct := (hc.of_repeats ht (hp.repeats c)).1
  have hmod : t % d < d := Nat.mod_lt _ hd.pos
  have hmod_le : t % d ≤ t := Nat.mod_le _ _
  have hdvd : d ∣ t := by
    by_contra hnd
    have hpos : 0 < t % d := Nat.pos_of_ne_zero fun h0 => hnd (Nat.dvd_of_mod_eq_zero h0)
    -- what is left over of `t` recurs about the cut as well
    refine hd.least _ hpos hmod ((hc.of_repeats hpos ?_).2.mono (Nat.zero_le _) le_rfl)
    intro j hcj hj hmj hjl
    rw [hp (j - t % d) (Nat.zero_le _) (by omega)]
    refine (hd.period.eq hcj (by omega) (by omega) ?_).symm
    rw [show j - t % d + t - j = t - t % d by omega]
    exact Nat.dvd_sub_mod t
  have hdt : d ≤ t := Nat.le_of_dvd ht hdvd
  intro x _ hx
  rcases Nat.lt_or_ge x c with hxc | hxc
  · rw [hp x (Nat.zero_le _) (by omega)]
    rcases Nat.lt_or_ge (x + d + t) l with hlt | hge
    · rw [hp (x + d) (Nat.zero_le _) hlt, hd.period (x + t) (by omega) (by omega),
        show x + t + d = x + d + t by omega]
    · refine (hd.period.eq (by omega) (by omega) (by omega) ?_).symm
      rw [show x + t - (x + d) = t - d by omega]
      exact Nat.dvd_sub hdvd dvd_rfl
  · exact hd.period x hxc hx

/-! ### No occurrence is missed -/

theorem Shift.lt (hP : P.For p l) (hs : Shift P p l h n a a') : a.pos < a'.pos := by
  cases hs with
  | right _ _ _ _ _ => exact Nat.lt_add_of_pos_right (Nat.succ_pos _)
  | left _ _ _ => exact Nat.lt_add_of_pos_right hP.step_pos

theorem Shift.le (hP : P.For p l) (hs : Shift P p l h n a a') : a'.pos ≤ n := by
  cases hs with
  | right hin hj hjl _ _ =>
    show a.pos + _ ≤ n
    omega
  | left hin _ _ =>
    have hstep := hP.step_le
    show a.pos + P.step ≤ n
    omega

theorem Shift.not_occurs (hP : P.For p l) (hs : Shift P p l h n a a') : ¬ Occurs p l h a.pos := by
  intro hocc
  cases hs with
  | @right j _ _ hjl _ hne => exact hne (hocc j hjl).symm
  | left _ _ hne =>
    obtain ⟨x, _, hx, hne⟩ := hne
    exact hne (hocc x (hx.trans hP.critical.lt)).symm

/-- **No occurrence is passed over.** -/
theorem Shift.no_occurrence (hP : P.For p l) (ha : a.Agrees p h) (hs : Shift P p l h n a a') :
    ∀ i, a.pos ≤ i → i < a'.pos → ¬ Occurs p l h i := by
  intro i hi hi'
  obtain ⟨t, rfl⟩ : ∃ t, i = a.pos + t := ⟨i - a.pos, by omega⟩
  intro hocc
  have hfirst := hs.not_occurs hP
  rcases Nat.eq_zero_or_pos t with rfl | ht
  · exact hfirst hocc
  cases hs with
  | @right j _ hj hjl heq hne =>
    have htj : P.cut + t ≤ j := by
      dsimp only at hi'
      omega
    have hperiod := (hP.critical.of_repeats ht (repeats_of_occurs (ha.right heq) (.inl htj) hocc)).2
    have hlast := hocc (j - t) (by omega)
    rw [hperiod (j - t) (Nat.zero_le _) (by omega), show a.pos + t + (j - t) = a.pos + j by omega,
      Nat.sub_add_cancel (by omega)] at hlast
    exact hne hlast.symm
  | left _ heq _ =>
    obtain ⟨hlt, hperiod⟩ :=
      hP.critical.of_repeats ht (repeats_of_occurs (ha.right heq) (.inr le_rfl) hocc)
    have hstep : t < P.step := by
      dsimp only at hi'
      omega
    cases hP with
    | periodic hc hd hp => exact hd.least t ht hstep (hperiod.mono (Nat.zero_le _) le_rfl)
    | @aperiodic c d hc hd hp =>
      dsimp only at hlt hstep
      exact hp (hd.of_period hc ht (by have := hc.lt; omega) hperiod)

/-- What is remembered of one alignment holds at the next. -/
theorem Shift.agrees (hP : P.For p l) (ha : a.Agrees p h) (hs : Shift P p l h n a a') : a'.Agrees p h := by
  cases hs with
  | right _ _ _ _ _ =>
    intro x hx
    exact absurd hx (Nat.not_lt_zero x)
  | left _ heq _ =>
    have hright := ha.right heq
    intro x hx
    cases hP with
    | @periodic c d hc hd hp =>
      dsimp only at hx hright ⊢
      have hcd := (hc.of_repeats hd.pos (hp.repeats c)).1
      rw [hp x (Nat.zero_le _) (by omega), hright (x + d) (by omega) (by omega)]
      congr 1
      omega
    | aperiodic _ _ _ => exact absurd hx (Nat.not_lt_zero x)

/-- Less than the word is remembered. -/
theorem Shift.mem_lt (hP : P.For p l) (hs : Shift P p l h n a a') : a'.mem < l := by
  cases hs with
  | right _ _ hjl _ _ => exact Nat.zero_lt_of_lt hjl
  | left _ _ _ =>
    cases hP with
    | periodic hc hd _ => exact Nat.sub_lt (Nat.zero_lt_of_lt hc.lt) hd.pos
    | aperiodic hc _ _ => exact Nat.zero_lt_of_lt hc.lt

theorem Tried.mem_lt (hP : P.For p l) (ha : Tried P p l h n s a) : a.mem < l := by
  cases ha with
  | refl => exact Nat.zero_lt_of_lt hP.critical.lt
  | tail _ hs => exact hs.mem_lt hP

theorem Tried.Inv.step (hP : P.For p l) (ha : Tried.Inv p l h n s a) (hs : Shift P p l h n a a') :
    Tried.Inv p l h n s a' where
  agrees := hs.agrees hP ha.agrees
  from_le := ha.from_le.trans (hs.lt hP).le
  le := hs.le hP
  passed i hi hi' := by
    rcases Nat.lt_or_ge i a.pos with hlt | hge
    · exact ha.passed i hi hlt
    · exact hs.no_occurrence hP ha.agrees i hge hi'

theorem Tried.inv (hP : P.For p l) (hsn : s ≤ n) (ha : Tried P p l h n s a) : Tried.Inv p l h n s a := by
  induction ha with
  | refl => exact ⟨fun x hx => absurd hx (Nat.not_lt_zero x), le_rfl, hsn, fun i hi hi' => absurd hi' (Nat.not_lt.mpr hi)⟩
  | tail _ hs ih => exact ih.step hP hs

/-- No alignment tried is past an occurrence. -/
theorem Tried.le_of_occurs (hP : P.For p l) (hsn : s ≤ n) (ha : Tried P p l h n s a) {i : Nat} (hi : s ≤ i)
    (hocc : Occurs p l h i) : a.pos ≤ i := by
  by_contra hlt
  exact (ha.inv hP hsn).passed i hi (by omega) hocc

end Aipl.Lib.Words
