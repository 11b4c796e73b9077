import Mathlib.Order.Basic
import Mathlib.Data.Nat.ModEq
import Mathlib.Order.Defs.Unbundled

/-! # Library — periods and greatest suffixes of a word

A word is a function of the places below its length.  Where it is cut at the later of its greatest suffixes for
an order and for the converse, whatever recurs around the cut is a period of the whole word.  Nothing here names
a program.

* `Period`, `Repeats` — a period of a stretch of a word, and a repetition about a place.
* `Greatest` — where the greatest suffix begins; `Greatest.unique`.
* `Scan` — how far the search for it has come: `Scan.same`, `Scan.smaller`, `Scan.larger`, `Scan.greatest`.
* `Greatest.period_of_repeats` — the critical factorization.
-/

namespace Aipl.Lib.Words

variable {α : Type} {r : α → α → Prop} {p : Nat → α} {l n lo hi d c s t i q m x : Nat}

/-! ### Periods -/

/-- From `lo` to `hi`, a letter is the one `d` places further on. -/
def Period (p : Nat → α) (lo hi d : Nat) : Prop := ∀ x, lo ≤ x → x + d < hi → p x = p (x + d)

theorem Period.mul (h : Period p lo hi d) (k : Nat) : Period p lo hi (k * d) := by
  intro x hx hlt
  induction k with
  | zero => simp
  | succ k ih =>
    have hnext : x + (k + 1) * d = x + k * d + d := by rw [Nat.succ_mul, Nat.add_assoc]
    rw [hnext] at hlt ⊢
    rw [ih (by omega), h _ (by omega) hlt]

theorem Period.of_dvd (h : Period p lo hi d) (hd : d ∣ s) : Period p lo hi s := by
  obtain ⟨k, rfl⟩ := hd
  rw [Nat.mul_comm]
  exact h.mul k

/-- Places that differ by a multiple of a period have one letter. -/
theorem Period.eq (h : Period p lo hi d) (hs : lo ≤ s) (hst : s ≤ t) (ht : t < hi) (hd : d ∣ t - s) :
    p s = p t := by
  have heq := h.of_dvd hd s hs (by omega)
  rwa [Nat.add_sub_cancel' hst] at heq

theorem Period.mono (h : Period p lo hi d) (hlo : lo ≤ s) (hhi : t ≤ hi) : Period p s t d :=
  fun x hx hlt => h x (Nat.le_trans hlo hx) (Nat.lt_of_lt_of_le hlt hhi)

/-! ### Suffixes -/

/-- The suffixes of the first `n` letters at `s` and `t` differ, and where they first do, that at `s` has the
smaller letter. -/
def Below (r : α → α → Prop) (p : Nat → α) (n s t : Nat) : Prop :=
  ∃ m, s + m < n ∧ t + m < n ∧ (∀ x < m, p (s + x) = p (t + x)) ∧ r (p (s + m)) (p (t + m))

/-- The suffix at `i` is the greatest: another one is below it, or begins it. -/
def Greatest (r : α → α → Prop) (p : Nat → α) (l i : Nat) : Prop :=
  i < l ∧ ∀ s < l, s ≠ i → Below r p l s i ∨ (i < s ∧ Period p i l (s - i))

theorem Below.mono (h : Below r p n s t) (hle : n ≤ l) : Below r p l s t := by
  obtain ⟨m, hs, ht, heq, hr⟩ := h
  exact ⟨m, Nat.lt_of_lt_of_le hs hle, Nat.lt_of_lt_of_le ht hle, heq, hr⟩

theorem Below.trans [IsTrans α r] (h : Below r p n s t) (h' : Below r p n t i) : Below r p n s i := by
  obtain ⟨m, hs, ht, heq, hr⟩ := h
  obtain ⟨k, ht', hi, heq', hr'⟩ := h'
  rcases Nat.lt_trichotomy m k with hlt | rfl | hlt
  · refine ⟨m, hs, by omega, fun x hx => (heq x hx).trans (heq' x (by omega)), ?_⟩
    rwa [← heq' m hlt]
  · exact ⟨m, hs, hi, fun x hx => (heq x hx).trans (heq' x hx), trans_of r hr hr'⟩
  · refine ⟨k, by omega, hi, fun x hx => (heq x (by omega)).trans (heq' x hx), ?_⟩
    rwa [heq k hlt]

/-- Two suffixes are not each below the other. -/
theorem Below.asymm [Std.Asymm r] (h : Below r p n s t) (h' : Below r p l t s) : False := by
  obtain ⟨m, -, -, heq, hr⟩ := h
  obtain ⟨k, -, -, heq', hr'⟩ := h'
  rcases Nat.lt_trichotomy m k with hlt | rfl | hlt
  · rw [heq' m hlt] at hr
    exact asymm_of r hr hr
  · exact asymm_of r hr hr'
  · rw [heq k hlt] at hr'
    exact asymm_of r hr' hr'

/-- A suffix that begins another is not below it. -/
theorem Below.not_period [Std.Irrefl r] (h : Below r p l s i) (his : i < s) : ¬ Period p i l (s - i) := by
  obtain ⟨m, hs, -, -, hr⟩ := h
  intro hp
  rw [hp (i + m) (by omega) (by omega), show i + m + (s - i) = s + m by omega] at hr
  exact irrefl_of r _ hr

theorem Below.not_period' [Std.Irrefl r] (h : Below r p l s i) (hsi : s < i) : ¬ Period p s l (i - s) := by
  obtain ⟨m, -, hi, -, hr⟩ := h
  intro hp
  rw [hp (s + m) (by omega) (by omega), show s + m + (i - s) = i + m by omega] at hr
  exact irrefl_of r _ hr

/-- A word has one greatest suffix. -/
theorem Greatest.unique [Std.Irrefl r] [Std.Asymm r] (h : Greatest r p l i) (h' : Greatest r p l s) : i = s := by
  by_contra hne
  rcases h.2 s h'.1 (Ne.symm hne) with hsi | ⟨his, hp⟩ <;> rcases h'.2 i h.1 hne with his' | ⟨hsi', hp'⟩
  · exact hsi.asymm his'
  · exact hsi.not_period' hsi' hp'
  · exact his'.not_period' his hp
  · omega

/-! ### The search for the greatest suffix -/

/-- The suffix at `i` is the greatest of those that begin by then, the word has been read to `i + q + m`, the
period so far is `d`, and the last `m` letters agree with those from `i`. -/
structure Scan (r : α → α → Prop) (p : Nat → α) (l i q m d : Nat) : Prop where
  dvd : d ∣ q
  pos : 0 < q
  lt : m < d
  le : i + q + m ≤ l
  period : Period p i (i + q + m) d
  root : ∀ t, 0 < t → t < d → Below r p (i + q + m) (i + t) i
  before : ∀ s < i, Below r p l s i

theorem Scan.init (hl : 0 < l) : Scan r p l 0 1 0 1 where
  dvd := dvd_rfl
  pos := Nat.one_pos
  lt := Nat.one_pos
  le := hl
  period x _ hlt := by omega
  root t h0 hlt := by omega
  before s hs := by omega

/-- The suffix at `s` begins as that at `i` does for `k` letters, or has a smaller letter before. -/
def Upto (r : α → α → Prop) (p : Nat → α) (k s i : Nat) : Prop :=
  (∀ x < k, p (s + x) = p (i + x)) ∨ ∃ m < k, (∀ x < m, p (s + x) = p (i + x)) ∧ r (p (s + m)) (p (i + m))

/-- The place in the root that stands for `s`. -/
theorem modEq_root (d : Nat) (hs : i ≤ s) : i + (s - i) % d ≡ s [MOD d] := by
  have hmod : i + (s - i) % d ≡ i + (s - i) [MOD d] := (Nat.mod_modEq _ _).add_left i
  rwa [Nat.add_sub_cancel' hs] at hmod

section Scan

variable (h : Scan r p l i q m d)

include h

/-- Letters a multiple of the period apart. -/
theorem Scan.letter (hs : i ≤ s) (hse : s < i + q + m) (ht : i ≤ t) (hte : t < i + q + m)
    (hst : s ≡ t [MOD d]) : p s = p t := by
  rcases Nat.le_total s t with hle | hle
  · exact h.period.eq hs hle hte ((Nat.modEq_iff_dvd' hle).mp hst)
  · exact (h.period.eq ht hle hse ((Nat.modEq_iff_dvd' hle).mp hst.symm)).symm

theorem Scan.dvd_le : d ≤ q := Nat.le_of_dvd h.pos h.dvd

theorem Scan.root_lt : (s - i) % d < d := Nat.mod_lt _ (Nat.zero_lt_of_lt h.lt)

/-- A later suffix, as far as the word has been read. -/
theorem Scan.upto {k : Nat} (hs : i ≤ s) (hk : s + k ≤ i + q + m) : Upto r p k s i := by
  have hroot := modEq_root d hs
  have hlt := h.root_lt (s := s)
  have hdq := h.dvd_le
  have hletter : ∀ x, s + x < i + q + m → p (s + x) = p (i + (s - i) % d + x) := by
    intro x hx
    have hle : (s - i) % d ≤ s - i := Nat.mod_le _ _
    exact h.letter (by omega) hx (by omega) (by omega) (hroot.symm.add_right x)
  rcases Nat.eq_zero_or_pos ((s - i) % d) with hzero | hpos
  · rw [hzero] at hletter
    exact .inl fun x hx => hletter x (by omega)
  · obtain ⟨m', hm, -, heq, hr⟩ := h.root _ hpos hlt
    rcases Nat.lt_or_ge m' k with hlt' | hge
    · refine .inr ⟨m', hlt', fun x hx => ?_, ?_⟩
      · rw [hletter x (by omega), heq x hx]
      · rwa [hletter m' (by omega)]
    · refine .inl fun x hx => ?_
      rw [hletter x (by omega), heq x (by omega)]

/-- A later suffix that agrees up to where the word has been read: the letter that the period calls for next is
not greater than the one at the same place of the suffix at `i`. -/
theorem Scan.next [Std.Irrefl r] {k : Nat} (hs : i < s) (hk : s + k = i + q + m)
    (hagree : ∀ x < k, p (s + x) = p (i + x)) : p (i + m) = p (i + k) ∨ r (p (i + m)) (p (i + k)) := by
  have hroot := modEq_root d hs.le
  have hlt := h.root_lt (s := s)
  have hdq := h.dvd_le
  have hq := h.pos
  have hle : (s - i) % d ≤ s - i := Nat.mod_le _ _
  -- what follows the letters read is `m` letters into the root
  have hend : i + m ≡ i + (s - i) % d + k [MOD d] := by
    have hread : i + (s - i) % d + k ≡ i + q + m [MOD d] := hk ▸ hroot.add_right k
    have hcopies : i + q ≡ i + 0 [MOD d] := ((Nat.modEq_zero_iff_dvd).mpr h.dvd).add_left i
    exact (hread.trans (hcopies.add_right m)).symm
  rcases Nat.eq_zero_or_pos ((s - i) % d) with hzero | hpos
  · rw [hzero] at hend
    exact .inl (h.letter (by omega) (by omega) (by omega) (by omega) hend)
  · obtain ⟨m', hm, hm', heq, hr⟩ := h.root _ hpos hlt
    rcases Nat.lt_or_ge m' k with hlt' | hge
    · have hsame : p (i + (s - i) % d + m') = p (s + m') :=
        h.letter (by omega) hm (by omega) (by omega) (hroot.add_right m')
      rw [hsame, hagree m' hlt'] at hr
      exact absurd hr (irrefl_of r _)
    · have hletter : p (i + m) = p (i + (s - i) % d + k) :=
        h.letter (by omega) (by omega) (by omega) (by omega) hend
      rw [hletter]
      rcases Nat.lt_or_ge k m' with hlt' | hge'
      · exact .inl (heq k hlt')
      · obtain rfl : m' = k := Nat.le_antisymm hge' hge
        exact .inr hr

/-- The next letter is the one that the period calls for. -/
theorem Scan.same (heq : p (i + m) = p (i + q + m)) :
    Period p i (i + q + m + 1) d ∧ ∀ t, 0 < t → t < d → Below r p (i + q + m + 1) (i + t) i := by
  refine ⟨fun x hx hxd => ?_, fun t h0 ht => (h.root t h0 ht).mono (Nat.le_succ _)⟩
  have hdq := h.dvd_le
  have hq := h.pos
  have hm := h.lt
  rcases Nat.lt_or_ge (x + d) (i + q + m) with hlt' | hge
  · exact h.period x hx hlt'
  · obtain hxe : x + d = i + q + m := by omega
    rw [hxe, ← heq]
    refine h.letter hx (by omega) (by omega) (by omega) ?_
    have hcopies : i + q ≡ i + 0 [MOD d] := ((Nat.modEq_zero_iff_dvd).mpr h.dvd).add_left i
    have hxd' : x + d ≡ i + m [MOD d] := by
      rw [hxe]
      exact hcopies.add_right m
    simpa [Nat.ModEq] using hxd'

theorem Scan.same_end (hlt : i + q + m < l) (heq : p (i + m) = p (i + q + m)) (hm : m + 1 = d) :
    Scan r p l i (q + d) 0 d := by
  obtain ⟨hperiod, hroot⟩ := h.same heq
  have hend : i + (q + d) + 0 = i + q + m + 1 := by omega
  exact ⟨Nat.dvd_add h.dvd dvd_rfl, by omega, by omega, by omega, hend ▸ hperiod, hend ▸ hroot, h.before⟩

theorem Scan.same_more (hlt : i + q + m < l) (heq : p (i + m) = p (i + q + m)) (hm : m + 1 ≠ d) :
    Scan r p l i q (m + 1) d := by
  obtain ⟨hperiod, hroot⟩ := h.same heq
  have hmd := h.lt
  exact ⟨h.dvd, h.pos, by omega, by omega, hperiod, hroot, h.before⟩

/-- The next letter is smaller: all that has been read is the period. -/
theorem Scan.smaller [Std.Irrefl r] [IsTrans α r] (hlt : i + q + m < l) (hr : r (p (i + q + m)) (p (i + m))) :
    Scan r p l i (q + m + 1) 0 (q + m + 1) := by
  refine ⟨dvd_rfl, Nat.succ_pos _, Nat.succ_pos _, by omega, fun x hx hxd => by omega, fun t h0 ht => ?_, h.before⟩
  obtain ⟨k, hk⟩ : ∃ k, i + t + k = i + q + m := ⟨q + m - t, by omega⟩
  rcases h.upto (Nat.le_add_right i t) hk.le with hagree | ⟨m', hm', heq, hr'⟩
  · refine ⟨k, by omega, by omega, hagree, ?_⟩
    rw [hk]
    rcases h.next (by omega) hk hagree with heq | hr'
    · rwa [← heq]
    · exact trans_of r hr hr'
  · exact ⟨m', by omega, by omega, heq, hr'⟩

/-- The next letter is greater: the suffix of the letters that agreed is. -/
theorem Scan.larger [Std.Irrefl r] [IsTrans α r] (hlt : i + q + m < l) (hr : r (p (i + m)) (p (i + q + m))) :
    Scan r p l (i + q) 1 0 1 := by
  have hq := h.pos
  have hbelow : ∀ s, i ≤ s → s < i + q → Below r p l s (i + q) := by
    intro s hs hsq
    have hcopy : ∀ x < m, p (i + q + x) = p (i + x) := fun x hx =>
      (h.period.eq (Nat.le_add_right i x) (by omega) (by omega) (by
        rw [show i + q + x - (i + x) = q by omega]
        exact h.dvd)).symm
    rcases h.upto (k := m + 1) hs (by omega) with hagree | ⟨m', hm', heq, hr'⟩
    · refine ⟨m, by omega, hlt, fun x hx => (hagree x (by omega)).trans (hcopy x hx).symm, ?_⟩
      rwa [hagree m (Nat.lt_succ_self m)]
    · rcases Nat.lt_or_ge m' m with hlt' | hge
      · refine ⟨m', by omega, by omega, fun x hx => (heq x hx).trans (hcopy x (by omega)).symm, ?_⟩
        rwa [hcopy m' hlt']
      · obtain rfl : m' = m := by omega
        exact ⟨m', by omega, hlt, fun x hx => (heq x hx).trans (hcopy x hx).symm, trans_of r hr' hr⟩
  refine ⟨dvd_rfl, Nat.one_pos, Nat.one_pos, by omega, fun x hx hxd => by omega, fun t h0 ht => by omega, ?_⟩
  intro s hs
  rcases Nat.lt_or_ge s i with hsi | hsi
  · exact (h.before s hsi).trans (hbelow i le_rfl (by omega))
  · exact hbelow s hsi hs

/-- **The search is over**: the suffix is the greatest, and the period is the least one it has. -/
theorem Scan.greatest (hend : i + q + m = l) : Greatest r p l i := by
  have hq := h.pos
  refine ⟨by omega, fun s hs hsi => ?_⟩
  rcases Nat.lt_or_ge s i with hlt | hge
  · exact .inl (h.before s hlt)
  · rcases h.upto (k := l - s) hge (by omega) with hagree | ⟨m', hm', heq, hr⟩
    · refine .inr ⟨by omega, fun x hx hxs => ?_⟩
      have hx' := hagree (x - i) (by omega)
      rw [show s + (x - i) = x + (s - i) by omega, show i + (x - i) = x by omega] at hx'
      exact hx'.symm
    · exact .inl ⟨m', by omega, by omega, heq, hr⟩

theorem Scan.least_period [Std.Irrefl r] (hend : i + q + m = l) :
    Period p i l d ∧ ∀ t, 0 < t → t < d → ¬ Period p i l t := by
  refine ⟨hend ▸ h.period, fun t h0 ht hp => ?_⟩
  have hbelow := h.root t h0 ht
  rw [hend] at hbelow
  refine hbelow.not_period (by omega) ?_
  rwa [Nat.add_sub_cancel_left]

end Scan

/-! ### The critical factorization -/

/-- The letters before `c` recur after it, `s` places on, as far as the word goes either way. -/
def Repeats (p : Nat → α) (l c s : Nat) : Prop := ∀ j, c ≤ j → j < c + s → s ≤ j → j < l → p (j - s) = p j

theorem Period.repeats (h : Period p 0 l s) (c : Nat) : Repeats p l c s := by
  intro j _ _ hs hl
  have hj := h (j - s) (Nat.zero_le _) (by omega)
  rwa [Nat.sub_add_cancel hs] at hj

/-- What recurs about the greatest suffix is longer than what is before it. -/
theorem Greatest.lt_of_repeats [Std.Irrefl r] [Std.Asymm r] (h : Greatest r p l c) (hs : 0 < s)
    (hrep : Repeats p l c s) : c < s := by
  by_contra hle
  have hc := h.1
  rcases h.2 (c - s) (by omega) (by omega) with ⟨m, -, hm, heq, hr⟩ | ⟨hlt, -⟩
  · rcases Nat.lt_or_ge m s with hms | hms
    · have hrec := hrep (c + m) (by omega) (by omega) (by omega) hm
      rw [show c + m - s = c - s + m by omega] at hrec
      rw [hrec] at hr
      exact irrefl_of r _ hr
    · -- the suffix `s` further on would be greater
      have hbelow : Below r p l c (c + s) := by
        refine ⟨m - s, by omega, by omega, fun x hx => ?_, ?_⟩
        · have hxs := heq (x + s) (by omega)
          rwa [show c - s + (x + s) = c + x by omega, show c + (x + s) = c + s + x by omega] at hxs
        · rwa [show c - s + m = c + (m - s) by omega, show c + m = c + s + (m - s) by omega] at hr
      rcases h.2 (c + s) (by omega) (by omega) with hbelow' | ⟨-, hp⟩
      · exact hbelow.asymm hbelow'
      · refine hbelow.not_period' (by omega) ?_
        exact hp
  · omega

/-- **The critical factorization.**  A word cut at its greatest suffix for one order, where that for the converse
begins no later: what recurs about the cut is a period of the word. -/
theorem Greatest.period_of_repeats {r' : α → α → Prop} [Std.Irrefl r] [Std.Asymm r] [Std.Irrefl r']
    (hopp : ∀ a b, r a b → ¬ r' a b) (h : Greatest r p l c) (h' : Greatest r' p l i) (hle : i ≤ c) (hs : 0 < s)
    (hrep : Repeats p l c s) : Period p 0 l s := by
  have hcs := h.lt_of_repeats hs hrep
  intro x _ hx
  rcases Nat.lt_or_ge x c with hxc | hxc
  · have hrec := hrep (x + s) (by omega) (by omega) (by omega) hx
    rwa [Nat.add_sub_cancel] at hrec
  · rcases h.2 (c + s) (by omega) (by omega) with ⟨m, hms, hm, heq, hr⟩ | ⟨-, hp⟩
    · rcases h'.2 (i + s) (by omega) (by omega) with ⟨m', hms', hm', heq', hr'⟩ | ⟨-, hp⟩
      · -- the two suffixes `s` apart differ at one place only, for both orders
        rcases Nat.lt_or_ge (i + m') c with hlt | hge
        · have hrec := hrep (i + m' + s) (by omega) (by omega) (by omega) (by omega)
          rw [Nat.add_sub_cancel, show i + m' + s = i + s + m' by omega] at hrec
          rw [hrec] at hr'
          exact absurd hr' (irrefl_of r' _)
        · rcases Nat.lt_trichotomy (c + m) (i + m') with hlt | heqm | hlt
          · have hsame := heq' (c + m - i) (by omega)
            rw [show i + s + (c + m - i) = c + s + m by omega, show i + (c + m - i) = c + m by omega] at hsame
            rw [hsame] at hr
            exact absurd hr (irrefl_of r _)
          · rw [show i + s + m' = c + s + m by omega, ← heqm] at hr'
            exact absurd hr' (hopp _ _ hr)
          · have hsame := heq (i + m' - c) (by omega)
            rw [show c + s + (i + m' - c) = i + s + m' by omega, show c + (i + m' - c) = i + m' by omega] at hsame
            rw [hsame] at hr'
            exact absurd hr' (irrefl_of r' _)
      · rw [Nat.add_sub_cancel_left] at hp
        have hsame := hp (c + m) (by omega) (by omega)
        rw [show c + m + s = c + s + m by omega] at hsame
        rw [hsame] at hr
        exact absurd hr (irrefl_of r _)
    · rw [Nat.add_sub_cancel_left] at hp
      exact hp x hxc hx

end Aipl.Lib.Words
