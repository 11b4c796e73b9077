import Mathlib.Data.Nat.Digits.Lemmas
import Mathlib.Tactic.Ring

/-! # Library — the digits a division loop makes, and the number a reading loop does

A loop that writes remainders makes a number's digits, the lowest first, and makes one for zero.  A loop that
reads digits, the highest first, makes their number.  Nothing here names a program.

* `remainders` — the digits made; `left` — those still to be made.
* `left_eq_cons` — one round; `length_remainders_le` — how many there are.
* `number` — the number of digits read; `number_le_append` — more digits make no smaller number.
* `number_inj` — the digits are determined by their number and how many they are.
-/

namespace Aipl.Lib.Numeral

/-- The digits of `u`, lowest first; zero has one. -/
def remainders (base u : Nat) : List Nat := u % base :: Nat.digits base (u / base)

/-- The digits to be made of `v`, by a loop that makes one in its first round in any case. -/
def left (base : Nat) (first : Bool) (v : Nat) : List Nat :=
  if first then remainders base v else Nat.digits base v

theorem remainders_of_pos {base u : Nat} (hb : 1 < base) (hu : 0 < u) :
    remainders base u = Nat.digits base u := (Nat.digits_def' hb hu).symm

@[simp] theorem left_first (base v : Nat) : left base true v = remainders base v := rfl

@[simp] theorem left_later (base v : Nat) : left base false v = Nat.digits base v := rfl

/-- **One round** makes one digit and leaves the rest. -/
theorem left_eq_cons {base v : Nat} {first : Bool} (hb : 1 < base) (h : first = true ∨ v ≠ 0) :
    left base first v = v % base :: left base false (v / base) := by
  cases first with
  | true => rfl
  | false =>
    have hv : 0 < v := Nat.pos_of_ne_zero (h.resolve_left (by simp))
    exact Nat.digits_def' hb hv

theorem left_eq_nil {base v : Nat} {first : Bool} (hf : first = false) (hv : v = 0) :
    left base first v = [] := by
  subst hf hv
  exact Nat.digits_zero base

theorem length_remainders_le {base u k : Nat} (hb : 1 < base) (hu : u < base ^ (k + 1)) :
    (remainders base u).length ≤ k + 1 := by
  have hdiv : u / base < base ^ k := by
    rw [Nat.div_lt_iff_lt_mul (by omega), ← pow_succ]
    exact hu
  have := (Nat.digits_length_le_iff hb (u / base)).mpr hdiv
  simpa [remainders] using this

/-! ### Reading -/

/-- The number of digits, the highest first. -/
def number (base : Nat) (ds : List Nat) : Nat := ds.foldl (fun n d => base * n + d) 0

@[simp] theorem number_nil (base : Nat) : number base [] = 0 := rfl

/-- **One more digit**. -/
theorem number_concat (base : Nat) (ds : List Nat) (d : Nat) :
    number base (ds ++ [d]) = base * number base ds + d := by
  rw [number, List.foldl_append]
  rfl

theorem number_le_append {base : Nat} (hb : 0 < base) (ds es : List Nat) :
    number base ds ≤ number base (ds ++ es) := by
  induction es using List.reverseRecOn with
  | nil => simp
  | append_singleton es e ih =>
    rw [← List.append_assoc, number_concat]
    calc number base ds ≤ number base (ds ++ es) := ih
      _ ≤ base * number base (ds ++ es) := Nat.le_mul_of_pos_left _ hb
      _ ≤ base * number base (ds ++ es) + e := Nat.le_add_right _ _

theorem number_take_mono {base : Nat} (hb : 0 < base) (ds : List Nat) {j k : Nat} (h : j ≤ k) :
    number base (ds.take j) ≤ number base (ds.take k) := by
  obtain ⟨m, rfl⟩ := Nat.exists_eq_add_of_le h
  rw [List.take_add]
  exact number_le_append hb _ _

theorem number_append (base : Nat) (ds es : List Nat) :
    number base (ds ++ es) = number base ds * base ^ es.length + number base es := by
  induction es using List.reverseRecOn with
  | nil => simp
  | append_singleton es e ih =>
    rw [← List.append_assoc, number_concat, number_concat, ih, List.length_append, List.length_singleton, pow_succ]
    ring

theorem number_cons (base d : Nat) (ds : List Nat) :
    number base (d :: ds) = d * base ^ ds.length + number base ds := by
  have happend := number_append base [d] ds
  rwa [List.singleton_append, show number base [d] = d by simp [number]] at happend

theorem number_lt {base : Nat} {ds : List Nat} (h : ∀ d ∈ ds, d < base) : number base ds < base ^ ds.length := by
  induction ds with
  | nil => simp
  | cons d ds ih =>
    have hlt := ih fun x hx => h x (List.mem_cons_of_mem _ hx)
    have hd := Nat.mul_le_mul_right (base ^ ds.length) (Nat.succ_le_of_lt (h d List.mem_cons_self))
    rw [number_cons, List.length_cons, pow_succ']
    rw [Nat.succ_mul] at hd
    omega

/-- **So many digits of a number** are determined by it. -/
theorem number_inj {base : Nat} : ∀ {ds es : List Nat}, ds.length = es.length → (∀ d ∈ ds, d < base) →
    (∀ e ∈ es, e < base) → number base ds = number base es → ds = es
  | [], [], _, _, _, _ => rfl
  | d :: ds, e :: es, hlen, hds, hes, h => by
    have hlen' := Nat.succ.inj hlen
    have hd := number_lt fun x hx => hds x (List.mem_cons_of_mem _ hx)
    have he := number_lt fun x hx => hes x (List.mem_cons_of_mem _ hx)
    rw [number_cons, number_cons, ← hlen'] at h
    rw [← hlen'] at he
    have hfst : d = e := by
      have hdiv := congrArg (· / base ^ ds.length) h
      have hpos := Nat.zero_lt_of_lt hd
      rwa [Nat.add_comm, Nat.add_mul_div_right _ _ hpos, Nat.div_eq_of_lt hd, Nat.zero_add, Nat.add_comm,
        Nat.add_mul_div_right _ _ hpos, Nat.div_eq_of_lt he, Nat.zero_add] at hdiv
    subst hfst
    rw [number_inj hlen' (fun x hx => hds x (List.mem_cons_of_mem _ hx)) (fun x hx => hes x (List.mem_cons_of_mem _ hx))
      (Nat.add_left_cancel h)]

/-- A digit, read off the number. -/
theorem number_digit {base i : Nat} {ds : List Nat} (h : ∀ d ∈ ds, d < base) (hi : i < ds.length) :
    number base ds / base ^ (ds.length - 1 - i) % base = ds[i] := by
  have hd := h _ (List.getElem_mem hi)
  have hlow : number base (ds.drop (i + 1)) < base ^ (ds.length - 1 - i) := by
    have hlt : number base (ds.drop (i + 1)) < base ^ (ds.drop (i + 1)).length :=
      number_lt fun d hd => h d (List.mem_of_mem_drop hd)
    rwa [List.length_drop, show ds.length - (i + 1) = ds.length - 1 - i by omega] at hlt
  have hsplit : number base ds =
      (number base (ds.take i) * base + ds[i]) * base ^ (ds.length - 1 - i) + number base (ds.drop (i + 1)) := by
    have hds : ds = ds.take i ++ ([ds[i]] ++ ds.drop (i + 1)) := by
      rw [List.singleton_append, ← List.drop_eq_getElem_cons hi, List.take_append_drop]
    conv_lhs => rw [hds]
    rw [← List.append_assoc, number_append, number_concat, List.length_drop, Nat.mul_comm base,
      show ds.length - (i + 1) = ds.length - 1 - i by omega]
  have hpos := Nat.zero_lt_of_lt hlow
  rw [hsplit, Nat.add_comm, Nat.add_mul_div_right _ _ hpos, Nat.div_eq_of_lt hlow, Nat.zero_add, Nat.add_comm,
    Nat.add_mul_mod_self_right, Nat.mod_eq_of_lt hd]

end Aipl.Lib.Numeral
