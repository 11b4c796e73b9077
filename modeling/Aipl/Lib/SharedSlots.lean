import Aipl.Lib.Outcome
import Mathlib.Data.List.Nodup
import Mathlib.Logic.Function.Basic

/-! # Library — sums of records in shared slots

A sum has a tag and, for each variant, a list of scalars, each of a kind.  The variants share slots:
as many of each kind as the variant that needs the most of that kind.  A variant's scalars take the
slots of their kinds in order.  Nothing here names a program.

* `assign_getElem` — a scalar's slot has its kind; `assign_nodup` — the slots of one variant are
  distinct; `one_le_of_mem_assign` — and none is the tag's.
* `gather_scatter` — what is put into distinct slots is read back.
* `Laid`, `place_laid` — scalars placed one after the other, aligned, share no byte.
-/

namespace Aipl.Lib

open Outcome

namespace SharedSlots

variable {κ : Type} [DecidableEq κ]

/-- How many slots of kind `k` the variants need. -/
def count (variants : List (List κ)) (k : κ) : Nat :=
  (variants.map fun v => v.count k).foldr max 0

/-- The slots so far, and where each kind's begin, with those of kind `k` behind them. -/
def addKind (counts : κ → Nat) (acc : List κ × (κ → Nat)) (k : κ) : List κ × (κ → Nat) :=
  (acc.1 ++ List.replicate (counts k) k, Function.update acc.2 k acc.1.length)

/-- The slots of the kinds in order, behind the tag's, and where each kind's begin. -/
def slots (tag : κ) (counts : κ → Nat) (kinds : List κ) : List κ × (κ → Nat) :=
  kinds.foldl (addKind counts) ([tag], fun _ => 0)

/-- The slots of a variant's scalars: the next one of each scalar's kind. -/
def assign (base : κ → Nat) : (κ → Nat) → List κ → List Nat
  | _, [] => []
  | used, t :: ts => (base t + used t) :: assign base (Function.update used t (used t + 1)) ts

theorem le_count {variants : List (List κ)} {v : List κ} (hv : v ∈ variants) (k : κ) :
    v.count k ≤ count variants k := by
  induction variants with
  | nil => cases hv
  | cons w vs ih =>
    rw [count, List.map_cons, List.foldr_cons]
    rcases List.mem_cons.mp hv with rfl | hv
    · exact Nat.le_max_left _ _
    · exact (ih hv).trans (Nat.le_max_right _ _)

/-- The slots of kind `k` begin at `base k`, behind the tag. -/
structure Based (counts : κ → Nat) (l : List κ) (base : κ → Nat) (k : κ) : Prop where
  pos : 1 ≤ base k
  get : ∀ i < counts k, l[base k + i]? = some k

omit [DecidableEq κ] in
theorem Based.append {counts : κ → Nat} {l l' : List κ} {base : κ → Nat} {k : κ}
    (h : Based counts l base k) : Based counts (l ++ l') base k := by
  refine ⟨h.pos, fun i hi => ?_⟩
  have hget := h.get i hi
  rw [List.getElem?_append_left (List.getElem?_eq_some_iff.mp hget).1]
  exact hget

theorem slots_based (tag : κ) (counts : κ → Nat) {kinds : List κ} (hnodup : kinds.Nodup) {k : κ}
    (hk : k ∈ kinds) :
    Based counts (slots tag counts kinds).1 (slots tag counts kinds).2 k := by
  have hgeneral : ∀ (ks : List κ) (acc : List κ × (κ → Nat)), ks.Nodup → 1 ≤ acc.1.length →
      (k ∈ ks ∨ k ∉ ks ∧ Based counts acc.1 acc.2 k) →
      Based counts (ks.foldl (addKind counts) acc).1 (ks.foldl (addKind counts) acc).2 k := by
    intro ks
    induction ks with
    | nil =>
      rintro acc - - (h | ⟨-, h⟩)
      · cases h
      · exact h
    | cons j ks ih =>
      intro acc hnodup hlen h
      obtain ⟨hj, hks⟩ := List.nodup_cons.mp hnodup
      rw [List.foldl_cons]
      refine ih _ hks (by rw [addKind, List.length_append]; omega) ?_
      rw [addKind]
      rcases h with h | ⟨hnot, hbased⟩
      · rcases List.mem_cons.mp h with rfl | h
        · -- the slots of k are the ones appended here
          refine .inr ⟨hj, ?_, fun i hi => ?_⟩
          all_goals dsimp only
          · rw [Function.update_self]
            exact hlen
          · rw [Function.update_self, List.getElem?_append_right (Nat.le_add_right _ _),
              Nat.add_sub_cancel_left, List.getElem?_replicate_of_lt hi]
        · exact .inl h
      · have hne : k ≠ j := fun heq => hnot (heq ▸ List.mem_cons_self)
        refine .inr ⟨fun hmem => hnot (List.mem_cons_of_mem _ hmem), ?_⟩
        have happend : Based counts (acc.1 ++ List.replicate (counts j) j) acc.2 k := hbased.append
        refine ⟨?_, fun i hi => ?_⟩
        all_goals dsimp only
        · rw [Function.update_of_ne hne]
          exact happend.pos
        · rw [Function.update_of_ne hne]
          exact happend.get i hi
  exact hgeneral kinds ([tag], fun _ => 0) hnodup le_rfl (.inl hk)

/-- The tag stays in the first slot. -/
theorem slots_head (tag : κ) (counts : κ → Nat) (kinds : List κ) :
    (slots tag counts kinds).1[0]? = some tag := by
  have hgeneral : ∀ (ks : List κ) (acc : List κ × (κ → Nat)), acc.1[0]? = some tag →
      (ks.foldl (addKind counts) acc).1[0]? = some tag := by
    intro ks
    induction ks with
    | nil => exact fun _ h => h
    | cons j ks ih =>
      intro acc h
      refine ih _ ?_
      rw [addKind, List.getElem?_append_left (List.getElem?_eq_some_iff.mp h).1]
      exact h
  exact hgeneral kinds _ rfl

variable {counts : κ → Nat} {l : List κ} {base : κ → Nat}

/-- Each slot of a variant is of its kind, and not one used before. -/
theorem mem_assign {used : κ → Nat} {ts : List κ} {s : Nat} (hs : s ∈ assign base used ts) :
    ∃ t ∈ ts, ∃ i, used t ≤ i ∧ i < used t + ts.count t ∧ s = base t + i := by
  induction ts generalizing used with
  | nil => cases hs
  | cons t ts ih =>
    rcases List.mem_cons.mp hs with rfl | hs
    · refine ⟨t, List.mem_cons_self, used t, le_rfl, ?_, rfl⟩
      rw [List.count_cons_self]
      omega
    · obtain ⟨t', ht', i, hlo, hhi, rfl⟩ := ih hs
      refine ⟨t', List.mem_cons_of_mem _ ht', i, ?_, ?_, rfl⟩
      · by_cases heq : t' = t
        · subst heq
          rw [Function.update_self] at hlo
          omega
        · rwa [Function.update_of_ne heq] at hlo
      · by_cases heq : t' = t
        · subst heq
          rw [Function.update_self] at hhi
          rw [List.count_cons_self]
          omega
        · rw [Function.update_of_ne heq] at hhi
          rwa [List.count_cons_of_ne (Ne.symm heq)]

/-- **The slot of a scalar has the scalar's kind.** -/
theorem assign_getElem {used : κ → Nat} {ts : List κ} (hbased : ∀ t ∈ ts, Based counts l base t)
    (hcount : ∀ t ∈ ts, used t + ts.count t ≤ counts t) :
    (assign base used ts).map (fun s => l[s]?) = ts.map some := by
  induction ts generalizing used with
  | nil => rfl
  | cons t ts ih =>
    have hct := hcount t List.mem_cons_self
    rw [List.count_cons_self] at hct
    rw [assign, List.map_cons, List.map_cons, (hbased t List.mem_cons_self).get (used t) (by omega)]
    congr 1
    refine ih (fun t' ht' => hbased t' (List.mem_cons_of_mem _ ht')) fun t' ht' => ?_
    have hct' := hcount t' (List.mem_cons_of_mem _ ht')
    by_cases heq : t' = t
    · subst heq
      rw [Function.update_self]
      omega
    · rw [Function.update_of_ne heq]
      rwa [List.count_cons_of_ne (Ne.symm heq)] at hct'

/-- **The slots of one variant are distinct.** -/
theorem assign_nodup {used : κ → Nat} {ts : List κ} (hbased : ∀ t ∈ ts, Based counts l base t)
    (hcount : ∀ t ∈ ts, used t + ts.count t ≤ counts t) : (assign base used ts).Nodup := by
  induction ts generalizing used with
  | nil => exact List.nodup_nil
  | cons t ts ih =>
    have hct := hcount t List.mem_cons_self
    rw [List.count_cons_self] at hct
    rw [assign, List.nodup_cons]
    refine ⟨fun hmem => ?_, ih (fun t' ht' => hbased t' (List.mem_cons_of_mem _ ht'))
      fun t' ht' => ?_⟩
    · obtain ⟨t', ht', i, hlo, hhi, heq⟩ := mem_assign hmem
      by_cases htt : t' = t
      · subst htt
        rw [Function.update_self] at hlo
        omega
      · -- slots of two kinds hold two kinds
        have hct' := hcount t' (List.mem_cons_of_mem _ ht')
        rw [Function.update_of_ne htt] at hhi
        rw [List.count_cons_of_ne (Ne.symm htt)] at hct'
        have h₁ := (hbased t List.mem_cons_self).get (used t) (by omega)
        have h₂ := (hbased t' (List.mem_cons_of_mem _ ht')).get i (by omega)
        rw [heq, h₂] at h₁
        injection h₁ with h₁
        exact htt h₁
    · have hct' := hcount t' (List.mem_cons_of_mem _ ht')
      by_cases heq : t' = t
      · subst heq
        rw [Function.update_self]
        omega
      · rw [Function.update_of_ne heq]
        rwa [List.count_cons_of_ne (Ne.symm heq)] at hct'

theorem one_le_of_mem_assign {used : κ → Nat} {ts : List κ}
    (hbased : ∀ t ∈ ts, Based counts l base t) {s : Nat} (hs : s ∈ assign base used ts) : 1 ≤ s := by
  obtain ⟨t, ht, i, -, -, rfl⟩ := mem_assign hs
  exact (hbased t ht).pos.trans (Nat.le_add_right _ _)

/-! ### Putting scalars into slots, and reading them back -/

variable {α : Type}

/-- Each of `xs` into its slot. -/
def scatter (out : List α) (slots : List Nat) (xs : List α) : List α :=
  (slots.zip xs).foldl (fun out p => out.set p.1 p.2) out

/-- What the slots hold; a slot that is not there stops the program. -/
def gather (out : List α) : List Nat → Outcome (List α)
  | [] => done []
  | s :: ss => do
    let x ← ofOption out[s]?
    let xs ← gather out ss
    pure (x :: xs)

theorem length_scatter (out : List α) (slots : List Nat) (xs : List α) :
    (scatter out slots xs).length = out.length := by
  rw [scatter]
  induction slots.zip xs generalizing out with
  | nil => rfl
  | cons p ps ih => rw [List.foldl_cons, ih, List.length_set]

/-- A slot that is not among them keeps what it holds. -/
theorem getElem_scatter_of_not_mem {slots : List Nat} {s : Nat} (hs : s ∉ slots) (out xs : List α) :
    (scatter out slots xs)[s]? = out[s]? := by
  induction slots generalizing out xs with
  | nil => rfl
  | cons s' ss ih =>
    obtain ⟨hne, hss⟩ : s ≠ s' ∧ s ∉ ss := by simpa using hs
    cases xs with
    | nil => rfl
    | cons x xs =>
      rw [scatter, List.zip_cons_cons, List.foldl_cons, ← scatter, ih hss,
        List.getElem?_set_ne (Ne.symm hne)]

/-- **What is put into distinct slots is read back.** -/
theorem gather_scatter {slots : List Nat} {out xs : List α} (hnodup : slots.Nodup)
    (hlt : ∀ s ∈ slots, s < out.length) (hlen : slots.length = xs.length) :
    gather (scatter out slots xs) slots = done xs := by
  induction slots generalizing out xs with
  | nil =>
    cases xs with
    | nil => rfl
    | cons x xs => cases hlen
  | cons s ss ih =>
    obtain ⟨hs, hss⟩ := List.nodup_cons.mp hnodup
    cases xs with
    | nil => cases hlen
    | cons x xs =>
      have hrest : scatter out (s :: ss) (x :: xs) = scatter (out.set s x) ss xs := rfl
      have hget : (scatter (out.set s x) ss xs)[s]? = some x := by
        rw [getElem_scatter_of_not_mem hs, List.getElem?_set_self (hlt s List.mem_cons_self)]
      rw [hrest, gather, hget, ih hss (fun s' hs' => ?_) (Nat.succ.inj hlen)]
      · rfl
      · rw [List.length_set]
        exact hlt s' (List.mem_cons_of_mem _ hs')

/-- Reading some of the slots reads some of what all of them hold. -/
theorem gather_drop_take {out xs : List α} {slots : List Nat} (h : gather out slots = done xs)
    (i n : Nat) : gather out ((slots.drop i).take n) = done ((xs.drop i).take n) := by
  induction slots generalizing xs i n with
  | nil =>
    injection h with h
    subst h
    simp [gather]
  | cons s ss ih =>
    rw [gather] at h
    obtain ⟨x, hx, h⟩ := bind_eq_done h
    obtain ⟨ys, hys, h⟩ := bind_eq_done h
    injection h with h
    subst h
    cases i with
    | zero =>
      cases n with
      | zero => rfl
      | succ n =>
        have := ih hys 0 n
        rw [List.drop_zero, List.drop_zero] at this
        rw [List.drop_zero, List.drop_zero, List.take_succ_cons, List.take_succ_cons, gather, hx,
          done_bind, this]
        rfl
    | succ i => exact ih hys i n

end SharedSlots

/-! ### Placing scalars in memory -/

/-- `o` rounded up to a multiple of `a`. -/
def alignUp (o a : Nat) : Nat := (o + a - 1) / a * a

theorem le_alignUp {o a : Nat} (ha : 0 < a) : o ≤ alignUp o a := by
  have h := Nat.div_add_mod (o + a - 1) a
  have hlt := Nat.mod_lt (o + a - 1) ha
  rw [alignUp, Nat.mul_comm]
  omega

theorem dvd_alignUp (o a : Nat) : a ∣ alignUp o a := Nat.dvd_mul_left a _

/-- Items `(offset, size)` that are aligned to their sizes, lie in order between `lo` and `hi`, and
share no byte. -/
def Laid : Nat → List (Nat × Nat) → Nat → Prop
  | lo, [], hi => lo ≤ hi
  | lo, (o, s) :: rest, hi => lo ≤ o ∧ s ∣ o ∧ Laid (o + s) rest hi

theorem Laid.mono {lo lo' hi hi' : Nat} : ∀ {items : List (Nat × Nat)}, Laid lo items hi →
    lo' ≤ lo → hi ≤ hi' → Laid lo' items hi'
  | [], h, h₁, h₂ => h₁.trans (h.trans h₂)
  | _ :: _, ⟨ho, hs, h⟩, h₁, h₂ => ⟨h₁.trans ho, hs, h.mono le_rfl h₂⟩

theorem Laid.append {lo mid hi : Nat} {items' : List (Nat × Nat)} :
    ∀ {items : List (Nat × Nat)}, Laid lo items mid → Laid mid items' hi →
      Laid lo (items ++ items') hi
  | [], h, h' => h'.mono h le_rfl
  | _ :: _, ⟨ho, hs, h⟩, h' => ⟨ho, hs, h.append h'⟩

/-- Items moved by a multiple of their sizes. -/
theorem Laid.shift {off lo hi : Nat} : ∀ {items : List (Nat × Nat)}, Laid lo items hi →
    (∀ p ∈ items, p.2 ∣ off) → Laid (off + lo) (items.map fun p => (off + p.1, p.2)) (off + hi)
  | [], h, _ => Nat.add_le_add_left h off
  | (o, s) :: _, ⟨ho, hs, h⟩, hdvd => by
      refine ⟨Nat.add_le_add_left ho off, Nat.dvd_add (hdvd _ List.mem_cons_self) hs, ?_⟩
      have := h.shift fun p hp => hdvd p (List.mem_cons_of_mem _ hp)
      rwa [← Nat.add_assoc] at this

/-- The offsets of items of the given sizes, each rounded up to its size, and where they end. -/
def place : Nat → List Nat → List Nat × Nat
  | at_, [] => ([], at_)
  | at_, s :: ss =>
    let o := alignUp at_ s
    let r := place (o + s) ss
    (o :: r.1, r.2)

theorem length_place (at_ : Nat) (ss : List Nat) : (place at_ ss).1.length = ss.length := by
  induction ss generalizing at_ with
  | nil => rfl
  | cons s ss ih => rw [place, List.length_cons, List.length_cons, ih]

theorem place_laid {ss : List Nat} (hpos : ∀ s ∈ ss, 0 < s) (at_ : Nat) :
    Laid at_ ((place at_ ss).1.zip ss) (place at_ ss).2 := by
  induction ss generalizing at_ with
  | nil => exact le_rfl
  | cons s ss ih =>
    exact ⟨le_alignUp (hpos s List.mem_cons_self), dvd_alignUp at_ s,
      ih (fun s' hs' => hpos s' (List.mem_cons_of_mem _ hs')) _⟩

end Aipl.Lib
