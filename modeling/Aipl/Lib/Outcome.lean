import Mathlib.Data.List.Basic
import Mathlib.Data.BitVec

/-! # Library — outcomes of a bounded run

A modelled function that loops takes a bound on the rounds it may make.  Its outcome says which of
three things happened: it returned, the program stopped (a failed contract, a bounds check, no
memory), or the bound ran out before either.  Nothing here names a program.

* `Outcome.Sat` — a run that never exhausts its bound and returns only what `Q` allows.
* `Outcome.sat_bind` — the sequencing rule.
* `Outcome.Returns` — partial correctness: what a run returns, if it returns.
* `Outcome.Ends` — total correctness: the run returns, and what it returns satisfies `Q`.
* `Outcome.EndsOr` — the same, but for stops that a condition allows.
* `iterate_returns`, `iterate_sat` — the rules of a loop; `forLoop_sat` — that of a counted one.
-/

namespace Aipl.Lib

/-- What a bounded run ended with. -/
inductive Outcome (α : Type) where
  | done (a : α)
  | stop
  | outOfFuel
deriving DecidableEq, Repr

namespace Outcome

variable {α β : Type}

/-- Run `o`, then `f` on what it returned. -/
def bind (o : Outcome α) (f : α → Outcome β) : Outcome β :=
  match o with
  | done a => f a
  | stop => stop
  | outOfFuel => outOfFuel

instance : Monad Outcome where
  pure := done
  bind := bind

@[simp] theorem pure_eq (a : α) : (pure a : Outcome α) = done a := rfl

@[simp] theorem done_bind (a : α) (f : α → Outcome β) : (done a >>= f) = f a := rfl

@[simp] theorem stop_bind (f : α → Outcome β) : ((stop : Outcome α) >>= f) = stop := rfl

@[simp] theorem outOfFuel_bind (f : α → Outcome β) :
    ((outOfFuel : Outcome α) >>= f) = outOfFuel := rfl

instance : LawfulMonad Outcome :=
  LawfulMonad.mk' Outcome (fun o => by cases o <;> rfl) (fun _ _ => rfl)
    (fun o _ _ => by cases o <;> rfl)

/-- Go on when `c` holds, else stop the program. -/
def require (c : Bool) : Outcome Unit := if c then done () else stop

/-- What an optional value holds, else stop the program. -/
def ofOption : Option α → Outcome α
  | some a => done a
  | none => stop

/-- **Safe runs.**  The run does not exhaust its bound, and what it returns satisfies `Q`. -/
def Sat (Q : α → Prop) : Outcome α → Prop
  | done a => Q a
  | stop => True
  | outOfFuel => False

@[simp] theorem sat_done {Q : α → Prop} {a : α} : Sat Q (done a) ↔ Q a := Iff.rfl

@[simp] theorem sat_stop {Q : α → Prop} : Sat Q stop := trivial

theorem Sat.mono {Q R : α → Prop} {o : Outcome α} (h : Sat Q o) (hQR : ∀ a, Q a → R a) :
    Sat R o := by
  cases o with
  | done a => exact hQR a h
  | stop => trivial
  | outOfFuel => exact h

/-- A safe run followed by safe runs is safe. -/
theorem sat_bind {Q : α → Prop} {R : β → Prop} {o : Outcome α} {f : α → Outcome β}
    (h : Sat Q o) (hf : ∀ a, Q a → Sat R (f a)) : Sat R (o >>= f) := by
  cases o with
  | done a => exact hf a h
  | stop => trivial
  | outOfFuel => exact h.elim

theorem sat_require {c : Bool} {Q : Unit → Prop} (h : c = true → Q ()) : Sat Q (require c) := by
  cases c with
  | true => exact h rfl
  | false => trivial

theorem sat_ofOption {Q : α → Prop} {o : Option α} (h : ∀ a, o = some a → Q a) :
    Sat Q (ofOption o) := by
  cases o with
  | none => trivial
  | some a => exact h a rfl

theorem Sat.of_eq_done {Q : α → Prop} {o : Outcome α} {a : α} (h : Sat Q o) (ho : o = done a) :
    Q a := by
  subst ho
  exact h

theorem Sat.ne_outOfFuel {Q : α → Prop} {o : Outcome α} (h : Sat Q o) : o ≠ outOfFuel := by
  rintro rfl
  exact h

/-- What a run satisfies, with the run itself. -/
theorem Sat.and_eq {Q : α → Prop} {o : Outcome α} (h : Sat Q o) : Sat (fun a => Q a ∧ o = done a) o := by
  cases o with
  | done a => exact ⟨h, rfl⟩
  | stop => trivial
  | outOfFuel => exact h

theorem bind_eq_done {o : Outcome α} {f : α → Outcome β} {b : β} (h : (o >>= f) = done b) :
    ∃ a, o = done a ∧ f a = done b := by
  cases o with
  | done a => exact ⟨a, rfl, h⟩
  | stop => cases h
  | outOfFuel => cases h

/-! ### Lists of runs -/

/-- `f` on each element, in order. -/
def mapAll (f : α → Outcome β) : List α → Outcome (List β)
  | [] => done []
  | a :: as => do
    let b ← f a
    let bs ← mapAll f as
    pure (b :: bs)

/-- The elements that `p` holds of, in order. -/
def filterAll (p : α → Outcome Bool) : List α → Outcome (List α)
  | [] => done []
  | a :: as => do
    let keep ← p a
    let rest ← filterAll p as
    pure (if keep then a :: rest else rest)

/-- `f` on a state and each element, in order. -/
def foldAll (f : β → α → Outcome β) : β → List α → Outcome β
  | b, [] => done b
  | b, a :: as => do
    let b ← f b a
    foldAll f b as

theorem foldAll_append (f : β → α → Outcome β) (b : β) (as as' : List α) :
    foldAll f b (as ++ as') = foldAll f b as >>= fun b => foldAll f b as' := by
  induction as generalizing b with
  | nil => rfl
  | cons a as ih =>
    rw [List.cons_append, foldAll, foldAll, bind_assoc]
    simp only [ih]

/-- Whether `p` holds of every element, up to the first it does not hold of. -/
def allOf (p : α → Outcome Bool) : List α → Outcome Bool
  | [] => done true
  | a :: as => do
    let ok ← p a
    if ok then allOf p as else pure false

theorem mapAll_mono {f g : α → Outcome β} {as : List α}
    (h : ∀ a ∈ as, ∀ b, f a = done b → g a = done b) {bs : List β} (hf : mapAll f as = done bs) :
    mapAll g as = done bs := by
  induction as generalizing bs with
  | nil => exact hf
  | cons a as ih =>
    rw [mapAll] at hf
    obtain ⟨b, hb, hf⟩ := bind_eq_done hf
    obtain ⟨bs', hbs, hf⟩ := bind_eq_done hf
    rw [mapAll, h a List.mem_cons_self b hb, done_bind,
      ih (fun a' ha' => h a' (List.mem_cons_of_mem _ ha')) hbs]
    exact hf

theorem exists_of_mapAll {f : α → Outcome β} {as : List α} {bs : List β}
    (h : mapAll f as = done bs) {a : α} (ha : a ∈ as) : ∃ b, f a = done b := by
  induction as generalizing bs with
  | nil => cases ha
  | cons a' as ih =>
    rw [mapAll] at h
    obtain ⟨b, hb, h⟩ := bind_eq_done h
    obtain ⟨bs', hbs, -⟩ := bind_eq_done h
    rcases List.mem_cons.mp ha with rfl | ha
    · exact ⟨b, hb⟩
    · exact ih hbs ha

theorem mapAll_getElem {f : α → Outcome β} {as : List α} {bs : List β}
    (h : mapAll f as = done bs) {i : Nat} {a : α} (ha : as[i]? = some a) :
    ∃ b, bs[i]? = some b ∧ f a = done b := by
  induction as generalizing bs i with
  | nil => cases ha
  | cons a' as ih =>
    rw [mapAll] at h
    obtain ⟨b, hb, h⟩ := bind_eq_done h
    obtain ⟨bs', hbs, h⟩ := bind_eq_done h
    injection h with h
    subst h
    cases i with
    | zero =>
      injection ha with ha
      subst ha
      exact ⟨b, rfl, hb⟩
    | succ i => exact ih hbs ha

theorem mem_of_filterAll {p : α → Outcome Bool} {as bs : List α} (h : filterAll p as = done bs)
    {a : α} (ha : a ∈ bs) : a ∈ as ∧ p a = done true := by
  induction as generalizing bs with
  | nil =>
    injection h with h
    subst h
    cases ha
  | cons a' as ih =>
    rw [filterAll] at h
    obtain ⟨keep, hkeep, h⟩ := bind_eq_done h
    obtain ⟨rest, hrest, h⟩ := bind_eq_done h
    injection h with h
    subst h
    cases keep with
    | true =>
      rcases List.mem_cons.mp ha with rfl | ha
      · exact ⟨List.mem_cons_self, hkeep⟩
      · obtain ⟨hmem, hp⟩ := ih hrest ha
        exact ⟨List.mem_cons_of_mem _ hmem, hp⟩
    | false =>
      obtain ⟨hmem, hp⟩ := ih hrest ha
      exact ⟨List.mem_cons_of_mem _ hmem, hp⟩

theorem allOf_eq {p : α → Outcome Bool} {f : α → Bool} {as : List α} (h : ∀ a ∈ as, p a = done (f a)) :
    allOf p as = done (as.all f) := by
  induction as with
  | nil => rfl
  | cons a as ih =>
    rw [allOf, h a List.mem_cons_self, done_bind, ih fun a' ha' => h a' (List.mem_cons_of_mem _ ha'), List.all_cons]
    cases f a <;> rfl

theorem sat_eq_done {o : Outcome α} (h : o ≠ outOfFuel) : Sat (fun a => o = done a) o := by
  cases o with
  | done a => rfl
  | stop => trivial
  | outOfFuel => exact h rfl

/-- **Partial correctness.**  What the run returns, if it returns, satisfies `Q`. -/
def Returns (Q : α → Prop) : Outcome α → Prop
  | done a => Q a
  | _ => True

@[simp] theorem returns_done {Q : α → Prop} {a : α} : Returns Q (done a) ↔ Q a := Iff.rfl

theorem Sat.returns {Q : α → Prop} {o : Outcome α} (h : Sat Q o) : Returns Q o := by
  cases o with
  | done a => exact h
  | stop => trivial
  | outOfFuel => trivial

theorem returns_bind {Q : α → Prop} {R : β → Prop} {o : Outcome α} {f : α → Outcome β}
    (h : Returns Q o) (hf : ∀ a, Q a → Returns R (f a)) : Returns R (o >>= f) := by
  cases o with
  | done a => exact hf a h
  | stop => trivial
  | outOfFuel => trivial

/-- A run of which nothing is asked, followed by a run. -/
theorem returns_bind_any {R : β → Prop} {o : Outcome α} {f : α → Outcome β}
    (hf : ∀ a, Returns R (f a)) : Returns R (o >>= f) :=
  returns_bind (Q := fun _ => True) (by cases o <;> trivial) fun a _ => hf a

/-- What follows a run has only to agree on what the run returns. -/
theorem bind_congr_of_returns {Q : α → Prop} {o : Outcome α} {f g : α → Outcome β} (h : Returns Q o)
    (hfg : ∀ a, Q a → f a = g a) : (o >>= f) = o >>= g := by
  cases o with
  | done a => exact hfg a h
  | stop => rfl
  | outOfFuel => rfl

theorem Returns.mono {Q R : α → Prop} {o : Outcome α} (h : Returns Q o)
    (hQR : ∀ a, Q a → R a) : Returns R o := by
  cases o with
  | done a => exact hQR a h
  | stop => trivial
  | outOfFuel => trivial

theorem returns_require {c : Bool} {Q : Unit → Prop} (h : c = true → Q ()) :
    Returns Q (require c) := (sat_require h).returns

theorem Returns.of_eq_done {Q : α → Prop} {o : Outcome α} {a : α} (h : Returns Q o)
    (ho : o = done a) : Q a := by
  subst ho
  exact h

theorem returns_iff {Q : α → Prop} {o : Outcome α} :
    Returns Q o ↔ ∀ a, o = done a → Q a := by
  constructor
  · exact fun h a ha => h.of_eq_done ha
  · intro h
    cases o with
    | done a => exact h a rfl
    | stop => trivial
    | outOfFuel => trivial

/-- **Total correctness.**  The run returns, and what it returns satisfies `Q`. -/
def Ends (Q : α → Prop) : Outcome α → Prop
  | done a => Q a
  | _ => False

@[simp] theorem ends_done {Q : α → Prop} {a : α} : Ends Q (done a) ↔ Q a := Iff.rfl

theorem Ends.exists {Q : α → Prop} {o : Outcome α} (h : Ends Q o) : ∃ a, o = done a ∧ Q a := by
  cases o with
  | done a => exact ⟨a, rfl, h⟩
  | stop => exact h.elim
  | outOfFuel => exact h.elim

theorem Ends.sat {Q : α → Prop} {o : Outcome α} (h : Ends Q o) : Sat Q o := by
  cases o with
  | done a => exact h
  | stop => trivial
  | outOfFuel => exact h

theorem Ends.mono {Q R : α → Prop} {o : Outcome α} (h : Ends Q o) (hQR : ∀ a, Q a → R a) :
    Ends R o := by
  cases o with
  | done a => exact hQR a h
  | stop => exact h
  | outOfFuel => exact h

theorem ends_bind {Q : α → Prop} {R : β → Prop} {o : Outcome α} {f : α → Outcome β}
    (h : Ends Q o) (hf : ∀ a, Q a → Ends R (f a)) : Ends R (o >>= f) := by
  cases o with
  | done a => exact hf a h
  | stop => exact h.elim
  | outOfFuel => exact h.elim

/-- The run that may not stop the program either: a stopped run counts as one that does not end. -/
def strict : Outcome α → Outcome α
  | stop => outOfFuel
  | o => o

theorem sat_strict {Q : α → Prop} {o : Outcome α} : Sat Q (strict o) ↔ Ends Q o := by
  cases o <;> rfl

theorem strict_bind {o : Outcome α} {f : α → Outcome β} :
    strict (o >>= f) = strict o >>= fun a => strict (f a) := by
  cases o <;> rfl

/-- The run returns what satisfies `Q`; only where `C` holds may it stop the program instead. -/
def EndsOr (C : Prop) (Q : α → Prop) : Outcome α → Prop
  | done a => Q a
  | stop => C
  | outOfFuel => False

@[simp] theorem endsOr_done {C : Prop} {Q : α → Prop} {a : α} : EndsOr C Q (done a) ↔ Q a := Iff.rfl

theorem endsOr_true {Q : α → Prop} {o : Outcome α} : EndsOr True Q o ↔ Sat Q o := by
  cases o <;> rfl

theorem endsOr_false {Q : α → Prop} {o : Outcome α} : EndsOr False Q o ↔ Ends Q o := by
  cases o <;> rfl

theorem Ends.endsOr {C : Prop} {Q : α → Prop} {o : Outcome α} (h : Ends Q o) : EndsOr C Q o := by
  cases o with
  | done a => exact h
  | stop => exact h.elim
  | outOfFuel => exact h

theorem EndsOr.sat {C : Prop} {Q : α → Prop} {o : Outcome α} (h : EndsOr C Q o) : Sat Q o := by
  cases o with
  | done a => exact h
  | stop => trivial
  | outOfFuel => exact h

/-- A safe run that stops only where `C` holds. -/
theorem Sat.endsOr {C : Prop} {Q : α → Prop} {o : Outcome α} (h : Sat Q o) (hstop : o = stop → C) :
    EndsOr C Q o := by
  cases o with
  | done a => exact h
  | stop => exact hstop rfl
  | outOfFuel => exact h

theorem EndsOr.mono {C : Prop} {Q R : α → Prop} {o : Outcome α} (h : EndsOr C Q o)
    (hQR : ∀ a, Q a → R a) : EndsOr C R o := by
  cases o with
  | done a => exact hQR a h
  | stop => exact h
  | outOfFuel => exact h

theorem endsOr_bind {C : Prop} {Q : α → Prop} {R : β → Prop} {o : Outcome α} {f : α → Outcome β}
    (h : EndsOr C Q o) (hf : ∀ a, Q a → EndsOr C R (f a)) : EndsOr C R (o >>= f) := by
  cases o with
  | done a => exact hf a h
  | stop => exact h
  | outOfFuel => exact h.elim

theorem endsOr_require {C : Prop} {c : Bool} {Q : Unit → Prop} (h : c = true → Q ())
    (hc : C ∨ c = true) : EndsOr C Q (require c) := by
  cases c with
  | true => exact h rfl
  | false => exact hc.resolve_right Bool.false_ne_true

end Outcome

open Outcome

/-! ### Loops -/

/-- A loop: each round goes on with a new state, or leaves with a result. -/
def iterate {α β : Type} (round : α → Outcome (α ⊕ β)) : Nat → α → Outcome β
  | 0, _ => outOfFuel
  | fuel + 1, a => do
    match ← round a with
    | .inl a => iterate round fuel a
    | .inr b => pure b

/-- **The invariant rule of a loop.** -/
theorem iterate_returns {α β : Type} {round : α → Outcome (α ⊕ β)} (P : α → Prop) (Q : β → Prop)
    (hround : ∀ a, P a → Returns (Sum.elim P Q) (round a)) :
    ∀ (fuel : Nat) (a : α), P a → Returns Q (iterate round fuel a)
  | 0, _, _ => trivial
  | fuel + 1, a, ha => by
      refine returns_bind (hround a ha) fun r hr => ?_
      cases r with
      | inl a' => exact iterate_returns P Q hround fuel a' hr
      | inr b => exact hr

/-- **The rule of a loop that ends**: each round keeps the invariant and makes the measure smaller. -/
theorem iterate_sat {α β : Type} {round : α → Outcome (α ⊕ β)} (P : α → Prop) (Q : β → Prop)
    (μ : α → Nat)
    (hround : ∀ a, P a → Sat (Sum.elim (fun a' => P a' ∧ μ a' < μ a) Q) (round a)) :
    ∀ (fuel : Nat) (a : α), P a → μ a < fuel → Sat Q (iterate round fuel a)
  | 0, _, _, h => by omega
  | fuel + 1, a, ha, h => by
      refine sat_bind (hround a ha) fun r hr => ?_
      cases r with
      | inl a' => exact iterate_sat P Q μ hround fuel a' hr.1 (by have := hr.2; omega)
      | inr b => exact hr

theorem strict_iterate {α β : Type} {round : α → Outcome (α ⊕ β)} : ∀ (fuel : Nat) (a : α),
    strict (iterate round fuel a) = iterate (fun a => strict (round a)) fuel a
  | 0, _ => rfl
  | fuel + 1, a => by
      rw [iterate, iterate, strict_bind]
      congr
      funext r
      cases r with
      | inl a' => exact strict_iterate fuel a'
      | inr b => rfl

/-- The rule of a loop whose rounds all end. -/
theorem iterate_ends {α β : Type} {round : α → Outcome (α ⊕ β)} (P : α → Prop) (Q : β → Prop)
    (μ : α → Nat)
    (hround : ∀ a, P a → Ends (Sum.elim (fun a' => P a' ∧ μ a' < μ a) Q) (round a))
    (fuel : Nat) (a : α) (ha : P a) (hfuel : μ a < fuel) : Ends Q (iterate round fuel a) := by
  rw [← sat_strict, strict_iterate]
  exact iterate_sat P Q μ (fun a ha => sat_strict.mpr (hround a ha)) fuel a ha hfuel

/-- The rule of a loop whose rounds may stop where `C` holds. -/
theorem iterate_endsOr {α β : Type} {round : α → Outcome (α ⊕ β)} {C : Prop} (P : α → Prop)
    (Q : β → Prop) (μ : α → Nat)
    (hround : ∀ a, P a → EndsOr C (Sum.elim (fun a' => P a' ∧ μ a' < μ a) Q) (round a))
    (fuel : Nat) (a : α) (ha : P a) (hfuel : μ a < fuel) : EndsOr C Q (iterate round fuel a) := by
  rcases Classical.propComplete C with rfl | rfl
  · exact endsOr_true.mpr
      (iterate_sat P Q μ (fun a ha => endsOr_true.mp (hround a ha)) fuel a ha hfuel)
  · exact endsOr_false.mpr
      (iterate_ends P Q μ (fun a ha => endsOr_false.mp (hround a ha)) fuel a ha hfuel)

/-- More fuel, for the loop and for its rounds, does not change what a loop returned. -/
theorem iterate_mono {α β : Type} {round round' : α → Outcome (α ⊕ β)}
    (hround : ∀ a r, round a = done r → round' a = done r) (extra : Nat) :
    ∀ (fuel : Nat) (a : α) (b : β), iterate round fuel a = done b →
      iterate round' (fuel + extra) a = done b
  | 0, _, _, h => by cases h
  | fuel + 1, a, b, h => by
      rw [iterate] at h
      obtain ⟨r, hr, h⟩ := bind_eq_done h
      rw [Nat.succ_add, iterate, hround a r hr, done_bind]
      cases r with
      | inl a' => exact iterate_mono hround extra fuel a' b h
      | inr b' => exact h

/-- A loop returns one result, whatever its fuel. -/
theorem iterate_unique {α β : Type} {round : α → Outcome (α ⊕ β)} {fuel fuel' : Nat} {a : α}
    {b b' : β} (h : iterate round fuel a = done b) (h' : iterate round fuel' a = done b') :
    b = b' := by
  have h₁ := iterate_mono (fun _ _ h => h) fuel' fuel a b h
  have h₂ := iterate_mono (fun _ _ h => h) fuel fuel' a b' h'
  rw [Nat.add_comm, h₁] at h₂
  injection h₂

/-! ### Runs that return where others do -/

/-- What the first run returns, the second does. -/
def Refines {α : Type} (o o' : Outcome α) : Prop := ∀ a, o = done a → o' = done a

theorem Refines.refl {α : Type} (o : Outcome α) : Refines o o := fun _ h => h

theorem refines_bind {α β : Type} {o o' : Outcome α} {f f' : α → Outcome β} (h : Refines o o')
    (hf : ∀ a, Refines (f a) (f' a)) : Refines (o >>= f) (o' >>= f') := by
  intro b hb
  obtain ⟨a, ha, hb⟩ := bind_eq_done hb
  rw [h a ha, done_bind]
  exact hf a b hb

theorem refines_ite {α : Type} {c : Prop} [Decidable c] {t t' e e' : Outcome α} (ht : Refines t t')
    (he : Refines e e') : Refines (if c then t else e) (if c then t' else e') := by
  split
  · exact ht
  · exact he

theorem iterate_refines {α β : Type} {round round' : α → Outcome (α ⊕ β)}
    (hround : ∀ a, Refines (round a) (round' a)) (fuel : Nat) (a : α) :
    Refines (iterate round fuel a) (iterate round' fuel a) :=
  fun b => iterate_mono hround 0 fuel a b

/-! ### Counted loops -/

/-- The loop `i = i, i + step, …` while `i ≤ last`, as signed words: the bound is computed once,
and the counter wraps. -/
def countedLoop {α : Type} (last step : BitVec 32) (body : BitVec 32 → α → Outcome α) :
    Nat → BitVec 32 → α → Outcome α
  | 0, _, _ => outOfFuel
  | fuel + 1, i, a =>
    if last.slt i then done a
    else do
      let a ← body i a
      countedLoop last step body fuel (i + step) a

/-- `for i from lo up to hi`, `hi` left out: a counted loop to `hi - 1`. -/
def forLoop {α : Type} (fuel : Nat) (lo hi : BitVec 32) (body : BitVec 32 → α → Outcome α)
    (a : α) : Outcome α :=
  countedLoop (hi - 1#32) 1#32 body fuel lo a

theorem toInt_ofNat_of_lt {n : Nat} (hn : n < 2 ^ 31) : (BitVec.ofNat 32 n).toInt = n := by
  rw [BitVec.toInt_eq_toNat_cond]
  simp only [BitVec.toNat_ofNat]
  omega

theorem toInt_ofNat_sub_one {n : Nat} (hn : n < 2 ^ 31) :
    (BitVec.ofNat 32 n - 1#32).toInt = (n : Int) - 1 := by
  rw [BitVec.toInt_eq_toNat_cond]
  simp only [BitVec.toNat_sub, BitVec.toNat_ofNat]
  omega

/-- The loop to `n - 1` ends at `k` exactly when `k` has reached `n`. -/
theorem slt_sub_one_iff {k n : Nat} (hk : k ≤ n) (hn : n < 2 ^ 31) :
    (BitVec.ofNat 32 n - 1#32).slt (BitVec.ofNat 32 k) = decide (k = n) := by
  rw [BitVec.slt_eq_decide, toInt_ofNat_sub_one hn, toInt_ofNat_of_lt (by omega)]
  exact decide_eq_decide.mpr (by omega)

theorem countedLoop_sat {α : Type} {body : BitVec 32 → α → Outcome α} {n : Nat}
    (hn : n < 2 ^ 31) (P : Nat → α → Prop)
    (hbody : ∀ k a, k < n → P k a → Sat (P (k + 1)) (body (BitVec.ofNat 32 k) a)) :
    ∀ (fuel k : Nat) (a : α), k ≤ n → n < fuel + k → P k a →
      Sat (P n) (countedLoop (BitVec.ofNat 32 n - 1#32) 1#32 body fuel (BitVec.ofNat 32 k) a)
  | 0, k, _, hk, hfuel, _ => by omega
  | fuel + 1, k, a, hk, hfuel, ha => by
      rw [countedLoop, slt_sub_one_iff hk hn]
      rcases Nat.lt_or_ge k n with hlt | hge
      · rw [if_neg (by simp only [decide_eq_true_eq]; omega)]
        refine sat_bind (hbody k a hlt ha) fun b hb => ?_
        have hnext : BitVec.ofNat 32 k + 1#32 = BitVec.ofNat 32 (k + 1) := by
          rw [BitVec.ofNat_add]
        rw [hnext]
        exact countedLoop_sat hn P hbody fuel (k + 1) b hlt (by omega) hb
      · obtain rfl : k = n := Nat.le_antisymm hk hge
        rw [if_pos (by simp)]
        exact ha

/-- **The invariant rule of a `for` loop.**  What holds at the start and is kept by every round
holds when the loop ends, and the loop ends. -/
theorem forLoop_sat {α : Type} {body : BitVec 32 → α → Outcome α} {n fuel : Nat} {a : α}
    (hn : n < 2 ^ 31) (hfuel : n < fuel) (P : Nat → α → Prop) (h0 : P 0 a)
    (hbody : ∀ k a, k < n → P k a → Sat (P (k + 1)) (body (BitVec.ofNat 32 k) a)) :
    Sat (P n) (forLoop fuel 0 (BitVec.ofNat 32 n) body a) :=
  countedLoop_sat hn P hbody fuel 0 a (Nat.zero_le n) (by omega) h0

/-- The rule of a `for` loop from `lo` on. -/
theorem forLoop_range_sat {α : Type} {body : BitVec 32 → α → Outcome α} {lo hi : BitVec 32}
    {fuel : Nat} {a : α} (hhi : hi.toNat < 2 ^ 31) (hle : lo.toNat ≤ hi.toNat)
    (hfuel : hi.toNat < fuel + lo.toNat) (P : Nat → α → Prop) (h0 : P lo.toNat a)
    (hbody : ∀ k a, lo.toNat ≤ k → k < hi.toNat → P k a →
      Sat (P (k + 1)) (body (BitVec.ofNat 32 k) a)) :
    Sat (P hi.toNat) (forLoop fuel lo hi body a) := by
  have hloop := countedLoop_sat hhi (fun k a => lo.toNat ≤ k ∧ P k a)
    (fun k a hk h => (hbody k a h.1 hk h.2).mono fun a' ha' => ⟨by omega, ha'⟩)
    fuel lo.toNat a hle hfuel ⟨le_rfl, h0⟩
  rw [BitVec.ofNat_toNat, BitVec.setWidth_eq, BitVec.ofNat_toNat, BitVec.setWidth_eq] at hloop
  exact hloop.mono fun a' ha' => ha'.2

theorem strict_countedLoop {α : Type} {body : BitVec 32 → α → Outcome α} {last step : BitVec 32} :
    ∀ (fuel : Nat) (i : BitVec 32) (a : α), strict (countedLoop last step body fuel i a)
      = countedLoop last step (fun i a => strict (body i a)) fuel i a
  | 0, _, _ => rfl
  | fuel + 1, i, a => by
      rw [countedLoop, countedLoop]
      split
      · rfl
      · rw [strict_bind]
        congr
        funext a'
        exact strict_countedLoop fuel _ a'

/-- The rule of a `for` loop whose rounds all end. -/
theorem forLoop_range_ends {α : Type} {body : BitVec 32 → α → Outcome α} {lo hi : BitVec 32}
    {fuel : Nat} {a : α} (hhi : hi.toNat < 2 ^ 31) (hle : lo.toNat ≤ hi.toNat)
    (hfuel : hi.toNat < fuel + lo.toNat) (P : Nat → α → Prop) (h0 : P lo.toNat a)
    (hbody : ∀ k a, lo.toNat ≤ k → k < hi.toNat → P k a →
      Ends (P (k + 1)) (body (BitVec.ofNat 32 k) a)) :
    Ends (P hi.toNat) (forLoop fuel lo hi body a) := by
  rw [← sat_strict, forLoop, strict_countedLoop]
  exact forLoop_range_sat hhi hle hfuel P h0 fun k a hk hk' h => sat_strict.mpr (hbody k a hk hk' h)

theorem forLoop_range_endsOr {α : Type} {body : BitVec 32 → α → Outcome α} {lo hi : BitVec 32}
    {fuel : Nat} {a : α} {C : Prop} (hhi : hi.toNat < 2 ^ 31) (hle : lo.toNat ≤ hi.toNat)
    (hfuel : hi.toNat < fuel + lo.toNat) (P : Nat → α → Prop) (h0 : P lo.toNat a)
    (hbody : ∀ k a, lo.toNat ≤ k → k < hi.toNat → P k a →
      EndsOr C (P (k + 1)) (body (BitVec.ofNat 32 k) a)) :
    EndsOr C (P hi.toNat) (forLoop fuel lo hi body a) := by
  rcases Classical.propComplete C with rfl | rfl
  · exact endsOr_true.mpr (forLoop_range_sat hhi hle hfuel P h0
      fun k a hk hk' h => endsOr_true.mp (hbody k a hk hk' h))
  · exact endsOr_false.mpr (forLoop_range_ends hhi hle hfuel P h0
      fun k a hk hk' h => endsOr_false.mp (hbody k a hk hk' h))

theorem countedLoop_eq_foldAll {T α : Type} {body : BitVec 32 → α → Outcome α} {g : α → T → Outcome α}
    {l : List T} (hl : l.length < 2 ^ 31)
    (hbody : ∀ (k : Nat) (x : T) (a : α), l[k]? = some x → body (BitVec.ofNat 32 k) a = g a x) :
    ∀ (fuel k : Nat) (a : α), k ≤ l.length → l.length < fuel + k →
      countedLoop (BitVec.ofNat 32 l.length - 1#32) 1#32 body fuel (BitVec.ofNat 32 k) a
        = foldAll g a (l.drop k)
  | 0, k, _, hk, hfuel => by omega
  | fuel + 1, k, a, hk, hfuel => by
      rw [countedLoop, slt_sub_one_iff hk hl]
      rcases Nat.lt_or_ge k l.length with hlt | hge
      · have hnext : BitVec.ofNat 32 k + 1#32 = BitVec.ofNat 32 (k + 1) := by rw [BitVec.ofNat_add]
        rw [if_neg (by simp only [decide_eq_true_eq]; omega), List.drop_eq_getElem_cons hlt, foldAll,
          hbody k _ a (List.getElem?_eq_getElem hlt), hnext]
        congr
        funext a'
        exact countedLoop_eq_foldAll hl hbody fuel (k + 1) a' hlt (by omega)
      · obtain rfl : k = l.length := Nat.le_antisymm hk hge
        rw [if_pos (by simp), List.drop_length]
        rfl

/-- A loop over the places of a list is a fold over its elements. -/
theorem forLoop_eq_foldAll {T α : Type} {body : BitVec 32 → α → Outcome α} {g : α → T → Outcome α}
    {l : List T} {fuel : Nat} (hl : l.length < 2 ^ 31) (hfuel : l.length < fuel)
    (hbody : ∀ (k : Nat) (x : T) (a : α), l[k]? = some x → body (BitVec.ofNat 32 k) a = g a x) (a : α) :
    forLoop fuel 0#32 (BitVec.ofNat 32 l.length) body a = foldAll g a l :=
  countedLoop_eq_foldAll hl hbody fuel 0 a (Nat.zero_le _) (by omega)

/-- The rule of a fold over `n` numbers from `lo` on. -/
theorem foldAll_range'_endsOr {α : Type} {C : Prop} {f : α → Nat → Outcome α} (P : Nat → α → Prop) {a : α} (lo : Nat)
    (h0 : P lo a) : ∀ (n : Nat), (∀ k a, lo ≤ k → k < lo + n → P k a → EndsOr C (P (k + 1)) (f a k)) →
      EndsOr C (P (lo + n)) (foldAll f a (List.range' lo n))
  | 0, _ => h0
  | n + 1, hstep => by
      rw [List.range'_1_concat, foldAll_append]
      refine endsOr_bind (foldAll_range'_endsOr P lo h0 n fun k a hlo hk => hstep k a hlo (by omega)) fun b hb => ?_
      refine endsOr_bind (hstep (lo + n) b (by omega) (by omega) hb) fun c hc => ?_
      exact hc

theorem foldAll_range'_ends {α : Type} {f : α → Nat → Outcome α} (P : Nat → α → Prop) {a : α} (lo : Nat)
    (h0 : P lo a) (n : Nat) (hstep : ∀ k a, lo ≤ k → k < lo + n → P k a → Ends (P (k + 1)) (f a k)) :
    Ends (P (lo + n)) (foldAll f a (List.range' lo n)) :=
  endsOr_false.mp (foldAll_range'_endsOr P lo h0 n fun k a hlo hk h => endsOr_false.mpr (hstep k a hlo hk h))

/-- The rule of a fold over the numbers below `n`. -/
theorem foldAll_range_endsOr {α : Type} {C : Prop} {f : α → Nat → Outcome α} (P : Nat → α → Prop) {a : α} (h0 : P 0 a) (n : Nat)
    (hstep : ∀ k a, k < n → P k a → EndsOr C (P (k + 1)) (f a k)) : EndsOr C (P n) (foldAll f a (List.range n)) := by
  have hends := foldAll_range'_endsOr P 0 h0 n fun k a _ hk => hstep k a (by omega)
  rwa [Nat.zero_add, ← List.range_eq_range'] at hends

theorem foldAll_range_ends {α : Type} {f : α → Nat → Outcome α} (P : Nat → α → Prop) {a : α} (h0 : P 0 a) (n : Nat)
    (hstep : ∀ k a, k < n → P k a → Ends (P (k + 1)) (f a k)) : Ends (P n) (foldAll f a (List.range n)) :=
  endsOr_false.mp (foldAll_range_endsOr P h0 n fun k a hk h => endsOr_false.mpr (hstep k a hk h))

/-- A `for` loop whose range is empty. -/
theorem forLoop_empty {α : Type} {body : BitVec 32 → α → Outcome α} {lo hi : BitVec 32}
    {fuel : Nat} (a : α) (hlo : lo.toNat < 2 ^ 31) (hle : hi.toNat ≤ lo.toNat) (hfuel : 0 < fuel) :
    forLoop fuel lo hi body a = done a := by
  obtain ⟨f, rfl⟩ : ∃ f, fuel = f + 1 := ⟨fuel - 1, by omega⟩
  have hhi : hi = BitVec.ofNat 32 hi.toNat := by simp
  have hlo' : lo = BitVec.ofNat 32 lo.toNat := by simp
  have hslt : (hi - 1#32).slt lo = true := by
    rw [BitVec.slt_eq_decide, decide_eq_true_eq, hhi, toInt_ofNat_sub_one (by omega), hlo',
      toInt_ofNat_of_lt (by simpa using hlo)]
    simp only [BitVec.ofNat_toNat, BitVec.setWidth_eq] at *
    omega
  rw [forLoop, countedLoop, if_pos hslt]

end Aipl.Lib
