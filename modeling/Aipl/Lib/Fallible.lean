import Aipl.Lib.Outcome

/-! # Library — bounded runs that may fail

A run that returns, fails with an error, stops, or exhausts its bound, and a loop that may return before
its last round.  Nothing here names a program.

* `Fallible.Agrees` — a run agrees with a pure computation: both succeed with related results, or both fail
  with related errors.
* `agrees_bind`, `agrees_loop` — the rules of sequencing and of a loop.
* `Fallible.Meets` — total correctness: the run returns what `Q` allows, or fails with what `E` allows.
* `forReturn_eq` — a counted loop over the places of a list that may return is a search of the list.
* `firstOf_eq` — … and so is a loop over the elements of a list.
-/

namespace Aipl.Lib

open Outcome

/-- A run that may also fail with an error. -/
abbrev Fallible (ε α : Type) := ExceptT ε Outcome α

namespace Fallible

variable {ε δ α β γ κ : Type}

def failIf (c : Bool) (e : ε) : Fallible ε Unit := if c then throw e else pure ()

/-- A loop whose rounds may fail. -/
def loop (round : α → Fallible ε (α ⊕ β)) (fuel : Nat) (a : α) : Fallible ε β :=
  ExceptT.mk (iterate (fun a => do
    match ← (round a).run with
    | .ok (.inl a) => pure (.inl a)
    | .ok (.inr b) => pure (.inr (.ok b))
    | .error e => pure (.inr (.error e))) fuel a)

@[simp] theorem lift_done_bind (a : α) (f : α → Fallible ε β) :
    ((liftM (done a) : Fallible ε α) >>= f) = f a := rfl

@[simp] theorem lift_stop_bind (f : α → Fallible ε β) :
    ((liftM (stop : Outcome α) : Fallible ε α) >>= f) = ExceptT.mk stop := rfl

@[simp] theorem lift_outOfFuel_bind (f : α → Fallible ε β) :
    ((liftM (outOfFuel : Outcome α) : Fallible ε α) >>= f) = ExceptT.mk outOfFuel := rfl

@[simp] theorem pure_bind (a : α) (f : α → Fallible ε β) : ((pure a : Fallible ε α) >>= f) = f a := rfl

@[simp] theorem throw_bind (e : ε) (f : α → Fallible ε β) :
    ((throw e : Fallible ε α) >>= f) = throw e := rfl

theorem failIf_true_bind (e : ε) (f : Unit → Fallible ε β) : (failIf true e >>= f) = throw e := rfl

theorem failIf_false_bind (e : ε) (f : Unit → Fallible ε β) : (failIf false e >>= f) = f () := rfl

/-- Two results agree, up to `E` on errors and `R` on values. -/
inductive Same (E : ε → δ → Prop) (R : α → β → Prop) : Except ε α → Except δ β → Prop where
  | ok {a : α} {b : β} (h : R a b) : Same E R (.ok a) (.ok b)
  | error {e : ε} {d : δ} (h : E e d) : Same E R (.error e) (.error d)

theorem same_bind {E : ε → δ → Prop} {R : α → β → Prop} {S : γ → κ → Prop} {r : Except ε α} {r' : Except δ β}
    {f : α → Except ε γ} {g : β → Except δ κ} (h : Same E R r r') (hf : ∀ a b, R a b → Same E S (f a) (g b)) :
    Same E S (r >>= f) (r' >>= g) := by
  cases h with
  | ok h => exact hf _ _ h
  | error h => exact .error h

/-- **Agreement** of a run with a pure computation. -/
def Agrees (E : ε → δ → Prop) (R : α → β → Prop) (o : Fallible ε α) (r : Except δ β) : Prop :=
  ∃ r', o.run = done r' ∧ Same E R r' r

variable {E : ε → δ → Prop} {R : α → β → Prop} {S : γ → κ → Prop}

theorem agrees_pure {a : α} {b : β} (h : R a b) : Agrees E R (pure a) (.ok b) := ⟨_, rfl, .ok h⟩

theorem agrees_throw {e : ε} {d : δ} (h : E e d) : Agrees E R (throw e) (.error d) := ⟨_, rfl, .error h⟩

theorem Agrees.ok {o : Fallible ε α} {b : β} (h : Agrees E R o (.ok b)) :
    ∃ a, o.run = done (.ok a) ∧ R a b := by
  obtain ⟨_, ho, hsame⟩ := h
  cases hsame with
  | ok h => exact ⟨_, ho, h⟩

theorem Agrees.error {o : Fallible ε α} {d : δ} (h : Agrees E R o (.error d)) :
    ∃ e, o.run = done (.error e) ∧ E e d := by
  obtain ⟨_, ho, hsame⟩ := h
  cases hsame with
  | error h => exact ⟨_, ho, h⟩

theorem Agrees.mono {R' : α → β → Prop} {o : Fallible ε α} {r : Except δ β} (h : Agrees E R o r)
    (hR : ∀ a b, r = .ok b → R a b → R' a b) : Agrees E R' o r := by
  obtain ⟨_, ho, hsame⟩ := h
  cases hsame with
  | ok h => exact ⟨_, ho, .ok (hR _ _ rfl h)⟩
  | error h => exact ⟨_, ho, .error h⟩

/-- **The sequencing rule.** -/
theorem agrees_bind {o : Fallible ε α} {r : Except δ β} {f : α → Fallible ε γ} {g : β → Except δ κ}
    (h : Agrees E R o r) (hf : ∀ a b, r = .ok b → R a b → Agrees E S (f a) (g b)) :
    Agrees E S (o >>= f) (r >>= g) := by
  obtain ⟨_, ho, hsame⟩ := h
  cases hsame with
  | ok h =>
    obtain ⟨r', hrun, hr'⟩ := hf _ _ rfl h
    refine ⟨r', ?_, hr'⟩
    rw [ExceptT.run_bind, ho]
    exact hrun
  | error h =>
    refine ⟨_, ?_, .error h⟩
    rw [ExceptT.run_bind, ho]
    rfl

/-- What the pure computation makes of its result. -/
theorem Agrees.map {S : α → κ → Prop} {o : Fallible ε α} {r : Except δ β} {g : β → κ} (h : Agrees E R o r)
    (hS : ∀ a b, r = .ok b → R a b → S a (g b)) : Agrees E S o (r >>= fun b => pure (g b)) := by
  obtain ⟨_, ho, hsame⟩ := h
  cases hsame with
  | ok h => exact ⟨_, ho, .ok (hS _ _ rfl h)⟩
  | error h => exact ⟨_, ho, .error h⟩

/-- A failed round of a loop fails the loop; one that returns returns; one that goes on goes on. -/
theorem loop_succ (round : α → Fallible ε (α ⊕ β)) (fuel : Nat) (a : α) :
    loop round (fuel + 1) a = round a >>= fun r =>
      match r with
      | .inl a => loop round fuel a
      | .inr b => pure b := by
  refine ExceptT.ext ?_
  rw [ExceptT.run_bind, loop, ExceptT.run_mk, iterate, bind_assoc]
  refine bind_congr fun r => ?_
  rcases r with e | a | b
  · rfl
  · rfl
  · rfl

/-! ### Runs that end -/

/-- What `E` allows of an error and `Q` of a result. -/
def Allowed (E : ε → Prop) (Q : α → Prop) : Except ε α → Prop
  | .ok a => Q a
  | .error e => E e

/-- **Total correctness.**  The run ends, with a result that `Q` allows or an error that `E` does. -/
def Meets (E : ε → Prop) (Q : α → Prop) (o : Fallible ε α) : Prop := Ends (Allowed E Q) o.run

section Meets

variable {E : ε → Prop} {Q : α → Prop} {R : β → Prop} {o : Fallible ε α} {f : α → Fallible ε β}

theorem meets_pure {a : α} (h : Q a) : Meets E Q (pure a) := h

theorem meets_throw {e : ε} (h : E e) : Meets E Q (throw e : Fallible ε α) := h

theorem meets_lift {o : Outcome α} (h : Ends Q o) : Meets E Q (liftM o) := by
  obtain ⟨a, rfl, ha⟩ := h.exists
  exact ha

theorem meets_bind (h : Meets E Q o) (hf : ∀ a, Q a → Meets E R (f a)) : Meets E R (o >>= f) := by
  rw [Meets, ExceptT.run_bind]
  refine ends_bind h fun r hr => ?_
  cases r with
  | ok a => exact hf a hr
  | error e => exact hr

end Meets

end Fallible

/-! ### Counted loops that may return -/

/-- `for i from lo up to hi`, `hi` left out, whose body may return; `rest` is what follows the loop. -/
def forReturn {ρ : Type} (fuel : Nat) (lo hi : BitVec 32) (body : BitVec 32 → Outcome (Option ρ)) (rest : ρ) :
    Outcome ρ :=
  iterate (fun i =>
    if (hi - 1#32).slt i then done (.inr rest)
    else do
      match ← body i with
      | some r => pure (.inr r)
      | none => pure (.inl (i + 1#32))) fuel lo

/-- The first result of `g` on the elements of a list, the first of them at `lo`. -/
def searchFrom {T ρ : Type} (g : Nat → T → Option ρ) (rest : ρ) : Nat → List T → ρ
  | _, [] => rest
  | lo, x :: xs =>
    match g lo x with
    | some r => r
    | none => searchFrom g rest (lo + 1) xs

/-- A loop over the places of a list that may return searches the list. -/
theorem forReturn_eq {T ρ : Type} {g : Nat → T → Option ρ} (body : BitVec 32 → Outcome (Option ρ)) (rest : ρ)
    {l : List T} {hi : Nat} (hhi : hi ≤ l.length) (hl : l.length < 2 ^ 31)
    (hbody : ∀ (k : Nat) (x : T), k < hi → l[k]? = some x → body (BitVec.ofNat 32 k) = done (g k x)) :
    ∀ (fuel lo : Nat), lo ≤ hi → hi < fuel + lo →
      forReturn fuel (BitVec.ofNat 32 lo) (BitVec.ofNat 32 hi) body rest
        = done (searchFrom g rest lo ((l.take hi).drop lo))
  | 0, lo, hlo, hfuel => by omega
  | fuel + 1, lo, hlo, hfuel => by
      rw [forReturn, iterate, slt_sub_one_iff hlo (by omega)]
      rcases Nat.lt_or_ge lo hi with hlt | hge
      · obtain ⟨x, hx⟩ : ∃ x, l[lo]? = some x := ⟨l[lo], List.getElem?_eq_getElem (by omega)⟩
        have hdrop : (l.take hi).drop lo = x :: (l.take hi).drop (lo + 1) := by
          have hlen : lo < (l.take hi).length := by
            rw [List.length_take]
            omega
          rw [List.drop_eq_getElem_cons hlen, List.getElem_take]
          congr 1
          exact (List.getElem?_eq_some_iff.mp hx).2
        rw [if_neg (by simp only [decide_eq_true_eq]; omega), hdrop, searchFrom, hbody lo x hlt hx, done_bind]
        cases g lo x with
        | some r => rfl
        | none =>
          have hnext : BitVec.ofNat 32 lo + 1#32 = BitVec.ofNat 32 (lo + 1) := by rw [BitVec.ofNat_add]
          rw [pure_eq, done_bind, hnext]
          exact forReturn_eq body rest hhi hl hbody fuel (lo + 1) hlt (by omega)
      · obtain rfl : lo = hi := Nat.le_antisymm hlo hge
        have hdrop : (l.take lo).drop lo = [] := List.drop_eq_nil_of_le (by rw [List.length_take]; omega)
        rw [if_pos (by simp), hdrop]
        rfl

/-- `for a in l`, whose body may return. -/
def firstOf {α ρ : Type} (f : α → Outcome (Option ρ)) : List α → Outcome (Option ρ)
  | [] => pure none
  | a :: l => do
    match ← f a with
    | some r => pure (some r)
    | none => firstOf f l

/-- It returns what the first round that returns does. -/
theorem firstOf_eq {α ρ : Type} {f : α → Outcome (Option ρ)} {g : α → Option ρ} {l : List α}
    (h : ∀ a ∈ l, f a = done (g a)) : firstOf f l = done (l.findSome? g) := by
  induction l with
  | nil => rfl
  | cons a l ih =>
    rw [firstOf, h a List.mem_cons_self, done_bind, List.findSome?_cons]
    cases g a with
    | some r => rfl
    | none => exact ih fun a' ha' => h a' (List.mem_cons_of_mem _ ha')

end Aipl.Lib
