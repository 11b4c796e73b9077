import Aipl.Consts.Meaning
import Aipl.Lib.Cycles
import Mathlib.Data.List.Forall2

/-! # The folder gives the constants their values

* `Sound` — what the memo holds are values of constants.
* `Yields` — a run of the evaluator ends; it gives only what its meaning says, and gives it where the
  constants being folded are not needed.
* `evalConst_yields` — a constant's evaluation.
* `replacements_ends` — the replacements: all are found exactly when every folded constant has a value.
-/

namespace Aipl.Consts

open Aipl.Lib Outcome

section

variable (fops : FloatOps) (defs : List (String × Def))

/-- What the memo holds are values of constants. -/
def Sound (memo : Memo) : Prop := ∀ s v, memo.lookup s = some v → Denotes fops defs s v

variable {α β : Type}

/-- A meaning by the depth to which constants are followed; following them further keeps it. -/
def Settled (den : Nat → Option α) : Prop := ∀ n m a, n ≤ m → den n = some a → den m = some a

/-- The run ends; it gives what `den` has at some depth, and gives what `den` has at a depth in `G`. -/
def Yields (G : Nat → Prop) (den : Nat → Option α) (o : Fallible ConstError (α × Memo)) : Prop :=
  ∃ r, o.run = done r ∧
    (∀ a memo, r = .ok (a, memo) → (∃ n, den n = some a) ∧ Sound fops defs memo) ∧
    ∀ n a, G n → den n = some a → ∃ memo, r = .ok (a, memo)

end

section

variable {fops : FloatOps} {defs : List (String × Def)} {α β : Type} {G : Nat → Prop} {memo : Memo}

theorem settled_const (r : Option α) : Settled fun _ => r := fun _ _ _ _ h => h

theorem settled_denote (e : Sx) : Settled fun n => denote fops (denoteConst fops defs n) e :=
  fun _ _ _ hnm h => denote_le hnm h

theorem settled_denoteAll (es : List Sx) : Settled fun n => denoteAll fops (denoteConst fops defs n) es :=
  fun _ _ _ hnm h => denoteAll_le hnm h

theorem yields_pure (a : α) (hmemo : Sound fops defs memo) :
    Yields fops defs G (fun _ => some a) (pure (a, memo)) := by
  refine ⟨.ok (a, memo), rfl, ?_, ?_⟩
  · rintro a' memo' h
    cases h
    exact ⟨⟨0, rfl⟩, hmemo⟩
  · rintro n a' - h
    cases h
    exact ⟨memo, rfl⟩

theorem yields_throw (e : ConstError) {den : Nat → Option α} (hden : ∀ n, den n = none) :
    Yields fops defs G den (throw e) := by
  refine ⟨.error e, rfl, ?_, ?_⟩
  · rintro a memo' h
    cases h
  · intro n a _ h
    rw [hden n] at h
    cases h

/-- The sequencing rule. -/
theorem yields_bind {den : Nat → Option α} {den' : α → Nat → Option β}
    {o : Fallible ConstError (α × Memo)} {f : α × Memo → Fallible ConstError (β × Memo)}
    (hden : Settled den) (hden' : ∀ a, Settled (den' a)) (ho : Yields fops defs G den o)
    (hf : ∀ a memo, Sound fops defs memo → Yields fops defs G (den' a) (f (a, memo))) :
    Yields fops defs G (fun n => (den n).bind fun a => den' a n) (o >>= f) := by
  obtain ⟨r, hrun, hok, hfound⟩ := ho
  cases r with
  | error e =>
    refine ⟨.error e, ?_, ?_, ?_⟩
    · rw [ExceptT.run_bind, hrun]
      rfl
    · rintro b memo' h
      cases h
    · intro n b hn h
      obtain ⟨a, ha, -⟩ := Option.bind_eq_some_iff.mp h
      obtain ⟨memo', h⟩ := hfound n a hn ha
      cases h
  | ok r =>
    obtain ⟨a, memo₁⟩ := r
    obtain ⟨⟨k, hk⟩, hmemo⟩ := hok a memo₁ rfl
    obtain ⟨r', hrun', hok', hfound'⟩ := hf a memo₁ hmemo
    refine ⟨r', ?_, ?_, ?_⟩
    · rw [ExceptT.run_bind, hrun]
      exact hrun'
    · intro b memo₂ h
      obtain ⟨⟨m, hm⟩, hmemo₂⟩ := hok' b memo₂ h
      refine ⟨⟨max k m, ?_⟩, hmemo₂⟩
      exact Option.bind_eq_some_iff.mpr
        ⟨a, hden _ _ _ (le_max_left k m) hk, hden' a _ _ _ (le_max_right k m) hm⟩
    · intro n b hn h
      obtain ⟨a', ha', hb⟩ := Option.bind_eq_some_iff.mp h
      obtain ⟨memo', heq⟩ := hfound n a' hn ha'
      cases heq
      exact hfound' n b hn hb

/-! ### Expressions -/

section Expr

variable {const : String → Memo → Fallible ConstError (Val × Memo)} (base : String)
  (hconst : ∀ s memo, (defs.lookup s).isSome → Sound fops defs memo →
    Yields fops defs G (fun n => denoteConst fops defs n s) (const s memo))
include hconst

mutual

theorem evalExpr_yields : ∀ (e : Sx) (memo : Memo), Sound fops defs memo →
    Yields fops defs G (fun n => denote fops (denoteConst fops defs n) e)
      (evalExpr fops defs const base e memo)
  | .atom ⟨kind, _, _⟩, memo, hmemo => by
      simp only [denote, evalExpr]
      cases kind with
      | intLit v =>
        dsimp only
        split
        · exact yields_pure _ hmemo
        · exact yields_throw _ fun _ => rfl
      | int64Lit v => exact yields_pure _ hmemo
      | floatLit bits text => exact yields_pure _ hmemo
      | boolLit b => exact yields_pure _ hmemo
      | symbol s =>
        dsimp only
        split
        · rename_i hs
          exact hconst s memo hs hmemo
        · rename_i hs
          refine yields_throw _ fun n => ?_
          cases n with
          | zero => rfl
          | succ n =>
            rw [denoteConst, Option.not_isSome_iff_eq_none.mp hs]
            rfl
      | _ => exact yields_throw _ fun _ => rfl
  | .list _ [] _, memo, _ => yields_throw _ fun _ => rfl
  | .list _ (head :: args) _, memo, hmemo => by
      simp only [denote, evalExpr]
      refine yields_bind (settled_denoteAll args) (fun vs => settled_const _)
        (evalArgs_yields args memo hmemo) fun vs memo' hmemo' => ?_
      rw [← fold_toOption]
      dsimp only
      cases fold fops (head.symbol.getD "") vs with
      | ok v => exact yields_pure v hmemo'
      | error e => exact yields_throw _ fun _ => rfl

theorem evalArgs_yields : ∀ (es : List Sx) (memo : Memo), Sound fops defs memo →
    Yields fops defs G (fun n => denoteAll fops (denoteConst fops defs n) es)
      (evalArgs fops defs const base es memo)
  | [], memo, hmemo => yields_pure _ hmemo
  | a :: as, memo, hmemo => by
      simp only [denoteAll, evalArgs]
      refine yields_bind (settled_denote a) (fun v => ?_) (evalExpr_yields a memo hmemo)
        fun v memo₁ hmemo₁ => ?_
      · intro n m vs hnm h
        obtain ⟨vs', hvs, rfl⟩ := Option.map_eq_some_iff.mp h
        exact Option.map_eq_some_iff.mpr ⟨vs', denoteAll_le hnm hvs, rfl⟩
      · have hcons : (fun n => (denoteAll fops (denoteConst fops defs n) as).map fun vs => v :: vs) =
            fun n => (denoteAll fops (denoteConst fops defs n) as).bind fun vs => some (v :: vs) :=
          funext fun n => Option.map_eq_bind
        rw [hcons]
        exact yields_bind (settled_denoteAll as) (fun vs => settled_const (some (v :: vs)))
          (evalArgs_yields as memo₁ hmemo₁) fun vs memo₂ hmemo₂ => yields_pure (v :: vs) hmemo₂

end

end Expr

end

/-! ### Constants -/

section

variable (fops : FloatOps) (defs : List (String × Def))

/-- The constants being folded are not needed at depth `n`. -/
def Unneeded (active : List String) (n : Nat) : Prop := ∀ a ∈ active, denoteConst fops defs n a = none

variable {fops defs}

theorem Unneeded.antitone {active : List String} {n m : Nat} (hnm : n ≤ m)
    (h : Unneeded fops defs active m) : Unneeded fops defs active n := by
  intro a ha
  cases hn : denoteConst fops defs n a with
  | none => rfl
  | some v =>
    have hm := denoteConst_mono hnm hn
    rw [h a ha] at hm
    cases hm

/-- A constant's value is found without itself. -/
theorem Unneeded.cons {active : List String} {name : String} {d : Def} {n : Nat} {v : Val}
    (hd : defs.lookup name = some d) (h : Unneeded fops defs active n)
    (hv : denoteConst fops defs n name = some v) :
    ∃ k, Unneeded fops defs (name :: active) k ∧ denote fops (denoteConst fops defs k) d.value = some v ∧
      v.ty = d.ty := by
  classical
  -- the least depth at which it has one
  have hex : ∃ k, ∃ v, denoteConst fops defs k name = some v := ⟨n, v, hv⟩
  obtain ⟨v', hfind⟩ := Nat.find_spec hex
  have hleast : ∀ k < Nat.find hex, denoteConst fops defs k name = none := fun k hk =>
    Option.eq_none_iff_forall_ne_some.mpr fun v hv => Nat.find_min hex hk ⟨v, hv⟩
  have hle : Nat.find hex ≤ n := Nat.find_min' hex ⟨v, hv⟩
  obtain rfl : v' = v := Denotes.unique ⟨_, hfind⟩ ⟨_, hv⟩
  cases hk : Nat.find hex with
  | zero =>
    rw [hk] at hfind
    cases hfind
  | succ k =>
    rw [hk, denoteConst, hd] at hfind
    obtain ⟨hval, hty⟩ := Option.filter_eq_some_iff.mp hfind
    refine ⟨k, ?_, hval, by simpa using hty⟩
    intro a ha
    rcases List.mem_cons.mp ha with rfl | ha
    · exact hleast k (by omega)
    · exact h.antitone (by omega) a ha

/-- **A constant's evaluation** ends, and gives its value unless that needs a constant being folded. -/
theorem evalConst_yields (fuel : Nat) (active : List String) (name : String) (memo : Memo)
    (hname : (defs.lookup name).isSome) (hmemo : Sound fops defs memo)
    (hfuel : ((defs.map Prod.fst).filter (· ∉ active)).length < fuel) :
    Yields fops defs (Unneeded fops defs active) (fun n => denoteConst fops defs n name)
      (evalConst fops defs fuel active name memo) := by
  induction fuel generalizing active name memo with
  | zero => cases hfuel
  | succ fuel ih =>
    rw [evalConst]
    cases hlook : memo.lookup name with
    | some v =>
      obtain ⟨k, hk⟩ := hmemo name v hlook
      refine ⟨.ok (v, memo), rfl, ?_, ?_⟩
      · rintro v' memo' h
        cases h
        exact ⟨⟨k, hk⟩, hmemo⟩
      · intro n v' _ h
        rw [Denotes.unique ⟨n, h⟩ ⟨k, hk⟩]
        exact ⟨memo, rfl⟩
    | none =>
      obtain ⟨d, hd⟩ := Option.isSome_iff_exists.mp hname
      rw [hd]
      dsimp only
      by_cases hactive : name ∈ active
      · rw [if_pos hactive]
        refine ⟨.error _, rfl, ?_, ?_⟩
        · rintro v memo' h
          cases h
        · intro n v hn h
          cases (hn name hactive).symm.trans h
      rw [if_neg hactive]
      have hmem : name ∈ defs.map Prod.fst := by
        obtain ⟨l₁, l₂, hl, -⟩ := List.lookup_eq_some_iff.mp hd
        rw [hl]
        simp
      have hfewer := Cycles.length_filter_lt hmem hactive
      have hexpr := evalExpr_yields (baseName name)
        (fun s memo hs hmemo => ih (name :: active) s memo hs hmemo (by omega)) d.value memo hmemo
      obtain ⟨r, hrun, hok, hfound⟩ := hexpr
      have hval : ∀ {n v}, Unneeded fops defs active n → denoteConst fops defs n name = some v →
          v.ty = d.ty ∧ ∃ memo', r = .ok (v, memo') := by
        intro n v hn h
        obtain ⟨k, hk, hvk, hty⟩ := hn.cons hd h
        exact ⟨hty, hfound k v hk hvk⟩
      cases r with
      | error e =>
        refine ⟨.error e, ?_, ?_, ?_⟩
        · rw [ExceptT.run_bind, hrun]
          rfl
        · rintro v memo' h
          cases h
        · intro n v hn h
          obtain ⟨-, memo', h⟩ := hval hn h
          cases h
      | ok r =>
        obtain ⟨v, memo₁⟩ := r
        obtain ⟨hv, hmemo₁⟩ := hok v memo₁ rfl
        by_cases hty : v.ty = d.ty
        · have hden : Denotes fops defs name v := (denotes_iff hd).mpr ⟨hv, hty⟩
          refine ⟨.ok (v, (name, v) :: memo₁), ?_, ?_, ?_⟩
          · rw [ExceptT.run_bind, hrun]
            simp [hty]
          · rintro v' memo' h
            cases h
            refine ⟨hden, fun s w hs => ?_⟩
            rw [List.lookup_cons] at hs
            split at hs
            · rename_i heq
              cases hs
              rw [eq_of_beq heq]
              exact hden
            · exact hmemo₁ s w hs
          · intro n v' hn h
            obtain ⟨-, memo', heq⟩ := hval hn h
            cases heq
            exact ⟨_, rfl⟩
        · refine ⟨.error (.declared (baseName name) d.ty v.ty), ?_, ?_, ?_⟩
          · rw [ExceptT.run_bind, hrun]
            simp [hty]
          · rintro v' memo' h
            cases h
          · intro n v' hn h
            obtain ⟨hty', memo', heq⟩ := hval hn h
            cases heq
            exact absurd hty' hty

/-! ### The replacements -/

variable (fops defs)

/-- `c` is the replacement of constant `p`: a literal its definition has, or its value. -/
def Replacement (p : String × Def) (c : String × Sx) : Prop :=
  c.1 = p.1 ∧
    if isExpr p.2.value then ∃ v, Denotes fops defs p.1 v ∧ c.2 = v.sx p.2.value else c.2 = p.2.value

/-- A constant that is to be folded has a value. -/
def HasValue (p : String × Def) : Prop := isExpr p.2.value → ∃ v, Denotes fops defs p.1 v

variable {fops defs}

theorem replacement_hasValue {p : String × Def} {c : String × Sx} (h : Replacement fops defs p c) :
    HasValue fops defs p := by
  intro hexpr
  have hc := h.2
  rw [if_pos hexpr] at hc
  obtain ⟨v, hv, -⟩ := hc
  exact ⟨v, hv⟩

variable (fops) in
/-- **The replacements** are found for enough fuel, exactly when the constants have values. -/
theorem replacements_ends {fuel : Nat} (hfuel : defs.length < fuel) (l : List (String × Def))
    (hl : ∀ p ∈ l, defs.lookup p.1 = some p.2) (memo : Memo) (hmemo : Sound fops defs memo) :
    ∃ r, (replacements fops defs fuel l memo).run = done r ∧
      (∀ consts, r = .ok consts → List.Forall₂ (Replacement fops defs) l consts) ∧
      ((∀ p ∈ l, HasValue fops defs p) → ∃ consts, r = .ok consts) := by
  induction l generalizing memo with
  | nil => exact ⟨.ok [], rfl, fun consts h => by cases h; exact .nil, fun _ => ⟨[], rfl⟩⟩
  | cons p l ih =>
    obtain ⟨name, d⟩ := p
    have hd := hl _ List.mem_cons_self
    have hlen : ((defs.map Prod.fst).filter (· ∉ ([] : List String))).length < fuel := by
      refine Nat.lt_of_le_of_lt (List.length_filter_le _ _) ?_
      rwa [List.length_map]
    replace ih := ih fun p hp => hl p (List.mem_cons_of_mem _ hp)
    -- the rest of the list, once this constant's replacement is `sx`
    have hrest : ∀ sx memo₁, Replacement fops defs (name, d) (name, sx) → Sound fops defs memo₁ →
        ∃ r, ((replacements fops defs fuel l memo₁ >>= fun consts =>
          pure ((name, sx) :: consts) : Fallible ConstError (List (String × Sx)))).run = done r ∧
          (∀ consts, r = .ok consts → List.Forall₂ (Replacement fops defs) ((name, d) :: l) consts) ∧
          ((∀ p ∈ (name, d) :: l, HasValue fops defs p) → ∃ consts, r = .ok consts) := by
      intro sx memo₁ hsx hmemo₁
      obtain ⟨r, hrun, hok, hfound⟩ := ih memo₁ hmemo₁
      cases r with
      | error e =>
        refine ⟨.error e, ?_, ?_, ?_⟩
        · rw [ExceptT.run_bind, hrun]
          rfl
        · rintro consts h
          cases h
        · intro h
          obtain ⟨consts, h⟩ := hfound fun p hp => h p (List.mem_cons_of_mem _ hp)
          cases h
      | ok consts =>
        refine ⟨.ok ((name, sx) :: consts), ?_, ?_, fun _ => ⟨_, rfl⟩⟩
        · rw [ExceptT.run_bind, hrun]
          rfl
        · rintro consts' h
          cases h
          exact .cons hsx (hok consts rfl)
    rw [replacements]
    by_cases hexpr : isExpr d.value
    · rw [if_pos hexpr]
      obtain ⟨r, hrun, hok, hfound⟩ :=
        evalConst_yields fuel [] name memo (Option.isSome_of_eq_some hd) hmemo hlen
      cases r with
      | error e =>
        refine ⟨.error e, ?_, ?_, ?_⟩
        · rw [ExceptT.run_bind, hrun]
          rfl
        · rintro consts h
          cases h
        · intro h
          obtain ⟨v, n, hv⟩ := h _ List.mem_cons_self hexpr
          obtain ⟨memo', h⟩ := hfound n v (fun a ha => absurd ha List.not_mem_nil) hv
          cases h
      | ok r =>
        obtain ⟨v, memo₁⟩ := r
        obtain ⟨hv, hmemo₁⟩ := hok v memo₁ rfl
        have hsx : Replacement fops defs (name, d) (name, v.sx d.value) := by
          refine ⟨rfl, ?_⟩
          rw [if_pos hexpr]
          exact ⟨v, hv, rfl⟩
        obtain ⟨r', hrun', hr'⟩ := hrest _ memo₁ hsx hmemo₁
        refine ⟨r', ?_, hr'⟩
        rw [ExceptT.run_bind, hrun]
        exact hrun'
    · rw [if_neg hexpr]
      refine hrest d.value memo ⟨rfl, ?_⟩ hmemo
      rw [if_neg hexpr]

end

end Aipl.Consts
