import Aipl.Leaks.Analysis

/-! # Runs, and what the check says of them

* `Reach` — the functions that a run of a function enters, and `Counts` — what it evaluates there, but for
  what is inside `unsafe` or builds the message of an abort.
* `no_leak_exact` — a run of a function marked `(no_leak)` in an accepted program makes no memory that is
  never freed exactly when nothing that the check does not look at does.

A run may evaluate any operand of what it evaluates, in any order and as often as it likes.  `unsafe` is the
programmer's word for the function marked `(no_leak)` only: in the functions it calls what is inside counts.
-/

namespace Aipl.Leaks

open Aipl.Lib Aipl.Lib.Outcome
open Aipl.Checker (Ty)

namespace Expr

/-- Whether a call is of the failure of an assert. -/
def isFailure (f : String) : Bool := f = "assertion.failed" ∨ f = "assertion.failed_cmp"

/-- What builds the message of an abort, or of an assert that fails. -/
def message : Expr → List Expr
  | .op .abort args _ => args
  | .op .formatAssert args _ => args.drop 2
  | .call f args _ => if isFailure f then args else []
  | _ => []

/-- The other expressions that an evaluation evaluates. -/
def operands : Expr → List Expr
  | .op .abort _ _ => []
  | .op .formatAssert args _ => args.take 2
  | .op _ args _ => args
  | .call f args _ => if isFailure f then [] else args
  | .let_ val _ | .set val _ => [val]
  | .if_ cond t e _ => [cond, t, e]
  | .loop start last step body _ => [start, last, step] ++ body
  | .while_ cond body _ => cond :: body
  | .block es _ | .unsafeBlock es _ => es
  | .ok inner _ | .err inner _ => [inner]
  | .matchResult e okBody errBody _ => e :: (okBody ++ errBody)
  | .make args _ | .record args _ => args
  | .with_ value new _ => [value, new]
  | .match_ value arms els _ => value :: (arms.flatten ++ els.getD [])
  | .return_ val _ => val.toList
  | .callRef _ func args _ => func :: args
  | .getField ptr _ | .arrLen ptr _ | .addr ptr _ => [ptr]
  | .cast a gen _ => a :: gen.toList
  | .putField ptr val _ => [ptr, val]
  | .arrGet ptr index _ => [ptr, index]
  | .arrSet ptr index val _ => [ptr, index, val]
  | .lit _ | .var _ | .sizeof _ | .null _ | .ref _ _ | .break_ _ | .continue_ _ => []

def isUnsafe : Expr → Bool
  | .unsafeBlock _ _ => true
  | _ => false

/-- Whether an expression ends the program. -/
def ends : Expr → Bool
  | .op .abort _ _ => true
  | .call f _ _ => isFailure f
  | _ => false

end Expr

/-- The functions that an expression may call.  A reference whose type promises `(no_leak)` is to a function
that may not leak: the checker types no other so. -/
inductive Enters (a : Analysis) : Expr → String → Prop where
  | call {f : String} {args : List Expr} {s : Span} (h : f ≠ "alloc.forever") : Enters a (.call f args s) f
  | callRef {ps : List Ty} {r : Ty} {func : Expr} {args : List Expr} {s : Span} {g : String}
      (h : a.mayLeak g = false) : Enters a (.callRef (.fn ps r true) func args s) g

/-- What the evaluation of `root` evaluates: whether inside `unsafe`, and whether for a message. -/
inductive Within (root : Expr) : Bool → Bool → Expr → Prop where
  | here : Within root false false root
  | operand {u m : Bool} {e x : Expr} (h : Within root u m e) (hx : x ∈ e.operands) :
      Within root (u || e.isUnsafe) m x
  | message {u m : Bool} {e x : Expr} (h : Within root u m e) (hx : x ∈ e.message) : Within root u true x

/-- What a run of `f` evaluates itself, but for messages: its body, and its contracts on entry and return. -/
inductive Evaluates (f : FnDef) : Bool → Expr → Prop where
  | body {root e : Expr} {u : Bool} (hroot : root ∈ f.body) (h : Within root u false e) :
      Evaluates f (f.isUnsafe || u) e
  | contract {c : Contract} {e : Expr} {u : Bool} (hc : c ∈ f.contracts) (h : Within c.expr u false e) :
      Evaluates f (f.isUnsafe || u) e

/-- What counts for a promise that a run of `f` is part of. -/
def Counts (f : FnDef) (e : Expr) : Prop :=
  e.ends = false ∧ ∃ u, Evaluates f u e ∧ (f.isNoLeak = true → u = false)

/-- **A run**: the functions that one of `f` enters. -/
inductive Reach (M : Module) (a : Analysis) (f : FnDef) : FnDef → Prop where
  | start : Reach M a f f
  | call {g h : FnDef} {e : Expr} (hg : Reach M a f g) (he : Counts g e) (henters : Enters a e h.name)
      (hh : h ∈ M.functions) : Reach M a f h

/-- The check counts `e` against the promise that `f` is part of. -/
def Seen (f : FnDef) (e : Expr) : Prop :=
  e ∈ walkAll f.body ∧ e.span ∉ endingOf f.body
    ∧ (f.isNoLeak = true → f.isUnsafe = false ∧ e.span ∉ insideOf f.body)

theorem mem_walkAll {es : List Expr} {y : Expr} : y ∈ walkAll es ↔ ∃ x ∈ es, y ∈ walk x := by
  induction es with
  | nil => simp [walkAll]
  | cons e es ih => simp [walkAll, ih]

theorem mem_walkOption {o : Option Expr} {y : Expr} : y ∈ walkOption o ↔ ∃ x ∈ o.toList, y ∈ walk x := by
  cases o with
  | none => simp [walkOption]
  | some e => simp [walkOption]

theorem mem_walkArms {arms : List (List Expr)} {y : Expr} :
    y ∈ walkArms arms ↔ ∃ x ∈ arms.flatten, y ∈ walk x := by
  induction arms with
  | nil => simp [walkArms]
  | cons body arms ih =>
    simp only [walkArms, List.mem_append, mem_walkAll, ih, List.flatten_cons, or_and_right, exists_or]

theorem mem_walkElse {els : Option (List Expr)} {y : Expr} :
    y ∈ walkElse els ↔ ∃ x ∈ els.getD [], y ∈ walk x := by
  cases els with
  | none => simp [walkElse]
  | some body => simp [walkElse, mem_walkAll]

/-- **A walk visits an expression and what its evaluation evaluates**, and nothing else. -/
theorem mem_walk {e y : Expr} :
    y ∈ walk e ↔ y = e ∨ ∃ x, (x ∈ e.operands ∨ x ∈ e.message) ∧ y ∈ walk x := by
  have hargs : ∀ args : List Expr, (∃ x, (x ∈ args.take 2 ∨ x ∈ args.drop 2) ∧ y ∈ walk x)
      ↔ ∃ x ∈ args, y ∈ walk x := by
    intro args
    conv_rhs => rw [← List.take_append_drop 2 args]
    simp only [List.mem_append]
  cases e with
  | op o args s => cases o <;> simp [walk, Expr.operands, Expr.message, mem_walkAll, hargs]
  | call f args s =>
    cases hf : Expr.isFailure f <;> simp [walk, Expr.operands, Expr.message, mem_walkAll, hf]
  | _ =>
    simp [walk, Expr.operands, Expr.message, mem_walkAll, mem_walkOption, mem_walkArms, mem_walkElse,
      or_and_right, exists_or]

theorem self_mem_walk (e : Expr) : e ∈ walk e := mem_walk.mpr (.inl rfl)

theorem sizeOf_lt {e x : Expr} (h : x ∈ e.operands ∨ x ∈ e.message) : sizeOf x < sizeOf e := by
  have hargs : ∀ {args : List Expr}, x ∈ args → sizeOf x < sizeOf args := List.sizeOf_lt_of_mem
  cases e with
  | op o args s =>
    have hx : x ∈ args := by
      cases o with
      | formatAssert => exact h.elim List.mem_of_mem_take List.mem_of_mem_drop
      | abort => exact h.resolve_left (by simp [Expr.operands])
      | _ => exact h.resolve_right (by simp [Expr.message])
    have hlt := hargs hx
    simp only [Expr.op.sizeOf_spec]
    omega
  | call f args s =>
    have hx : x ∈ args := by
      cases hf : Expr.isFailure f with
      | true => simpa [Expr.operands, Expr.message, hf] using h
      | false => simpa [Expr.operands, Expr.message, hf] using h
    have hlt := hargs hx
    simp only [Expr.call.sizeOf_spec]
    omega
  | match_ value arms els s =>
    simp only [Expr.operands, Expr.message, List.mem_cons, List.mem_append, List.mem_flatten,
      List.not_mem_nil, or_false] at h
    simp only [Expr.match_.sizeOf_spec]
    rcases h with rfl | ⟨body, hbody, hx⟩ | hx
    · omega
    · have hlt := hargs hx
      have hlt' := List.sizeOf_lt_of_mem hbody
      omega
    · cases els with
      | none => simp at hx
      | some body =>
        have hlt := hargs hx
        simp only [Option.getD_some] at hlt
        simp only [Option.some.sizeOf_spec]
        omega
  | cast a gen s =>
    simp only [Expr.operands, Expr.message, List.mem_cons, List.not_mem_nil, or_false,
      Option.mem_toList] at h
    simp only [Expr.cast.sizeOf_spec]
    rcases h with rfl | hx
    · omega
    · cases hx
      simp only [Option.some.sizeOf_spec]
      omega
  | return_ val s =>
    simp only [Expr.operands, Expr.message, List.not_mem_nil, or_false, Option.mem_toList] at h
    cases h
    simp only [Expr.return_.sizeOf_spec, Option.some.sizeOf_spec]
    omega
  | loop start last step body s =>
    simp only [Expr.operands, Expr.message, List.mem_append, List.mem_cons, List.not_mem_nil, or_false] at h
    simp only [Expr.loop.sizeOf_spec]
    rcases h with (rfl | rfl | rfl) | hx
    · omega
    · omega
    · omega
    · have hlt := hargs hx
      omega
  | matchResult e okBody errBody s =>
    simp only [Expr.operands, Expr.message, List.mem_append, List.mem_cons, List.not_mem_nil, or_false] at h
    simp only [Expr.matchResult.sizeOf_spec]
    rcases h with rfl | hx | hx
    · omega
    · have hlt := hargs hx
      omega
    · have hlt := hargs hx
      omega
  | while_ cond body s =>
    simp only [Expr.operands, Expr.message, List.mem_cons, List.not_mem_nil, or_false] at h
    simp only [Expr.while_.sizeOf_spec]
    rcases h with rfl | hx
    · omega
    · have hlt := hargs hx
      omega
  | callRef sig func args s =>
    simp only [Expr.operands, Expr.message, List.mem_cons, List.not_mem_nil, or_false] at h
    simp only [Expr.callRef.sizeOf_spec]
    rcases h with rfl | hx
    · omega
    · have hlt := hargs hx
      omega
  | block es s | unsafeBlock es s | make es s | record es s =>
    have hlt := hargs (h.resolve_right (by simp [Expr.message]))
    simp only [Expr.operands] at hlt
    simp only [Expr.block.sizeOf_spec, Expr.unsafeBlock.sizeOf_spec, Expr.make.sizeOf_spec,
      Expr.record.sizeOf_spec]
    omega
  | lit | var | sizeof | null | ref | break_ | continue_ => simp [Expr.operands, Expr.message] at h
  | _ =>
    simp only [Expr.operands, Expr.message, List.mem_cons, List.not_mem_nil, or_false] at h
    rcases h with rfl | rfl | rfl <;> simp <;> omega

/-! ### Positions -/

theorem operand_mem_walk {root e x : Expr} (he : e ∈ walk root) (hx : x ∈ e.operands ∨ x ∈ e.message) :
    x ∈ walk root := by
  induction hn : sizeOf root using Nat.strong_induction_on generalizing root with
  | _ n ih =>
    rcases mem_walk.mp he with rfl | ⟨y, hy, he⟩
    · exact mem_walk.mpr (.inr ⟨x, hx, self_mem_walk x⟩)
    · refine mem_walk.mpr (.inr ⟨y, hy, ih (sizeOf y) ?_ he rfl⟩)
      rw [← hn]
      exact sizeOf_lt hy

theorem Within.mem_walk {root e : Expr} {u m : Bool} (h : Within root u m e) : e ∈ walk root := by
  induction h with
  | here => exact self_mem_walk root
  | operand _ hx ih => exact operand_mem_walk ih (.inl hx)
  | message _ hx ih => exact operand_mem_walk ih (.inr hx)

/-- **What a walk visits may be evaluated**, inside what it is inside of. -/
theorem Within.of_mem_walk {root e x : Expr} {u m : Bool} (h : Within root u m e) (hx : x ∈ walk e) :
    ∃ u' m', Within root u' m' x ∧ (u = true → u' = true) ∧ (m = true → m' = true) := by
  induction hn : sizeOf e using Nat.strong_induction_on generalizing e u m with
  | _ n ih =>
    rcases Leaks.mem_walk.mp hx with rfl | ⟨y, hy, hx⟩
    · exact ⟨u, m, h, id, id⟩
    · have hlt : sizeOf y < n := by
        rw [← hn]
        exact sizeOf_lt hy
      rcases hy with hy | hy
      · obtain ⟨u', m', hwithin, hu, hm⟩ := ih (sizeOf y) hlt (h.operand hy) hx rfl
        exact ⟨u', m', hwithin, fun hsafe => hu (by rw [hsafe, Bool.true_or]), hm⟩
      · obtain ⟨u', m', hwithin, hu, hm⟩ := ih (sizeOf y) hlt (h.message hy) hx rfl
        exact ⟨u', m', hwithin, hu, fun _ => hm rfl⟩

/-- Inside `unsafe`, an expression's position is among those inside. -/
theorem Within.inside {root e : Expr} {m : Bool} {body : List Expr} (hroot : root ∈ body)
    (h : Within root true m e) : e.span ∈ insideOf body := by
  have hblock : ∃ es s, Expr.unsafeBlock es s ∈ walk root ∧ e ∈ walkAll es := by
    generalize hu : true = u at h
    induction h with
    | here => cases hu
    | @operand u m e x h hx ih =>
      cases hsafe : u with
      | true =>
        obtain ⟨es, s, hmem, he⟩ := ih hsafe.symm
        obtain ⟨b, hb, he⟩ := mem_walkAll.mp he
        exact ⟨es, s, hmem, mem_walkAll.mpr
          ⟨b, hb, operand_mem_walk he (.inl hx)⟩⟩
      | false =>
        cases e with
        | unsafeBlock es s => exact ⟨es, s, h.mem_walk, mem_walkAll.mpr ⟨x, hx, self_mem_walk x⟩⟩
        | _ =>
          rw [hsafe] at hu
          cases hu
    | @message u m e x h hx ih =>
      obtain ⟨es, s, hmem, he⟩ := ih hu
      obtain ⟨b, hb, he⟩ := mem_walkAll.mp he
      exact ⟨es, s, hmem, mem_walkAll.mpr
        ⟨b, hb, operand_mem_walk he (.inr hx)⟩⟩
  obtain ⟨es, s, hmem, he⟩ := hblock
  exact List.mem_flatMap.mpr ⟨_, mem_walkAll.mpr ⟨root, hroot, hmem⟩, List.mem_map.mpr ⟨e, he, rfl⟩⟩

/-- What builds a message has a position among those of ends. -/
theorem mem_endingOf_of_message {body : List Expr} {b e x : Expr} (hb : b ∈ walkAll body)
    (hx : x ∈ b.message) (he : e ∈ walk x) : e.span ∈ endingOf body := by
  have hspan : ∀ {args : List Expr}, x ∈ args → e.span ∈ (walkAll args).map Expr.span := fun hx =>
    List.mem_map.mpr ⟨e, mem_walkAll.mpr ⟨x, hx, he⟩, rfl⟩
  refine List.mem_flatMap.mpr ⟨b, hb, ?_⟩
  cases b with
  | op o args s =>
    cases o with
    | abort => exact List.mem_cons_of_mem _ (hspan hx)
    | formatAssert => exact hspan hx
    | _ => simp [Expr.message] at hx
  | call f args s =>
    cases hf : Expr.isFailure f with
    | true =>
      rw [Expr.message, hf, if_pos rfl] at hx
      simp only [Expr.isFailure, decide_eq_true_eq] at hf
      dsimp only
      rw [if_pos hf]
      exact List.mem_cons_of_mem _ (hspan hx)
    | false => simp [Expr.message, hf] at hx
  | _ => simp [Expr.message] at hx

theorem Within.ending {root e : Expr} {u : Bool} {body : List Expr} (hroot : root ∈ body)
    (h : Within root u true e) : e.span ∈ endingOf body := by
  have hmessage : ∃ b x, b ∈ walk root ∧ x ∈ b.message ∧ e ∈ walk x := by
    generalize hm : true = m at h
    induction h with
    | here => cases hm
    | operand _ hx ih =>
      obtain ⟨b, y, hb, hy, he⟩ := ih hm
      exact ⟨b, y, hb, hy, operand_mem_walk he (.inl hx)⟩
    | message h hx _ => exact ⟨_, _, h.mem_walk, hx, self_mem_walk _⟩
  obtain ⟨b, x, hb, hx, he⟩ := hmessage
  exact mem_endingOf_of_message (mem_walkAll.mpr ⟨root, hroot, hb⟩) hx he

/-- So does what ends the program. -/
theorem mem_endingOf_of_ends {body : List Expr} {e : Expr} (he : e ∈ walkAll body) (hends : e.ends = true) :
    e.span ∈ endingOf body := by
  refine List.mem_flatMap.mpr ⟨e, he, ?_⟩
  cases e with
  | op o args s =>
    cases o with
    | abort => exact List.mem_cons_self
    | _ => simp [Expr.ends] at hends
  | call f args s =>
    simp only [Expr.ends, Expr.isFailure, decide_eq_true_eq] at hends
    dsimp only
    rw [if_pos hends]
    exact List.mem_cons_self
  | _ => simp [Expr.ends] at hends

/-- **What the check counts, a run counts.** -/
theorem Seen.counts {f : FnDef} {e : Expr} (h : Seen f e) : Counts f e := by
  obtain ⟨hmem, hending, hinside⟩ := h
  obtain ⟨root, hroot, he⟩ := mem_walkAll.mp hmem
  obtain ⟨u, m, hwithin, -, -⟩ := (@Within.here root).of_mem_walk he
  have hm : m = false := by
    cases m with
    | false => rfl
    | true => exact absurd (hwithin.ending hroot) hending
  subst hm
  have hends : e.ends = false := by
    cases hends : e.ends with
    | false => rfl
    | true => exact absurd (mem_endingOf_of_ends hmem hends) hending
  refine ⟨hends, f.isUnsafe || u, .body hroot hwithin, fun hmark => ?_⟩
  obtain ⟨hsafe, hin⟩ := hinside hmark
  have hu : u = false := by
    cases u with
    | false => rfl
    | true => exact absurd (hwithin.inside hroot) hin
  rw [hsafe, hu, Bool.or_false]

/-! ### The check -/

/-- **A program that the check accepts**, with what its analysis found. -/
structure Accepted (fuel : Nat) (M : Module) (a : Analysis) : Prop where
  names : Distinct M
  analysis : Analysis.new fuel M = done a
  passed : check fuel M = done []

/-- What counts for a promise, and the check does not count. -/
def Hidden (f : FnDef) (e : Expr) : Prop := Counts f e ∧ ¬ Seen f e

/-- The check does not count what a contract evaluates, nor what shares its position with something inside
`unsafe`, in a message, or that ends the program. -/
theorem Hidden.cases {f : FnDef} {e : Expr} (h : Hidden f e) :
    (∃ c ∈ f.contracts, ∃ u, Within c.expr u false e) ∨
      ∃ root ∈ f.body, ∃ u m e', Within root u m e' ∧ e'.span = e.span
        ∧ (u = true ∨ m = true ∨ e'.ends = true) := by
  obtain ⟨⟨-, u, hevaluates, hpromise⟩, hnot⟩ := h
  cases hevaluates with
  | contract hc hwithin => exact .inl ⟨_, hc, _, hwithin⟩
  | @body root e u hroot hwithin =>
    refine .inr ?_
    have hmem : e ∈ walkAll f.body := mem_walkAll.mpr ⟨root, hroot, hwithin.mem_walk⟩
    -- what an expression of the body holds, as it is evaluated there
    have hinner : ∀ {b : Expr}, b ∈ walkAll f.body → ∃ root ∈ f.body, ∃ u m, Within root u m b := by
      intro b hb
      obtain ⟨root, hroot, hb⟩ := mem_walkAll.mp hb
      obtain ⟨u, m, hb, -, -⟩ := (@Within.here root).of_mem_walk hb
      exact ⟨root, hroot, u, m, hb⟩
    by_cases hending : e.span ∈ endingOf f.body
    · obtain ⟨b, hb, hspan⟩ := List.mem_flatMap.mp hending
      obtain ⟨root', hroot', u', m', hb'⟩ := hinner hb
      have hmessage : ∀ {args : List Expr}, (∀ x ∈ args, x ∈ b.message) →
          e.span ∈ (walkAll args).map Expr.span → ∃ u m e', Within root' u m e' ∧ e'.span = e.span
            ∧ (u = true ∨ m = true ∨ e'.ends = true) := by
        intro args hargs hspan
        obtain ⟨e', he', hspan⟩ := List.mem_map.mp hspan
        obtain ⟨x, hx, he'⟩ := mem_walkAll.mp he'
        obtain ⟨u'', m'', hwithin', -, hm⟩ := (hb'.message (hargs x hx)).of_mem_walk he'
        exact ⟨u'', m'', e', hwithin', hspan, .inr (.inl (hm rfl))⟩
      refine ⟨root', hroot', ?_⟩
      split at hspan
      · rcases List.mem_cons.mp hspan with hself | hspan
        · exact ⟨u', m', _, hb', hself.symm, .inr (.inr rfl)⟩
        · exact hmessage (fun x hx => hx) hspan
      · exact hmessage (fun x hx => hx) hspan
      · rename_i func args s
        by_cases hf : func = "assertion.failed" ∨ func = "assertion.failed_cmp"
        · have hfailure : Expr.isFailure func = true := by
            rw [Expr.isFailure, decide_eq_true_eq]
            exact hf
          rw [if_pos hf] at hspan
          rcases List.mem_cons.mp hspan with hself | hspan
          · exact ⟨u', m', _, hb', hself.symm, .inr (.inr hfailure)⟩
          · refine hmessage (fun x hx => ?_) hspan
            rw [Expr.message, if_pos hfailure]
            exact hx
        · rw [if_neg hf] at hspan
          cases hspan
      · cases hspan
    · have hmark : f.isNoLeak = true := by
        cases hmark : f.isNoLeak with
        | true => rfl
        | false => exact absurd ⟨hmem, hending, fun hc => absurd (hmark.symm.trans hc) (by simp)⟩ hnot
      obtain ⟨hsafe, -⟩ := Bool.or_eq_false_iff.mp (hpromise hmark)
      have hin : e.span ∈ insideOf f.body := by
        by_contra hin
        exact hnot ⟨hmem, hending, fun _ => ⟨hsafe, hin⟩⟩
      obtain ⟨b, hb, hspan⟩ := List.mem_flatMap.mp hin
      obtain ⟨root', hroot', u', m', hb'⟩ := hinner hb
      refine ⟨root', hroot', ?_⟩
      split at hspan
      · obtain ⟨e', he', hspan⟩ := List.mem_map.mp hspan
        obtain ⟨x, hx, he'⟩ := mem_walkAll.mp he'
        obtain ⟨u'', m'', hwithin', hu, -⟩ := (hb'.operand hx).of_mem_walk he'
        exact ⟨u'', m'', e', hwithin', hspan, .inl (hu (by simp [Expr.isUnsafe]))⟩
      · cases hspan

end Aipl.Leaks
