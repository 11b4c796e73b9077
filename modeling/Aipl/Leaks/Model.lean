import Aipl.Checker.Types
import Aipl.Lib.Outcome
import Mathlib.Data.List.Sort

/-! # The check of `(no_leak)`, as its source computes it

Which functions may make memory that is never freed, and the errors for the functions marked `(no_leak)`
that do.  Of an expression the model keeps its form, its operands and its position; names, types and
literals that the analysis does not look at are left out.  An operation is one the analysis knows, or
`other`.
-/

namespace Aipl.Leaks

open Aipl.Lib Aipl.Lib.Outcome
open Aipl.Checker (Ty)

/-- A line and a column. -/
abbrev Span := Nat × Nat

inductive OpCode where
  | memAlloc
  | formatStr
  | abort
  | formatAssert
  | other
deriving DecidableEq

inductive Expr where
  | lit (span : Span)
  | var (span : Span)
  | let_ (val : Expr) (span : Span)
  | set (val : Expr) (span : Span)
  | if_ (cond thenBranch elseBranch : Expr) (span : Span)
  | loop (start last step : Expr) (body : List Expr) (span : Span)
  | while_ (cond : Expr) (body : List Expr) (span : Span)
  | call (func : String) (args : List Expr) (span : Span)
  | op (op : OpCode) (args : List Expr) (span : Span)
  | ok (inner : Expr) (span : Span)
  | err (inner : Expr) (span : Span)
  | matchResult (expr : Expr) (okBody errBody : List Expr) (span : Span)
  | block (exprs : List Expr) (span : Span)
  | unsafeBlock (exprs : List Expr) (span : Span)
  | getField (ptr : Expr) (span : Span)
  | putField (ptr val : Expr) (span : Span)
  | sizeof (span : Span)
  | arrGet (ptr index : Expr) (span : Span)
  | arrSet (ptr index val : Expr) (span : Span)
  | arrLen (arr : Expr) (span : Span)
  | null (span : Span)
  | cast (addr : Expr) (gen : Option Expr) (span : Span)
  | record (args : List Expr) (span : Span)
  | with_ (value newVal : Expr) (span : Span)
  | make (args : List Expr) (span : Span)
  | match_ (value : Expr) (arms : List (List Expr)) (elseBody : Option (List Expr)) (span : Span)
  | return_ (val : Option Expr) (span : Span)
  | break_ (span : Span)
  | continue_ (span : Span)
  | ref (name : String) (span : Span)
  | callRef (sig : Ty) (func : Expr) (args : List Expr) (span : Span)
  | addr (val : Expr) (span : Span)

def Expr.span : Expr → Span
  | .lit s | .var s | .let_ _ s | .set _ s | .if_ _ _ _ s | .loop _ _ _ _ s | .while_ _ _ s
  | .call _ _ s | .op _ _ s | .ok _ s | .err _ s | .matchResult _ _ _ s | .block _ s | .unsafeBlock _ s
  | .getField _ s | .putField _ _ s | .sizeof s | .arrGet _ _ s | .arrSet _ _ _ s | .arrLen _ s | .null s
  | .cast _ _ s | .record _ s | .with_ _ _ s | .make _ s | .match_ _ _ _ s | .return_ _ s | .break_ s
  | .continue_ s | .ref _ s | .callRef _ _ _ s | .addr _ s => s

inductive Contract where
  | requires (expr : Expr)
  | ensures (expr : Expr)
  | invariant (expr : Expr)

def Contract.expr : Contract → Expr
  | .requires e | .ensures e | .invariant e => e

structure FnDef where
  name : String
  contracts : List Contract
  body : List Expr
  isUnsafe : Bool
  isNoLeak : Bool

structure Module where
  functions : List FnDef

/-! ### Walking -/

mutual

/-- The expressions `walk_expr` visits, in order. -/
def walk : Expr → List Expr
  | .let_ val s => .let_ val s :: walk val
  | .set val s => .set val s :: walk val
  | .if_ cond t e s => .if_ cond t e s :: (walk cond ++ walk t ++ walk e)
  | .loop start last step body s =>
    .loop start last step body s :: (walk start ++ walk last ++ walk step ++ walkAll body)
  | .while_ cond body s => .while_ cond body s :: (walk cond ++ walkAll body)
  | .call f args s => .call f args s :: walkAll args
  | .op o args s => .op o args s :: walkAll args
  | .block es s => .block es s :: walkAll es
  | .unsafeBlock es s => .unsafeBlock es s :: walkAll es
  | .ok inner s => .ok inner s :: walk inner
  | .err inner s => .err inner s :: walk inner
  | .matchResult e ok err s => .matchResult e ok err s :: (walk e ++ walkAll ok ++ walkAll err)
  | .make args s => .make args s :: walkAll args
  | .record args s => .record args s :: walkAll args
  | .with_ value new s => .with_ value new s :: (walk value ++ walk new)
  | .match_ value arms els s =>
    .match_ value arms els s :: (walk value ++ walkArms arms ++ walkElse els)
  | .return_ val s => .return_ val s :: walkOption val
  | .callRef sig func args s => .callRef sig func args s :: (walk func ++ walkAll args)
  | .getField ptr s => .getField ptr s :: walk ptr
  | .arrLen arr s => .arrLen arr s :: walk arr
  | .addr val s => .addr val s :: walk val
  | .cast a gen s => .cast a gen s :: (walk a ++ walkOption gen)
  | .putField ptr val s => .putField ptr val s :: (walk ptr ++ walk val)
  | .arrGet ptr index s => .arrGet ptr index s :: (walk ptr ++ walk index)
  | .arrSet ptr index val s => .arrSet ptr index val s :: (walk ptr ++ walk index ++ walk val)
  | .lit s => [.lit s]
  | .var s => [.var s]
  | .sizeof s => [.sizeof s]
  | .null s => [.null s]
  | .ref name s => [.ref name s]
  | .break_ s => [.break_ s]
  | .continue_ s => [.continue_ s]

def walkAll : List Expr → List Expr
  | [] => []
  | e :: es => walk e ++ walkAll es

def walkOption : Option Expr → List Expr
  | none => []
  | some e => walk e

def walkArms : List (List Expr) → List Expr
  | [] => []
  | body :: arms => walkAll body ++ walkArms arms

def walkElse : Option (List Expr) → List Expr
  | none => []
  | some body => walkAll body

end

/-! ### Sites -/

/-- What a site does: an allocation that is never freed, or a call. -/
inductive Site where
  | leak (what : String)
  | call (func : String)
deriving DecidableEq

/-- A call through a function reference whose type does not promise `(no_leak)`. -/
def THROUGH : String := "a call through a function type without (no_leak)"

/-- A site: where it is, what it does, and whether it is inside `unsafe`. -/
abbrev Sited := Span × Site × Bool

/-- The positions inside the `unsafe` blocks of `body`. -/
def insideOf (body : List Expr) : List Span :=
  (walkAll body).flatMap fun
    | .unsafeBlock es _ => (walkAll es).map Expr.span
    | _ => []

/-- The positions in the aborts and failures of asserts of `body`, which end the program. -/
def endingOf (body : List Expr) : List Span :=
  (walkAll body).flatMap fun
    | .op .abort args s => s :: (walkAll args).map Expr.span
    -- an assert's third operand, the message, is built only when it fails
    | .op .formatAssert args _ => (walkAll (args.drop 2)).map Expr.span
    | .call f args s =>
      if f = "assertion.failed" ∨ f = "assertion.failed_cmp" then s :: (walkAll args).map Expr.span else []
    | _ => []

def siteOf : Expr → Option Site
  | .op .memAlloc _ _ => some (.leak "mem.alloc")
  | .op .formatStr _ _ => some (.leak "format (a str)")
  | .callRef (.fn _ _ true) _ _ _ => none
  | .callRef _ _ _ _ => some (.leak THROUGH)
  | .call f _ _ => some (if f = "alloc.forever" then .leak "alloc.forever" else .call f)
  | _ => none

def visit (f : FnDef) (e : Expr) : Option Sited :=
  if e.span ∈ endingOf f.body then none
  else (siteOf e).map fun s => (e.span, s, f.isUnsafe || decide (e.span ∈ insideOf f.body))

/-- Whether `a` is before `b` in the source, or where it is. -/
def before (a b : Sited) : Prop := a.1.1 < b.1.1 ∨ a.1.1 = b.1.1 ∧ a.1.2 ≤ b.1.2

instance : DecidableRel before := fun a b =>
  inferInstanceAs (Decidable (a.1.1 < b.1.1 ∨ a.1.1 = b.1.1 ∧ a.1.2 ≤ b.1.2))

/-- The leaking sites and calls of `f`, in source order. -/
def sites (f : FnDef) : List Sited := ((walkAll f.body).filterMap (visit f)).insertionSort before

/-! ### The analysis -/

/-- Why a function may leak. -/
inductive Why where
  | uses (what : String)
  | calls (func : String)

structure Analysis where
  all : List (String × List Sited)
  why : List (String × Why)

namespace Analysis

/-- `all[name]`: of functions of one name, the last. -/
def sitesOf (all : List (String × List Sited)) (name : String) : List Sited :=
  (all.reverse.lookup name).getD []

/-- The first reason that the sites of a function give. -/
def reason (why : List (String × Why)) (ss : List Sited) : Option Why :=
  ss.findSome? fun
    | (_, .leak what, _) => some (.uses what)
    | (_, .call g, _) => if (why.lookup g).isSome then some (.calls g) else none

/-- One function's turn in a pass; the flag says whether the pass found a reason. -/
def turn (all : List (String × List Sited)) (marked : List String) :
    Bool × List (String × Why) → FnDef → Bool × List (String × Why)
  | (more, why), f =>
    if f.name ∈ marked ∨ (why.lookup f.name).isSome then (more, why)
    else
      match reason why (sitesOf all f.name) with
      | some r => (true, why ++ [(f.name, r)])
      | none => (more, why)

/-- A pass over the functions. -/
def pass (M : Module) (all : List (String × List Sited)) (marked : List String)
    (why : List (String × Why)) : Outcome (List (String × Why) ⊕ List (String × Why)) :=
  let (more, why) := M.functions.foldl (turn all marked) (false, why)
  done (if more then .inl why else .inr why)

def allSites (M : Module) : List (String × List Sited) := M.functions.map fun f => (f.name, sites f)

def marked (M : Module) : List String := (M.functions.filter FnDef.isNoLeak).map FnDef.name

def new (fuel : Nat) (M : Module) : Outcome Analysis := do
  let why ← iterate (pass M (allSites M) (marked M)) fuel []
  pure { all := allSites M, why }

def mayLeak (a : Analysis) (f : String) : Bool := (a.why.lookup f).isSome

/-- A step down the chain of reasons. -/
def chainRound (a : Analysis) : String × List String →
    Outcome (String × List String ⊕ List String)
  | (at_, parts) =>
    match a.why.lookup at_ with
    | some (.uses what) => done (.inr (parts ++ [at_ ++ " uses " ++ what]))
    | some (.calls g) => done (.inl (g, parts ++ [at_ ++ " calls " ++ g]))
    | none => done (.inr parts)

def chain (fuel : Nat) (a : Analysis) (start : String) : Outcome String := do
  let parts ← iterate (chainRound a) fuel (start, [])
  pure ("; ".intercalate parts)

end Analysis

/-- Whether a site of a function marked `(no_leak)` breaks the promise. -/
def offends (a : Analysis) : Sited → Bool
  | (_, s, inUnsafe) =>
    !inUnsafe && match s with
      | .leak _ => true
      | .call g => a.mayLeak g

/-- What a site does, for its error. -/
def describe (fuel : Nat) (a : Analysis) : Site → Outcome String
  | .leak what =>
    pure (if what = THROUGH
      then "uses " ++ what
        ++ ", which may keep memory (a signature with (no_leak) takes only functions that keep none)"
      else "uses " ++ what ++ ", whose memory is never freed")
  | .call g => do
    let chain ← a.chain fuel g
    pure ("calls " ++ g ++ ", which may make memory that is never freed (" ++ chain ++ ")")

/-- The error for a function marked `(no_leak)`, if one of its sites breaks the promise. -/
def checkFn (fuel : Nat) (a : Analysis) (f : FnDef) : Outcome (List (String × String)) :=
  match (Analysis.sitesOf a.all f.name).find? (offends a) with
  | none => pure []
  | some ((l, c), s, _) => do
    let what ← describe fuel a s
    pure [(f.name, toString l ++ ":" ++ toString c ++ ": " ++ f.name ++ " is marked (no_leak) but " ++ what)]

/-- `check`: the errors, one for each function. -/
def check (fuel : Nat) (M : Module) : Outcome (List (String × String)) := do
  let a ← Analysis.new fuel M
  let errors ← mapAll (checkFn fuel a) (M.functions.filter FnDef.isNoLeak)
  pure errors.flatten

end Aipl.Leaks
