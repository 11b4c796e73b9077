import Aipl.Lib.Fallible
import Aipl.Sexpr
import Mathlib.Data.Nat.Size

/-! # Constants and enum members

`consts.rs`: the constants of a flat program are folded, and every use of one becomes its value.  An
error is a constructor with what its message names.  The operators on `f64` are a parameter.
-/

namespace Aipl.Consts

open Aipl.Lib

/-- A folded value; an `f64` is its bits. -/
inductive Val where
  | i32 (v : BitVec 32)
  | i64 (v : BitVec 64)
  | f64 (bits : BitVec 64)
  | bool (b : Bool)
deriving DecidableEq

def Val.ty : Val → String
  | i32 _ => "i32"
  | i64 _ => "i64"
  | f64 _ => "f64"
  | bool _ => "bool"

/-- The value as source, at `at`'s position: a literal, or an `f64`'s bits. -/
def Val.sx (v : Val) (at_ : Sx) : Sx :=
  let tok (kind : TokenKind) : Token := ⟨kind, at_.token.line, at_.token.col⟩
  match v with
  | i32 v => .atom (tok (.intLit (v.signExtend 64)))
  | i64 v => .atom (tok (.int64Lit v))
  | bool b => .atom (tok (.boolLit b))
  | f64 bits => .list (tok .lparen)
      [.atom (tok (.symbol "f64.reinterpret_i64")), .atom (tok (.int64Lit bits))] (tok .rparen)

/-- The operators on `f64`, by bits. -/
structure FloatOps where
  add : BitVec 64 → BitVec 64 → BitVec 64
  sub : BitVec 64 → BitVec 64 → BitVec 64
  mul : BitVec 64 → BitVec 64 → BitVec 64
  div : BitVec 64 → BitVec 64 → BitVec 64

inductive FoldError where
  | notAnOperator (op : String)
  | operands (op : String) (want got : Nat)
  | doesNotApply (op ty : String)
  | twoTypes (op a b : String)
  | byZero (op : String)
  | overflows

inductive ConstError where
  | shape
  | notInCapitals (base : String)
  | typeOf (base ty : String)
  | notALiteral (base ty : String)
  | definedTwice (name : String)
  | dependsOnItself (base : String)
  | declared (base ty got : String)
  | doesNotFit (base : String) (v : BitVec 64)
  | notAConstant (base s : String)
  | notANumber (base : String) (kind : TokenKind)
  | fold (base : String) (e : FoldError)
  | alsoAVariable (s : String)
  | noMember (enum member : String)

/-! ### Folding -/

def operators : List String :=
  ["+", "-", "*", "/", "%", "^", "shl", "shr", "shru", "rotl", "rotr", "bitand", "bitor", "bitnot",
    "clz", "ctz", "popcnt", "and", "or", "not"]

section Words

variable {w : Nat}

/-- A shift count, `y as u32`, as `wrapping_shl` and its kin take it. -/
def shiftCount (y : BitVec w) : Nat := (y.setWidth 32 &&& BitVec.ofNat 32 (w - 1)).toNat

/-- `leading_zeros`. -/
def leadingZeros (x : BitVec w) : Nat := w - x.toNat.size

/-- `trailing_zeros`. -/
def trailingZeros (x : BitVec w) : Nat := ((List.range w).takeWhile fun i => !x.getLsbD i).length

/-- `count_ones`. -/
def countOnes (x : BitVec w) : Nat := (List.range w).countP fun i => x.getLsbD i

/-- The integer operators of one operand. -/
def foldUnary (op : String) (x : BitVec w) : BitVec w :=
  if op = "bitnot" then ~~~x
  else if op = "clz" then BitVec.ofNat w (leadingZeros x)
  else if op = "ctz" then BitVec.ofNat w (trailingZeros x)
  else BitVec.ofNat w (countOnes x)

/-- The integer operators of two operands of type `ty`. -/
def foldInts (op ty : String) (x y : BitVec w) : Except FoldError (BitVec w) :=
  if op = "+" then .ok (x + y)
  else if op = "-" then .ok (x - y)
  else if op = "*" then .ok (x * y)
  else if (op = "/" ∨ op = "%") ∧ y = 0 then .error (.byZero op)
  else if op = "/" ∧ x = BitVec.intMin w ∧ y = -1#w then .error .overflows
  else if op = "/" then .ok (x.sdiv y)
  else if op = "%" then .ok (x.srem y)
  else if op = "^" then .ok (x ^^^ y)
  else if op = "shl" then .ok (x <<< shiftCount y)
  else if op = "shr" then .ok (x.sshiftRight (shiftCount y))
  else if op = "shru" then .ok (x >>> shiftCount y)
  else if op = "rotl" then .ok (x.rotateLeft (shiftCount y))
  else if op = "rotr" then .ok (x.rotateRight (shiftCount y))
  else if op = "bitand" then .ok (x &&& y)
  else if op = "bitor" then .ok (x ||| y)
  else .error (.doesNotApply op ty)

end Words

def foldFloats (fops : FloatOps) (op : String) (x y : BitVec 64) : Except FoldError (BitVec 64) :=
  if op = "+" then .ok (fops.add x y)
  else if op = "-" then .ok (fops.sub x y)
  else if op = "*" then .ok (fops.mul x y)
  else if op = "/" then .ok (fops.div x y)
  else .error (.doesNotApply op "f64")

def foldBools (op : String) (x y : Bool) : Except FoldError Bool :=
  if op = "and" then .ok (x && y)
  else if op = "or" then .ok (x || y)
  else .error (.doesNotApply op "bool")

def isUnaryInt (op : String) : Bool := op ∈ ["bitnot", "clz", "ctz", "popcnt"]

/-- `op` on `args`. -/
def fold (fops : FloatOps) (op : String) (args : List Val) : Except FoldError Val :=
  if op ∉ operators then .error (.notAnOperator op)
  else
    let want := if op = "not" ∨ isUnaryInt op then 1 else 2
    if args.length ≠ want then .error (.operands op want args.length)
    else
      match args with
      | [v] =>
        if op = "not" then
          match v with
          | .bool b => .ok (.bool !b)
          | v => .error (.doesNotApply "not" v.ty)
        else
          match v with
          | .i32 x => .ok (.i32 (foldUnary op x))
          | .i64 x => .ok (.i64 (foldUnary op x))
          | v => .error (.doesNotApply op v.ty)
      | [.i32 x, .i32 y] => (foldInts op "i32" x y).map .i32
      | [.i64 x, .i64 y] => (foldInts op "i64" x y).map .i64
      | [.f64 x, .f64 y] => (foldFloats fops op x y).map .f64
      | [.bool x, .bool y] => (foldBools op x y).map .bool
      | [a, b] => .error (.twoTypes op a.ty b.ty)
      | _ => .error (.operands op want args.length)

/-! ### Definitions -/

/-- A constant as written: its declared type and its value. -/
structure Def where
  ty : String
  value : Sx

/-- A name's last part. -/
def baseName (name : String) : String := ((splitLastDot name).map Prod.snd).getD name

def wellFormed (base : String) : Bool :=
  decide (2 ≤ base.toList.length) && base.toList.head?.any Char.isUpper &&
    base.toList.all fun c => c.isUpper || c.isDigit || c == '_'

/-- The value is a name or an expression, to be folded. -/
def isExpr : Sx → Bool
  | .atom ⟨.symbol _, _, _⟩ => true
  | .atom _ => false
  | .list _ _ _ => true

/-- The literal fits an `i32`, read as signed or unsigned. -/
def fitsI32 (v : BitVec 64) : Bool := decide (-(2 ^ 31) ≤ v.toInt ∧ v.toInt < 2 ^ 32)

/-- The literals of a type. -/
def literalFits (ty : String) (kind : TokenKind) : Bool :=
  match kind with
  | .intLit v => ty == "i32" && fitsI32 v
  | .int64Lit _ => ty == "i64"
  | .floatLit _ _ => ty == "f64"
  | .boolLit _ => ty == "bool"
  | .stringLit _ => ty == "str"
  | _ => false

/-- `(const NAME : TYPE VALUE)`. -/
def readConst (item : Sx) : Except ConstError (String × Def) :=
  match item.items with
  | [_, name, colon, ty, value] =>
    match colon.isColon, name.symbol with
    | true, some name =>
      let base := baseName name
      if wellFormed base = false then .error (.notInCapitals base)
      else
        let ty := ty.symbol.getD ""
        if isExpr value ∧ ty ∈ ["i32", "i64", "f64", "bool"] then .ok (name, ⟨ty, value⟩)
        else if ty ∉ ["i32", "i64", "f64", "bool", "str"] then .error (.typeOf base ty)
        else
          match value with
          | .atom t =>
            if literalFits ty t.kind then .ok (name, ⟨ty, value⟩) else .error (.notALiteral base ty)
          | .list _ _ _ => .error (.notALiteral base ty)
    | _, _ => .error .shape
  | _ => .error .shape

/-- A member of an enum, the next value being `next`: its name and value. -/
def readMember (next : BitVec 64) (m : Sx) : Option (String × BitVec 64) :=
  match m.symbol with
  | some n => some (n, next)
  | none =>
    match m.items with
    | name :: .atom ⟨.intLit v, _, _⟩ :: _ => name.symbol.map fun n => (n, v)
    | _ => none

def readMembers : BitVec 64 → List Sx → Option (List (String × BitVec 64))
  | _, [] => some []
  | next, m :: ms => do
    let (n, v) ← readMember next m
    let rest ← readMembers (v + 1) ms
    pure ((n, v) :: rest)

/-- `(enum NAME [a b (c 10) ...])`; `none` if malformed. -/
def readEnum (sx : Sx) : Option (String × List (String × BitVec 64)) := do
  let name ← (← sx.items[1]?).symbol
  let members ← readMembers 0 (← sx.items[2]?).items
  pure (name, members)

/-! ### Evaluation -/

abbrev Memo := List (String × Val)

section Eval

variable (fops : FloatOps) (defs : List (String × Def))

section Expr

variable (const : String → Memo → Fallible ConstError (Val × Memo)) (base : String)

mutual

/-- An expression's value; `const` is the value of another constant. -/
def evalExpr : Sx → Memo → Fallible ConstError (Val × Memo)
  | .atom t, memo =>
    match t.kind with
    | .intLit v =>
      if fitsI32 v then pure (.i32 (v.setWidth 32), memo) else throw (.doesNotFit base v)
    | .int64Lit v => pure (.i64 v, memo)
    | .floatLit bits _ => pure (.f64 bits, memo)
    | .boolLit b => pure (.bool b, memo)
    | .symbol s => if (defs.lookup s).isSome then const s memo else throw (.notAConstant base s)
    | kind => throw (.notANumber base kind)
  | .list _ [] _, _ => throw (.fold base (.notAnOperator ""))
  | .list _ (head :: args) _, memo => do
    let (vs, memo) ← evalArgs args memo
    match fold fops (head.symbol.getD "") vs with
    | .ok v => pure (v, memo)
    | .error e => throw (.fold base e)

def evalArgs : List Sx → Memo → Fallible ConstError (List Val × Memo)
  | [], memo => pure ([], memo)
  | a :: as, memo => do
    let (v, memo) ← evalExpr a memo
    let (vs, memo) ← evalArgs as memo
    pure (v :: vs, memo)

end

end Expr

/-- Constant `name`'s value, folded (memoised), while those of `active` are being folded. -/
def evalConst : Nat → List String → String → Memo → Fallible ConstError (Val × Memo)
  | 0, _, _, _ => ExceptT.mk .outOfFuel
  | fuel + 1, active, name, memo =>
    match memo.lookup name with
    | some v => pure (v, memo)
    | none =>
      match defs.lookup name with
      | none => ExceptT.mk .stop
      | some d =>
        let base := baseName name
        if name ∈ active then throw (.dependsOnItself base)
        else do
          let (v, memo) ← evalExpr fops defs (fun s memo => evalConst fuel (name :: active) s memo) base
            d.value memo
          if v.ty = d.ty then pure (v, (name, v) :: memo) else throw (.declared base d.ty v.ty)

/-- The replacement of each constant, in their order: its literal, or its folded value. -/
def replacements (fuel : Nat) : List (String × Def) → Memo → Fallible ConstError (List (String × Sx))
  | [], _ => pure []
  | (name, d) :: rest, memo => do
    let (sx, memo) ←
      if isExpr d.value then do
        let (v, memo) ← evalConst fops defs fuel [] name memo
        pure (v.sx d.value, memo)
      else pure (d.value, memo)
    let consts ← replacements fuel rest memo
    pure ((name, sx) :: consts)

end Eval

/-! ### Substitution -/

section Substitute

variable (consts : List (String × Sx)) (enums : List (String × List (String × BitVec 64)))

/-- What a symbol at `t` becomes, `next` being what follows it. -/
def substSymbol (t : Token) (s : String) (next : Option Sx) : Except ConstError Sx :=
  match consts.lookup s with
  | some value =>
    if next.any Sx.isColon then .error (.alsoAVariable s)
    else
      match value with
      | .atom v => .ok (.atom { t with kind := v.kind })
      | value => .ok value
  | none =>
    match splitLastDot s with
    | none => .ok (.atom t)
    | some (enum, member) =>
      match enums.lookup enum with
      | none => .ok (.atom t)
      | some members =>
        match members.lookup member with
        | none => .error (.noMember enum member)
        | some v =>
          let tok (kind : TokenKind) : Token := { t with kind := kind }
          .ok (.list (tok .lparen) [.atom (tok (.symbol "enum.cast")), .atom (tok (.symbol enum)),
            .atom (tok (.intLit v))] (tok .rparen))

mutual

/-- `substitute`. -/
def substitute : Sx → Except ConstError Sx
  | .atom t => .ok (.atom t)
  | .list o items c => do
    let items ← substItems ((Sx.list o items c).head == some "match") 0 items
    pure (.list o items c)

/-- The loop of `substitute` over the items from place `i` on. -/
def substItems (isMatch : Bool) (i : Nat) : List Sx → Except ConstError (List Sx)
  | [] => pure []
  | .atom t :: rest => do
    let sx ←
      match t.kind with
      | .symbol s => substSymbol consts enums t s rest.head?
      | _ => pure (.atom t)
    let rest ← substItems isMatch (i + 1) rest
    pure (sx :: rest)
  | .list o items c :: rest => do
    let sx ←
      match items with
      | [] => pure (Sx.list o [] c)
      | head :: arm =>
        if isMatch && decide (2 ≤ i) then do
          -- the arm's head names a member or a variant; it stays a name
          let arm ← substItems false 1 arm
          pure (Sx.list o (head :: arm) c)
        else substitute (.list o (head :: arm) c)
    let rest ← substItems isMatch (i + 1) rest
    pure (sx :: rest)

end

end Substitute

/-! ### The program -/

/-- The structs and functions of the flat program. -/
structure FlatProgram where
  structs : List Sx
  fns : List Sx

/-- The constants' definitions, in their order, and the enums, the last first. -/
def readDefs : List Sx → List (String × Def) → List (String × List (String × BitVec 64)) →
    Except ConstError (List (String × Def) × List (String × List (String × BitVec 64)))
  | [], defs, enums => .ok (defs, enums)
  | item :: items, defs, enums =>
    match item.head with
    | some "const" => do
      let (name, d) ← readConst item
      if (defs.lookup name).isSome then .error (.definedTwice name)
      else readDefs items (defs ++ [(name, d)]) enums
    | some "enum" =>
      match readEnum item with
      | some e => readDefs items defs (e :: enums)
      | none => readDefs items defs enums
    | _ => readDefs items defs enums

/-- The items without the constants, their uses replaced. -/
def rewrite (consts : List (String × Sx)) (enums : List (String × List (String × BitVec 64))) :
    List Sx → Except ConstError (List Sx)
  | [] => .ok []
  | item :: items =>
    match item.head with
    | some "const" => rewrite consts enums items
    | some "enum" => do
      let items ← rewrite consts enums items
      pure (item :: items)
    | _ => do
      let item ← substitute consts enums item
      let items ← rewrite consts enums items
      pure (item :: items)

def expand (fops : FloatOps) (fuel : Nat) (prog : FlatProgram) : Fallible ConstError FlatProgram := do
  let (defs, enums) ← ExceptT.mk (.done (readDefs (prog.structs ++ prog.fns) [] []))
  if defs.isEmpty && enums.isEmpty then pure prog
  else do
    let consts ← replacements fops defs fuel defs []
    let structs ← ExceptT.mk (.done (rewrite consts enums prog.structs))
    let fns ← ExceptT.mk (.done (rewrite consts enums prog.fns))
    pure ⟨structs, fns⟩

end Aipl.Consts
