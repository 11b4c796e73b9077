import Mathlib.Data.BitVec

/-! # S-expressions over tokens

What the passes between the resolver and the parser work on.  A float literal's value is its bits.
-/

namespace Aipl

inductive TokenKind where
  | lparen
  | rparen
  | lbracket
  | rbracket
  | colon
  | arrow
  | symbol (s : String)
  | intLit (v : BitVec 64)
  | int64Lit (v : BitVec 64)
  | floatLit (bits : BitVec 64) (text : String)
  | float32Lit (bits : BitVec 32) (text : String)
  | stringLit (s : String)
  | boolLit (b : Bool)
deriving DecidableEq

structure Token where
  kind : TokenKind
  line : Nat
  col : Nat
deriving DecidableEq

inductive Sx where
  | atom (t : Token)
  | list (openTok : Token) (items : List Sx) (close : Token)

namespace Sx

def symbol : Sx → Option String
  | atom ⟨.symbol s, _, _⟩ => some s
  | _ => none

/-- A `(...)` list. -/
def isParen : Sx → Bool
  | list ⟨.lparen, _, _⟩ _ _ => true
  | _ => false

def items : Sx → List Sx
  | list _ items _ => items
  | atom _ => []

/-- The head symbol of a `(...)` list. -/
def head (sx : Sx) : Option String := if sx.isParen then sx.items.head?.bind symbol else none

def token : Sx → Token
  | atom t => t
  | list t _ _ => t

def isColon : Sx → Bool
  | atom ⟨.colon, _, _⟩ => true
  | _ => false

end Sx

/-- The text before and after the last dot. -/
def splitLastDot (s : String) : Option (String × String) :=
  let cs := s.toList
  if '.' ∈ cs then
    some (String.ofList (cs.take (cs.length - (cs.reverse.takeWhile (· != '.')).length - 1)),
      String.ofList (cs.reverse.takeWhile (· != '.')).reverse)
  else none

end Aipl
