import Aipl.Std.Encode.Escapes
import Aipl.Std.Str.Utf8

/-! # `std/url`

URLs taken apart, put together and resolved, and query strings.  A part of a URL is the bytes that its view
shows; of what is allocated, the buffers are here. -/

namespace Aipl.StdUrl

open Aipl.Lib Aipl.Lib.Outcome Aipl.StdBuf Aipl.StdBytes Aipl.StdEncode
open Aipl.Std (Allocator)

abbrev Bytes := List (BitVec 8)

structure Error where
  at_ : Nat
  what : String
deriving DecidableEq

structure Url where
  scheme : Bytes
  hasAuthority : Bool
  authority : Bytes
  hasUser : Bool
  user : Bytes
  hasPassword : Bool
  password : Bytes
  host : Bytes
  port : Int
  path : Bytes
  hasQuery : Bool
  query : Bytes
  hasFragment : Bool
  fragment : Bytes
deriving DecidableEq

def isAlpha (c : Nat) : Bool := (65 ≤ c ∧ c ≤ 90) ∨ (97 ≤ c ∧ c ≤ 122)

def isDigit (c : Nat) : Bool := 48 ≤ c ∧ c ≤ 57

/-- The first place in `b[from..to)` of one of `seps`, or `to`. -/
def findAny (b : Bytes) (from_ to_ : Nat) (seps : List Nat) : Outcome Nat := do
  let found ← firstOf (fun i => do pure (if (← byteAt b i) ∈ seps then some i else none)) (List.range' from_ (to_ - from_))
  pure (found.getD to_)

def view (b : Bytes) (from_ to_ : Nat) : Outcome Bytes := slice b from_ (to_ - from_)

/-! ### Parsing -/

/-- A letter, a digit, or one of `+-.`. -/
def schemeChar (c : Nat) : Bool := (isAlpha c || isDigit c) || (c = 43 || (c = 45 || c = 46))

/-- The scheme, and where it ends. -/
def parseScheme (text : Bytes) : Outcome (Bytes × Nat) := do
  let colon ← findAny text 0 text.length [58, 47, 63, 35]
  let found ← (if colon < text.length then do pure (decide ((← byteAt text colon) = 58 ∧ 0 < colon))
    else pure false : Outcome Bool)
  if found then do
    let first ← byteAt text 0
    let ok ← foldAll (fun ok i => do pure (if schemeChar (← byteAt text i) then ok else false)) (isAlpha first)
      (List.range' 1 (colon - 1))
    if ok then do
      let scheme ← view text 0 colon
      pure (scheme, colon + 1)
    else pure ([], 0)
  else pure ([], 0)

/-- Whether there is an authority at `p`, from where to where, and the place after it. -/
def parseAuthority (text : Bytes) (p : Nat) : Outcome (Bool × Nat × Nat) := do
  let slashes ← (if p + 2 ≤ text.length then do pure (decide ((← byteAt text p) = 47 ∧ (← byteAt text (p + 1)) = 47))
    else pure false : Outcome Bool)
  if slashes then do
    let to_ ← findAny text (p + 2) text.length [47, 63, 35]
    pure (true, p + 2, to_)
  else pure (false, p, p)

/-- The last `@` in `text[from..to)`. -/
def lastAt (text : Bytes) (from_ to_ : Nat) : Outcome (Option Nat) :=
  foldAll (fun at_ i => do pure (if (← byteAt text i) = 64 then some i else at_)) none (List.range' from_ (to_ - from_))

structure UserInfo where
  hasUser : Bool
  user : Bytes
  hasPassword : Bool
  password : Bytes
  hp : Nat

/-- The user info, and where the host begins. -/
def parseUser (text : Bytes) (authFrom authTo : Nat) : Outcome UserInfo := do
  match ← lastAt text authFrom authTo with
  | none => pure ⟨false, [], false, [], authFrom⟩
  | some at_ => do
    let c ← findAny text authFrom at_ [58]
    let user ← view text authFrom c
    if c < at_ then do
      let password ← view text (c + 1) at_
      pure ⟨true, user, true, password, at_ + 1⟩
    else pure ⟨true, user, false, [], at_ + 1⟩

/-- The host, and where the port begins. -/
def parseHost (text : Bytes) (hp authTo : Nat) : Fallible Error (Bytes × Nat) := do
  let open_ ← liftM (findAny text hp authTo [91])
  let close ← liftM (findAny text hp authTo [93])
  if open_ < authTo then
    if open_ ≠ hp ∨ close = authTo then throw ⟨open_, "an IPv6 address without its closing ]"⟩
    else do
      let host ← liftM (view text (open_ + 1) close)
      let after := close + 1
      if after < authTo then do
        if (← liftM (byteAt text after)) ≠ 58 then throw ⟨after, "text after an IPv6 address"⟩
        else pure (host, after + 1)
      else pure (host, authTo)
  else if close < authTo then throw ⟨close, "a ] without its ["⟩
  else do
    let c ← liftM (findAny text hp authTo [58])
    let host ← liftM (view text hp c)
    pure (host, if c < authTo then c + 1 else authTo)

/-- The loop over the digits of a port, `count` bytes from `i` on. -/
def portLoop (text : Bytes) (portFrom : Nat) : Nat → Nat → Nat → Fallible Error Nat
  | _, 0, v => pure v
  | i, count + 1, v => do
    let d ← liftM (byteAt text i)
    if !isDigit d then throw ⟨i, "a port that is not a number"⟩
    else if 65535 < v * 10 + (d - 48) then throw ⟨portFrom, "a port past 65535"⟩
    else portLoop text portFrom (i + 1) count (v * 10 + (d - 48))

def parsePort (text : Bytes) (portFrom authTo : Nat) : Fallible Error Int :=
  if portFrom < authTo then do
    let v ← portLoop text portFrom portFrom (authTo - portFrom) 0
    pure (v : Int)
  else pure (-1)

/-- The parts of an authority. -/
def parseParts (text : Bytes) (authFrom authTo : Nat) : Fallible Error (UserInfo × Bytes × Int) := do
  let info ← liftM (parseUser text authFrom authTo)
  let (host, portFrom) ← parseHost text info.hp authTo
  let port ← parsePort text portFrom authTo
  pure (info, host, port)

def parse (text : Bytes) : Fallible Error Url := do
  let n := text.length
  let (scheme, p) ← liftM (parseScheme text)
  let (hasAuthority, authFrom, authTo) ← liftM (parseAuthority text p)
  let p := authTo
  let hash ← liftM (findAny text p n [35])
  let quest ← liftM (findAny text p hash [63])
  let (info, host, port) ← (if hasAuthority then parseParts text authFrom authTo
    else pure (⟨false, [], false, [], 0⟩, [], -1) : Fallible Error (UserInfo × Bytes × Int))
  let authority ← liftM (view text authFrom authTo)
  let path ← liftM (view text p quest)
  let query ← liftM (if quest < hash then view text (quest + 1) hash else pure [])
  let fragment ← liftM (if hash < n then view text (hash + 1) n else pure [])
  pure { scheme, hasAuthority, authority, hasUser := info.hasUser, user := info.user, hasPassword := info.hasPassword,
         password := info.password, host, port, path, hasQuery := quest < hash, query, hasFragment := hash < n, fragment }

section

variable {σ : Type} (A : Allocator σ) (fuel : Nat)

/-! ### Writing -/

/-- The user info, with the `@` after it. -/
def writeUser (o : Content σ) (u : Url) : Outcome (Content σ) := do
  let o ← o.pushBytes A fuel u.user
  let o ← (if u.hasPassword then do
    let o ← o.pushByte A fuel 58#32
    o.pushBytes A fuel u.password
  else pure o : Outcome (Content σ))
  o.pushByte A fuel 64#32

def writeAuthority (o : Content σ) (u : Url) : Outcome (Content σ) := do
  let o ← o.pushBytes A fuel [47#8, 47#8]
  let o ← (if u.hasUser then writeUser A fuel o u else pure o : Outcome (Content σ))
  let found ← findByte u.host 58
  let v6 := decide (0 ≤ found)
  let o ← (if v6 then o.pushByte A fuel 91#32 else pure o : Outcome (Content σ))
  let o ← o.pushBytes A fuel u.host
  let o ← (if v6 then o.pushByte A fuel 93#32 else pure o : Outcome (Content σ))
  if 0 ≤ u.port then do
    let o ← o.pushByte A fuel 58#32
    o.pushDecimal A fuel u.port 11#32
  else pure o

def write (o : Content σ) (u : Url) : Outcome (Content σ) := do
  let o ← (if 0 < u.scheme.length then do
    let o ← o.pushBytes A fuel u.scheme
    o.pushByte A fuel 58#32
  else pure o : Outcome (Content σ))
  let o ← (if u.hasAuthority then writeAuthority A fuel o u else pure o : Outcome (Content σ))
  let o ← o.pushBytes A fuel u.path
  let o ← (if u.hasQuery then do
    let o ← o.pushByte A fuel 63#32
    o.pushBytes A fuel u.query
  else pure o : Outcome (Content σ))
  if u.hasFragment then do
    let o ← o.pushByte A fuel 35#32
    o.pushBytes A fuel u.fragment
  else pure o

/-! ### Resolving -/

/-- `str.is_at`: the loop over the bytes of the text that is looked for. -/
def isAtLoop (b : Bytes) : Nat → Bytes → Outcome Bool
  | _, [] => pure true
  | i, c :: s => do if (← byteAt b i) ≠ c.toNat then pure false else isAtLoop b (i + 1) s

def isAt (b : Bytes) (i : Nat) (s : Bytes) : Outcome Bool :=
  if b.length < i + s.length then pure false else isAtLoop b i s

/-- A round of a loop that goes back to a `/`. -/
def backRound (b : Bytes) (k : Nat) : Outcome (Nat ⊕ Nat) :=
  if 0 < k then do
    if (← byteAt b (k - 1)) ≠ 47 then pure (.inl (k - 1)) else pure (.inr k)
  else pure (.inr k)

def dropLast (o : Content σ) : Outcome (Content σ) := do
  let k ← iterate (backRound o.bytes) fuel o.bytes.length
  let k := if 0 < k then k - 1 else k
  require (k ≤ o.bytes.length)
  pure { o with bytes := o.bytes.take k }

/-- A round of the loop of `remove_dots_into`. -/
def removeRound (path : Bytes) (s : Content σ × Nat) : Outcome (Content σ × Nat ⊕ Content σ) :=
  let (o, i) := s
  let n := path.length
  if i < n then do
    let left := n - i
    if ← isAt path i [46#8, 46#8, 47#8] then pure (.inl (o, i + 3))
    else if ← isAt path i [46#8, 47#8] then pure (.inl (o, i + 2))
    else if ← isAt path i [47#8, 46#8, 47#8] then pure (.inl (o, i + 2))
    else if (← isAt path i [47#8, 46#8]) && left = 2 then do
      let o ← o.pushByte A fuel 47#32
      pure (.inl (o, n))
    else if ← isAt path i [47#8, 46#8, 46#8, 47#8] then do
      let o ← dropLast fuel o
      pure (.inl (o, i + 3))
    else if (← isAt path i [47#8, 46#8, 46#8]) && left = 3 then do
      let o ← dropLast fuel o
      let o ← o.pushByte A fuel 47#32
      pure (.inl (o, n))
    else if ((← isAt path i [46#8]) && left = 1) || ((← isAt path i [46#8, 46#8]) && left = 2) then pure (.inl (o, n))
    else do
      let first := if (← byteAt path i) = 47 then 1 else 0
      let end_ ← findAny path (i + first) n [47]
      let o ← foldAll (fun o k => do o.pushByte A fuel (BitVec.ofNat 32 (← byteAt path k))) o (List.range' i (end_ - i))
      pure (.inl (o, end_))
  else pure (.inr o)

def removeDotsInto (o : Content σ) (path : Bytes) : Outcome (Content σ) := do
  require (o.bytes.length = 0)
  iterate (removeRound A fuel path) fuel (o, 0)

def mergeInto (o : Content σ) (base : Url) (path : Bytes) : Outcome (Content σ) := do
  let o ← (if base.hasAuthority ∧ base.path.length = 0 then o.pushByte A fuel 47#32
  else do
    let k ← iterate (backRound base.path) fuel base.path.length
    let dir ← view base.path 0 k
    o.pushBytes A fuel dir : Outcome (Content σ))
  o.pushBytes A fuel path

/-- `set_path`: the path that `t` is given. -/
def setPath (heap : σ) (t : Url) (path : Bytes) : Outcome Url := do
  let o ← Content.make A heap (Aipl.Std.arrLen path + 1#32)
  let o ← removeDotsInto A fuel o path
  pure { t with path := o.bytes }

/-- `resolve`, which starts from a copy of `ref`'s parts. -/
def resolve (heap : σ) (base ref : Url) : Outcome Url :=
  if 0 < ref.scheme.length then setPath A fuel heap ref ref.path
  else do
    let t ← (if ref.hasAuthority then setPath A fuel heap ref ref.path
    else do
      let t ← (if ref.path.length = 0 then
        let t := { ref with path := base.path }
        pure (if !ref.hasQuery then { t with hasQuery := base.hasQuery, query := base.query } else t)
      else do
        if (← byteAt ref.path 0) = 47 then setPath A fuel heap ref ref.path
        else do
          let m ← Content.make A heap 64#32
          let m ← mergeInto A fuel m base ref.path
          setPath A fuel m.heap ref m.bytes : Outcome Url)
      pure { t with hasAuthority := base.hasAuthority, authority := base.authority, hasUser := base.hasUser,
                    user := base.user, hasPassword := base.hasPassword, password := base.password, host := base.host,
                    port := base.port } : Outcome Url)
    pure { t with scheme := base.scheme }

/-! ### Query strings -/

/-- A name or a value, decoded into the buffer: from where to where it is there. -/
def querySide (q : Bytes) (o : Content σ) (from_ to_ : Nat) : Outcome (Content σ × Except Error (Nat × Nat)) := do
  let start := o.bytes.length
  let (o, bad) ← (if from_ < to_ then do
    let part ← view q from_ to_
    let (o, r) ← percentDecodeTo A fuel o part true
    pure (o, match r with
      | .ok _ => none
      | .error at_ => some ⟨from_ + at_, "a % without two hex digits"⟩)
  else pure (o, none) : Outcome (Content σ × Option Error))
  match bad with
  | some e => pure (o, .error e)
  | none => do
    let part ← slice o.bytes start (o.bytes.length - start)
    if ← StdUtf8.validUtf8 fuel part then pure (o, .ok (start, o.bytes.length))
    else pure (o, .error ⟨from_, "a part that is not UTF-8"⟩)

/-- A round of the loop of `query_pairs_into`: the buffer, the place in `q`, and the spans, two numbers each. -/
def queryRound (q : Bytes) (s : Content σ × Nat × List (Nat × Nat)) :
    Outcome (Content σ × Nat × List (Nat × Nat) ⊕ Content σ × Except Error (List (Nat × Nat))) :=
  let (o, i, spans) := s
  if i < q.length then do
    let end_ ← findAny q i q.length [38]
    if i < end_ then do
      let eqAt ← findAny q i end_ [61]
      let (o, name) ← querySide A fuel q o i eqAt
      match name with
      | .error e => pure (.inr (o, .error e))
      | .ok name => do
        let (o, value) ← querySide A fuel q o (eqAt + 1) end_
        match value with
        | .error e => pure (.inr (o, .error e))
        | .ok value => pure (.inl (o, end_ + 1, spans ++ [name, value]))
    else pure (.inl (o, end_ + 1, spans))
  else pure (.inr (o, .ok spans))

/-- The views of `all` that the spans are. -/
def spanViews (all : Bytes) : List (Nat × Nat) → Outcome (List Bytes)
  | [] => pure []
  | span :: spans => do
    let v ← slice all span.1 (span.2 - span.1)
    let vs ← spanViews all spans
    pure (v :: vs)

def queryPairsInto (o : Content σ) (q : Bytes) : Outcome (Content σ × Except Error (List Bytes)) := do
  let (o, spans) ← iterate (queryRound A fuel q) fuel (o, 0, [])
  match spans with
  | .error e => pure (o, .error e)
  | .ok spans => do
    let views ← spanViews o.bytes spans
    pure (o, .ok views)

/-- `str.from_bytes`. -/
def fromBytes (b : Bytes) : Outcome Bytes := do
  require (← StdUtf8.validUtf8 fuel b)
  pure b

/-- The strs that `query_pairs` makes of the views. -/
def viewStrs : List Bytes → Outcome (List Bytes)
  | [] => pure []
  | v :: vs => do
    let s ← (if 0 < v.length then fromBytes fuel v else pure [] : Outcome Bytes)
    let ss ← viewStrs vs
    pure (s :: ss)

def queryPairs (heap : σ) (q : Bytes) : Outcome (Except Error (List Bytes)) := do
  let o ← Content.make A heap 64#32
  let (_, r) ← queryPairsInto A fuel o q
  match r with
  | .error e => pure (.error e)
  | .ok vs => do
    let ss ← viewStrs fuel vs
    pure (.ok ss)

/-- The names and values from the `k`-th on, each after its separator. -/
def queryPart (pairs : List Bytes) (o : Content σ) (k : Nat) : Outcome (Content σ) := do
  let o ← (if 0 < k then o.pushByte A fuel (if k % 2 = 0 then 38#32 else 61#32) else pure o : Outcome (Content σ))
  let part ← ofOption pairs[k]?
  percentEncodeTo A fuel o part [] true

def queryBuild (heap : σ) (pairs : List Bytes) : Outcome Bytes := do
  require (pairs.length % 2 = 0)
  let o ← Content.make A heap 64#32
  let o ← foldAll (queryPart A fuel pairs) o (List.range pairs.length)
  fromBytes fuel o.bytes

end

/-! ### What the scans find -/

/-- `e` is the first place in `b[from..to)` of one of `seps`, or `to`. -/
structure Cut (b : Bytes) (from_ to_ : Nat) (seps : List Nat) (e : Nat) : Prop where
  le : from_ ≤ e
  le_to : e ≤ to_
  none : ∀ c ∈ (b.drop from_).take (e - from_), c.toNat ∉ seps
  found : e < to_ → ∃ c r, b.drop e = c :: r ∧ c.toNat ∈ seps

variable {b : Bytes} {from_ to_ e e' i : Nat} {seps : List Nat} {c : BitVec 8} {r s : Bytes}

theorem findAny_eq (seps : List Nat) (hle : from_ ≤ to_) (hto : to_ ≤ b.length) :
    ∃ e, findAny b from_ to_ seps = done e ∧ Cut b from_ to_ seps e := by
  have hloop : ∀ (n from_ : Nat), from_ + n = to_ → ∃ found,
      firstOf (fun i => do pure (if (← byteAt b i) ∈ seps then some i else none)) (List.range' from_ n) = done found ∧
        Cut b from_ to_ seps (found.getD to_) := by
    intro n
    induction n with
    | zero =>
      rintro from_ rfl
      exact ⟨none, rfl, le_rfl, le_rfl, by simp, fun h => absurd h (lt_irrefl _)⟩
    | succ n ih =>
      intro from_ heq
      obtain ⟨c, r, hdrop⟩ := exists_cons (show from_ < b.length by omega)
      rw [List.range'_succ, firstOf, byteAt_drop hdrop, done_bind, pure_eq, done_bind]
      by_cases hc : c.toNat ∈ seps
      · rw [if_pos hc]
        exact ⟨some from_, rfl, le_rfl, by dsimp only [Option.getD]; omega, by simp, fun _ => ⟨c, r, hdrop, hc⟩⟩
      · rw [if_neg hc]
        obtain ⟨found, hfound, hcut⟩ := ih (from_ + 1) (by omega)
        have hlt := hcut.le
        refine ⟨found, hfound, by omega, hcut.le_to, fun x hx => ?_, hcut.found⟩
        rw [hdrop, show found.getD to_ - from_ = (found.getD to_ - (from_ + 1)) + 1 by omega, List.take_succ_cons] at hx
        rcases List.mem_cons.mp hx with rfl | hx
        · exact hc
        · rw [← drop_succ hdrop] at hx
          exact hcut.none x hx
  obtain ⟨found, hfound, hcut⟩ := hloop (to_ - from_) from_ (by omega)
  exact ⟨_, by rw [findAny, hfound]; rfl, hcut⟩

/-- Where a text is cut is determined. -/
theorem Cut.unique (h : Cut b from_ to_ seps e) (h' : Cut b from_ to_ seps e') : e = e' := by
  have hlt : ∀ {e e'}, Cut b from_ to_ seps e → Cut b from_ to_ seps e' → ¬ e < e' := by
    intro e e' h h' hlt
    obtain ⟨c, r, hdrop, hc⟩ := h.found (hlt.trans_le h'.le_to)
    refine h'.none c ?_ hc
    have hget : ((b.drop from_).take (e' - from_))[e - from_]? = some c := by
      rw [List.getElem?_take, if_pos (by have := h.le; omega), List.getElem?_drop, Nat.add_sub_cancel' h.le,
        getElem?_of_drop hdrop]
    exact List.mem_of_getElem? hget
  have h₁ := hlt h h'
  have h₂ := hlt h' h
  omega

theorem view_eq (hle : from_ ≤ to_) (hto : to_ ≤ b.length) : view b from_ to_ = done ((b.drop from_).take (to_ - from_)) :=
  slice_eq (by omega)

/-- The part up to a place, and what follows. -/
theorem drop_eq_append (h : from_ ≤ e) : b.drop from_ = (b.drop from_).take (e - from_) ++ b.drop e := by
  conv_lhs => rw [← List.take_append_drop (e - from_) (b.drop from_)]
  rw [List.drop_drop, Nat.add_sub_cancel' h]

end Aipl.StdUrl
