import Aipl.Lib.Fallible
import Aipl.Std.Stream.Model

/-! # Reading a message of `std/http`, as its source computes it

`parse_request` and `parse_response`.  Positions and sizes are 32-bit words; a text is its bytes, and what
lies in memory behind them.  Memory is granted: what is left of a buffer is its content and its capacity.
What is freed, and what a message keeps of its allocator, is left out.
-/

namespace Aipl.StdHttp

open Aipl.Lib Aipl.Lib.Outcome Aipl.Lib.Fallible Aipl.Std
open Aipl.StdBuf (Content)
open Aipl.StdStream (byteAt slice)

/-- A `str.Bytes` that is read: a text. -/
structure Text where
  bytes : List (BitVec 8)
  /-- The memory behind the text. -/
  behind : Nat → BitVec 8
  short : bytes.length < 2 ^ 31

/-- A slice of the text: its start and its length. -/
abbrev View := BitVec 32 × BitVec 32

/-- The limits that `http.limits` admits. -/
structure Limits where
  headBytes : BitVec 32
  headers : BitVec 32
  bodyBytes : BitVec 32
  head_pos : (0#32).slt headBytes = true
  headers_nonneg : (0#32).sle headers = true
  body_nonneg : (0#32).sle bodyBytes = true

/-- 64 KiB of head, 100 headers, 8 MiB of body. -/
def defaultLimits : Limits where
  headBytes := 65536#32
  headers := 100#32
  bodyBytes := 8388608#32
  head_pos := rfl
  headers_nonneg := rfl
  body_nonneg := rfl

/-- `http.Error`. -/
structure Error where
  at_ : BitVec 32
  what : String
  status : BitVec 32
  incomplete : Bool
deriving DecidableEq

/-- `http.Header`. -/
structure Header where
  name : View
  value : View
deriving DecidableEq

/-- A message's body: part of the text, or chunks put together. -/
inductive Body where
  | view (v : View)
  | chunks (o : Content Unit)
deriving DecidableEq

/-- `http.Message`. -/
structure Message where
  isRequest : Bool
  method : View
  target : View
  status : BitVec 32
  reason : View
  version : View
  headers : List Header
  body : Body
  length : BitVec 32
deriving DecidableEq

/-- Memory is granted. -/
def granted : Allocator Unit := ⟨fun _ _ => some (), fun _ _ => some ()⟩

def error (at_ : BitVec 32) (what : String) : Error := ⟨at_, what, 400#32, false⟩

/-- Cut short: more bytes could complete the message. -/
def short (at_ : BitVec 32) (what : String) : Error := ⟨at_, what, 400#32, true⟩

/-! ### Characters -/

def isDigit (c : BitVec 32) : Bool := (48#32).sle c && c.sle 57#32

/-- A token's characters. -/
def tchar (c : BitVec 32) : Bool :=
  isDigit c || ((65#32).sle c && c.sle 90#32) || ((97#32).sle c && c.sle 122#32)
    || c = 33#32 || c = 35#32 || c = 36#32 || c = 37#32 || c = 38#32 || c = 39#32 || c = 42#32 || c = 43#32
    || c = 45#32 || c = 46#32 || c = 94#32 || c = 95#32 || c = 96#32 || c = 124#32 || c = 126#32

def isOws (c : BitVec 32) : Bool := c = 32#32 || c = 9#32

/-- What a header's value may not hold: NUL, CR, or LF. -/
def isBreak (c : BitVec 32) : Bool := c = 0#32 || (c = 13#32 || c = 10#32)

def hexValue (c : BitVec 32) : BitVec 32 :=
  if isDigit c then c - 48#32
  else if (97#32).sle c && c.sle 102#32 then c - 87#32
  else if (65#32).sle c && c.sle 70#32 then c - 55#32
  else -1#32

/-- `str.lower`. -/
def lower (c : BitVec 32) : BitVec 32 := if (65#32).sle c && c.sle 90#32 then c + 32#32 else c

/-- `str.eq_ignore_case`, of what two views hold. -/
def eqIgnoreCase (a b : List (BitVec 8)) : Bool :=
  a.length = b.length && (a.zip b).all fun (x, y) => lower (x.setWidth 32) = lower (y.setWidth 32)

/-! ### Lines and views -/

namespace Text

def len (b : Text) : BitVec 32 := arrLen b.bytes

/-- The byte at an index of the text, or of the memory behind it. -/
def load (b : Text) (i : Nat) : BitVec 8 := b.bytes.getD i (b.behind i)

/-- What a view reads. -/
def content (b : Text) (v : View) : List (BitVec 8) :=
  (List.range v.2.toNat).map fun k => b.load (v.1.toNat + k)

end Text

variable (fuel : Nat) (b : Text)

/-- Whether the line feed at `i` ends a line from `p` on with a CR before it. -/
def crBefore (p i : BitVec 32) : Outcome Bool :=
  if p.slt i then do
    let c ← byteAt b.bytes (i - 1#32)
    pure (c = 13#32)
  else pure false

/-- The end of the line starting at `p`, or -1 if no line ends before `limit`. -/
def lineEnd (p limit : BitVec 32) : Outcome (BitVec 32) :=
  forReturn fuel p (if b.len.slt limit then b.len else limit)
    (fun i => do
      let c ← byteAt b.bytes i
      if c = 10#32 then do
        let cr ← crBefore b p i
        pure (some (if cr then i - 1#32 else i))
      else pure none)
    (-1#32)

/-- The index after the line ending at `end_`. -/
def nextLine (end_ : BitVec 32) : Outcome (BitVec 32) := do
  let c ← byteAt b.bytes end_
  pure (if c = 13#32 then end_ + 2#32 else end_ + 1#32)

def view (start stop_ : BitVec 32) : Outcome View := slice b.bytes start (stop_ - start)

/-- The index of byte `c` in `[lo, hi)`, or `hi`. -/
def findByte (lo hi c : BitVec 32) : Outcome (BitVec 32) :=
  forReturn fuel lo hi
    (fun i => do
      let x ← byteAt b.bytes i
      pure (if x = c then some i else none))
    hi

/-- `str.is_at`. -/
def isAt (i : BitVec 32) (s : List (BitVec 8)) : Outcome Bool :=
  if i.slt 0#32 || b.len.slt (i + arrLen s) then pure false
  else
    forReturn fuel 0#32 (arrLen s)
      (fun k => do
        let x ← byteAt b.bytes (i + k)
        let y ← arrGet s k
        pure (if x = y.setWidth 32 then none else some false))
      true

/-- The first refusal by `check` of a byte of `[lo, hi)`. -/
def firstRefusal (lo hi : BitVec 32) (check : BitVec 32 → BitVec 32 → Option Error) : Outcome (Option Error) :=
  forReturn fuel lo hi
    (fun i => do
      let c ← byteAt b.bytes i
      pure ((check i c).map some))
    none

/-- A loop that refuses at the first byte of `[lo, hi)` that `check` refuses. -/
def eachByte (lo hi : BitVec 32) (check : BitVec 32 → BitVec 32 → Option Error) : Fallible Error Unit := do
  match ← firstRefusal fuel b lo hi check with
  | some e => throw e
  | none => pure ()

/-- `is_digit` of a byte. -/
def digitAt (i : BitVec 32) : Outcome Bool := do
  let c ← byteAt b.bytes i
  pure (isDigit c)

/-- Whether a byte is a '.'. -/
def dotAt (i : BitVec 32) : Outcome Bool := do
  let c ← byteAt b.bytes i
  pure (c = 46#32)

/-- "HTTP/". -/
def HTTP : List (BitVec 8) := [72#8, 84#8, 84#8, 80#8, 47#8]

/-- Whether `[lo, hi)` is "HTTP/" digit "." digit. -/
def isVersion (lo hi : BitVec 32) : Outcome Bool :=
  if hi - lo = 8#32 then
    allOf id [isAt fuel b lo HTTP, digitAt b (lo + 5#32), dotAt b (lo + 6#32), digitAt b (lo + 7#32)]
  else pure false

/-! ### The head -/

/-- What the start line gives. -/
structure Start where
  method : View
  target : View
  status : BitVec 32
  reason : View
  version : View

/-- The error for a head with no end: past the limit, or cut short. -/
def headError (limit : BitVec 32) : Error :=
  if limit.sle b.len then ⟨limit, "a head over the limit", 431#32, false⟩
  else short b.len "the head ends early"

/-- A request's line, whose spaces are at `s1` and `s2`. -/
def requestLine (empty : View) (first s1 s2 : BitVec 32) : Fallible Error Start := do
  failIf (s1 = 0#32) (error 0#32 "an empty method")
  eachByte fuel b 0#32 s1 fun i c => if tchar c then none else some (error i "a method that is not a token")
  let tab ← findByte fuel b (s1 + 1#32) s2 9#32
  failIf (s2 = s1 + 1#32 || tab.slt s2) (error (s1 + 1#32) "an empty or spaced target")
  let ok ← isVersion fuel b (s2 + 1#32) first
  failIf (!ok) (error (s2 + 1#32) "a version that is not HTTP/d.d")
  let method ← view b 0#32 s1
  let target ← view b (s1 + 1#32) s2
  let version ← view b (s2 + 1#32) first
  pure { method, target, status := 0#32, reason := empty, version }

/-- The reason after a status, if a space is. -/
def reasonView (empty : View) (first s2 : BitVec 32) : Outcome View :=
  if s2.slt first then view b (s2 + 1#32) first else pure empty

/-- A response's line. -/
def statusLine (empty : View) (first s1 s2 : BitVec 32) : Fallible Error Start := do
  let ok ← isVersion fuel b 0#32 s1
  failIf (!ok) (error 0#32 "a version that is not HTTP/d.d")
  let codeEnd := if s2.slt first then s2 else first
  failIf (codeEnd - (s1 + 1#32) ≠ 3#32) (error (s1 + 1#32) "a status that is not three digits")
  let digits ← allOf id [digitAt b (s1 + 1#32), digitAt b (s1 + 2#32), digitAt b (s1 + 3#32)]
  failIf (!digits) (error (s1 + 1#32) "a status that is not three digits")
  let d₁ ← byteAt b.bytes (s1 + 1#32)
  let d₂ ← byteAt b.bytes (s1 + 2#32)
  let d₃ ← byteAt b.bytes (s1 + 3#32)
  let version ← view b 0#32 s1
  let reason ← reasonView b empty first s2
  pure
    { method := empty
      target := empty
      status := 100#32 * (d₁ - 48#32) + (10#32 * (d₂ - 48#32) + (d₃ - 48#32))
      reason
      version }

/-- The start line, up to `first`. -/
def startLine (request : Bool) (empty : View) (first : BitVec 32) : Fallible Error Start := do
  let s1 ← findByte fuel b 0#32 first 32#32
  failIf (s1 = first) (error 0#32 "a start line without spaces")
  let s2 ← findByte fuel b (s1 + 1#32) first 32#32
  failIf (request && s2 = first) (error s1 "a request line without a version")
  if request then requestLine fuel b empty first s1 s2 else statusLine fuel b empty first s1 s2

/-- The spaces before a header's value. -/
def skipOws (ve vs : BitVec 32) : Outcome (BitVec 32) :=
  iterate (fun vs =>
    if vs.slt ve then do
      let c ← byteAt b.bytes vs
      pure (if isOws c then .inl (vs + 1#32) else .inr vs)
    else pure (.inr vs)) fuel vs

/-- The spaces after it. -/
def dropOws (vs ve : BitVec 32) : Outcome (BitVec 32) :=
  iterate (fun ve =>
    if vs.slt ve then do
      let c ← byteAt b.bytes (ve - 1#32)
      pure (if isOws c then .inl (ve - 1#32) else .inr ve)
    else pure (.inr ve)) fuel ve

/-- A header line from `p` to `end_`, of `count` before it. -/
def headerLine (lim : Limits) (count p end_ : BitVec 32) : Fallible Error Header := do
  let c0 ← byteAt b.bytes p
  failIf (c0 = 32#32 || c0 = 9#32) (error p "a folded header line (obs-fold)")
  let colon ← findByte fuel b p end_ 58#32
  failIf (colon = end_) (error p "a header line without a ':'")
  failIf (colon = p) (error p "an empty header name")
  eachByte fuel b p colon fun i c =>
    if tchar c then none
    else some (error i (if c = 32#32 || c = 9#32 then "a space in or after a header name"
      else "a header name that is not a token"))
  let vs ← skipOws fuel b end_ (colon + 1#32)
  let ve ← dropOws fuel b vs end_
  eachByte fuel b vs ve fun i c =>
    if isBreak c then some (error i "a NUL, CR, or LF in a header value") else none
  failIf (lim.headers.sle count) ⟨p, "more headers than the limit", 431#32, false⟩
  let name ← view b p colon
  let value ← view b vs ve
  pure { name, value }

/-- A line of the head after the start line. -/
def headerRound (lim : Limits) : List Header × BitVec 32 →
    Fallible Error (List Header × BitVec 32 ⊕ List Header × BitVec 32)
  | (headers, p) => do
    let end_ ← lineEnd fuel b p lim.headBytes
    failIf (end_.slt 0#32) (headError b lim.headBytes)
    if end_ = p then do
      let p ← nextLine b end_
      pure (.inr (headers, p))
    else do
      let h ← headerLine fuel b lim (arrLen headers) p end_
      let p ← nextLine b end_
      pure (.inl (headers ++ [h], p))

/-! ### The body -/

/-- "transfer-encoding". -/
def TRANSFER_ENCODING : List (BitVec 8) :=
  [116#8, 114#8, 97#8, 110#8, 115#8, 102#8, 101#8, 114#8, 45#8, 101#8, 110#8, 99#8, 111#8, 100#8, 105#8, 110#8,
    103#8]

/-- "content-length". -/
def CONTENT_LENGTH : List (BitVec 8) :=
  [99#8, 111#8, 110#8, 116#8, 101#8, 110#8, 116#8, 45#8, 108#8, 101#8, 110#8, 103#8, 116#8, 104#8]

/-- "chunked". -/
def CHUNKED : List (BitVec 8) := [99#8, 104#8, 117#8, 110#8, 107#8, 101#8, 100#8]

/-- What a size is held at, once it is larger. -/
def held (size : BitVec 64) : BitVec 64 := if (4294967296#64).slt size then 4294967296#64 else size

/-- The digits of a Content-Length. -/
def declaredLength (p : BitVec 32) : BitVec 64 → List (BitVec 8) → Except Error (BitVec 64)
  | declared, [] => .ok declared
  | declared, d :: ds =>
    if isDigit (d.setWidth 32) then
      declaredLength p (held (declared * 10#64 + (d.setWidth 32 - 48#32).setWidth 64)) ds
    else .error (error p "a Content-Length that is not a number")

/-- The place of Transfer-Encoding, after the `k`-th header. -/
def codingHeader (p k : BitVec 32) (h : Header) (te : BitVec 32) : Except Error (BitVec 32) :=
  if eqIgnoreCase (b.content h.name) TRANSFER_ENCODING then
    if (0#32).sle te then .error (error p "two Transfer-Encoding headers") else .ok k
  else .ok te

/-- The length that Content-Length declares, after a header. -/
def lengthHeader (p : BitVec 32) (h : Header) (cl : BitVec 64) : Except Error (BitVec 64) :=
  if eqIgnoreCase (b.content h.name) CONTENT_LENGTH then
    if h.value.2 = 0#32 then .error (error p "an empty Content-Length")
    else do
      let declared ← declaredLength p 0#64 (b.content h.value)
      if (0#64).sle cl && cl ≠ declared then .error (error p "two different Content-Lengths")
      else .ok declared
  else .ok cl

/-- The headers from the `k`-th on. -/
def framingHeaders (p : BitVec 32) : BitVec 32 → List Header → BitVec 32 × BitVec 64 →
    Except Error (BitVec 32 × BitVec 64)
  | _, [], framing => .ok framing
  | k, h :: hs, (te, cl) => do
    let te ← codingHeader b p k h te
    let cl ← lengthHeader b p h cl
    framingHeaders p (k + 1#32) hs (te, cl)

/-- A hex digit of a chunk's size. -/
def sizeRound (end_ : BitVec 32) :
    BitVec 64 × BitVec 32 → Outcome (BitVec 64 × BitVec 32 ⊕ BitVec 64 × BitVec 32)
  | (size, i) =>
    if i.slt end_ then do
      let c ← byteAt b.bytes i
      pure (if (0#32).sle (hexValue c) then .inl (held (size * 16#64 + (hexValue c).setWidth 64), i + 1#32)
        else .inr (size, i))
    else pure (.inr (size, i))

/-- The size at `p`, and where its digits end. -/
def chunkSize (p end_ : BitVec 32) : Outcome (BitVec 64 × BitVec 32) :=
  iterate (sizeRound b end_) fuel (0#64, p)

/-- Whether a chunk's size ends at `i`. -/
def sizeEnds (i end_ : BitVec 32) : Outcome Bool :=
  if i.slt end_ then do
    let c ← byteAt b.bytes i
    pure (c = 59#32 || isOws c)
  else pure true

/-- The line that a chunk begins with, from `p` to `end_`. -/
def sizeLine (p end_ : BitVec 32) : Fallible Error (BitVec 64) := do
  let (size, i) ← chunkSize fuel b p end_
  failIf (i = p) (error p "a chunk size that is not hex")
  let ends ← sizeEnds b i end_
  failIf (!ends) (error i "text after a chunk size")
  pure size

/-- A trailer line from `p` to `tend`. -/
def trailerRound : BitVec 32 × BitVec 32 → Outcome (BitVec 32 × BitVec 32 ⊕ BitVec 32 × BitVec 32)
  | (p, tend) =>
    if p.slt tend then do
      let p ← nextLine b tend
      let tend ← lineEnd fuel b p b.len
      pure (.inl (p, tend))
    else pure (.inr (p, tend))

/-- The trailer lines, to an empty one: where it begins, and where it ends. -/
def trailers (p tend : BitVec 32) : Outcome (BitVec 32 × BitVec 32) :=
  iterate (trailerRound fuel b) fuel (p, tend)

/-- What follows a chunk of size 0. -/
def lastChunk (m : Message) (o : Content Unit) (p : BitVec 32) : Fallible Error (Message × BitVec 32) := do
  let tend ← lineEnd fuel b p b.len
  let (_, tend) ← trailers fuel b p tend
  failIf (tend.slt 0#32) (short b.len "the body ends early")
  let length ← nextLine b tend
  pure ({ m with body := .chunks o, length }, o.len)

/-- The bytes of a chunk, and its line end. -/
def chunkData (limit : BitVec 32) (o : Content Unit) (p : BitVec 32) (size : BitVec 64) :
    Fallible Error (Content Unit × BitVec 32) := do
  failIf ((limit.setWidth 64).slt (o.len.setWidth 64 + size)) ⟨p, "a body over the limit", 413#32, false⟩
  let len := size.setWidth 32
  failIf (b.len.slt (p + len)) (short b.len "the body ends early")
  let v ← view b p (p + len)
  let o ← o.pushBytes granted fuel (b.content v)
  let p := p + len
  let after ← lineEnd fuel b p b.len
  failIf (after ≠ p) (error p "a chunk without its line end")
  let p ← nextLine b after
  pure (o, p)

def chunkRound (m : Message) (limit : BitVec 32) : Content Unit × BitVec 32 →
    Fallible Error (Content Unit × BitVec 32 ⊕ Message × BitVec 32)
  | (o, p) => do
    let end_ ← lineEnd fuel b p b.len
    failIf (end_.slt 0#32) (short b.len "the body ends early")
    let size ← sizeLine fuel b p end_
    let p ← nextLine b end_
    if size = 0#64 then do
      let last ← lastChunk fuel b m o p
      pure (.inr last)
    else do
      let next ← chunkData fuel b limit o p size
      pure (.inl next)

/-- A chunked body. -/
def readChunks (m : Message) (p limit : BitVec 32) : Fallible Error (Message × BitVec 32) := do
  let o ← Content.make granted () 256#32
  loop (chunkRound fuel b m limit) fuel (o, p)

/-- A body of a declared length. -/
def readLength (m : Message) (p limit : BitVec 32) (cl : BitVec 64) : Fallible Error (Message × BitVec 32) := do
  failIf ((limit.setWidth 64).slt cl) ⟨p, "a body over the limit", 413#32, false⟩
  let len := cl.setWidth 32
  failIf (b.len.slt (p + len)) (short b.len "the body ends early")
  let v ← view b p (p + len)
  pure ({ m with body := .view v, length := p + len }, len)

/-- A response's body that the end of the text ends. -/
def readRest (m : Message) (p limit : BitVec 32) : Fallible Error (Message × BitVec 32) := do
  failIf (limit.slt (b.len - p)) ⟨p, "a body over the limit", 413#32, false⟩
  let v ← view b p b.len
  pure ({ m with body := .view v, length := b.len }, b.len - p)

/-- A chunked body, if the transfer coding is "chunked". -/
def readCoded (m : Message) (p limit te : BitVec 32) : Fallible Error (Message × BitVec 32) := do
  let h ← (arrGet m.headers te : Outcome Header)
  failIf (!eqIgnoreCase (b.content h.value) CHUNKED) (error p "a transfer coding other than chunked")
  readChunks fuel b m p limit

/-- A response that never has a body. -/
def bodiless (request : Bool) (status : BitVec 32) : Bool :=
  !request && (((100#32).sle status && status.slt 200#32) || (status = 204#32 || status = 304#32))

/-- The body, by the place of Transfer-Encoding and the length of Content-Length. -/
def readBy (m : Message) (p : BitVec 32) (lim : Limits) (te : BitVec 32) (cl : BitVec 64) :
    Fallible Error (Message × BitVec 32) :=
  if bodiless m.isRequest m.status then pure (m, 0#32)
  else do
    failIf ((0#32).sle te && (0#64).sle cl) (error p "both Transfer-Encoding and Content-Length")
    if (0#32).sle te then readCoded fuel b m p lim.bodyBytes te
    else if (0#64).sle cl then readLength b m p lim.bodyBytes cl
    else if m.isRequest then pure (m, 0#32)
    else readRest b m p lim.bodyBytes

/-- Sets the body from the text at `p`, by Transfer-Encoding or Content-Length. -/
def readBody (m : Message) (p : BitVec 32) (lim : Limits) : Fallible Error (Message × BitVec 32) := do
  let (te, cl) ← ExceptT.mk (pure (framingHeaders b p 0#32 m.headers (-1#32, -1#64)))
  readBy fuel b m p lim te cl

/-- The start line and the headers, to an empty line. -/
def parseHead (lim : Limits) (request : Bool) : Fallible Error Message := do
  let empty ← view b 0#32 0#32
  let first ← lineEnd fuel b 0#32 lim.headBytes
  failIf (first.slt 0#32) (headError b lim.headBytes)
  let start ← startLine fuel b request empty first
  let p ← nextLine b first
  let (headers, p) ← loop (headerRound fuel b lim) fuel ([], p)
  pure
    { isRequest := request, method := start.method, target := start.target, status := start.status,
      reason := start.reason, version := start.version, headers, body := .view empty, length := p }

/-- The message in the text, or why it is not one. -/
def parse (lim : Limits) (request : Bool) : Fallible Error Message := do
  let m ← parseHead fuel b lim request
  let (m, _) ← readBody fuel b m m.length lim
  pure m

def parseRequest (lim : Limits) : Fallible Error Message := parse fuel b lim true

def parseResponse (lim : Limits) : Fallible Error Message := parse fuel b lim false

namespace Limits

variable (lim : Limits)

theorem headBytes_lt : lim.headBytes.toNat < 2 ^ 31 := by
  have h := lim.head_pos
  simp only [BitVec.slt_eq_decide, decide_eq_true_eq, BitVec.toInt_zero] at h
  exact (toInt_of_nonneg h.le).2

theorem headers_lt : lim.headers.toNat < 2 ^ 31 := by
  have h := lim.headers_nonneg
  simp only [BitVec.sle_eq_decide, decide_eq_true_eq, BitVec.toInt_zero] at h
  exact (toInt_of_nonneg h).2

theorem bodyBytes_lt : lim.bodyBytes.toNat < 2 ^ 31 := by
  have h := lim.body_nonneg
  simp only [BitVec.sle_eq_decide, decide_eq_true_eq, BitVec.toInt_zero] at h
  exact (toInt_of_nonneg h).2

end Limits

end Aipl.StdHttp
