import Mathlib

/-! # Grants to connect

The `--allow-connect` grants of `net.rs`, and the checks of `connect` and `connect_host`.  A text is
its characters; the parser of addresses is a parameter, as is what a connection that is let through
comes to.

* `parseConnectGrant` — what a grant's text is read as.
* `connect`, `connectHost` — the answers up to the grant check.
-/

namespace Aipl.Net

/-- `IpAddr`, by its octets. -/
inductive Ip where
  | v4 (octets : Vector UInt8 4)
  | v6 (octets : Vector UInt8 16)
deriving DecidableEq

def Ip.bytes : Ip → List UInt8
  | v4 o => o.toList
  | v6 o => o.toList

inductive GrantHost where
  | ip (a : Ip)
  | name (n : List Char)
deriving DecidableEq

/-- A host, and a port or any port. -/
structure ConnectGrant where
  host : GrantHost
  port : Option Nat

/-! ### Names -/

/-- `to_ascii_lowercase`. -/
def lower (s : List Char) : List Char := s.map Char.toLower

/-- `trim_end_matches('.')`. -/
def trimDots (s : List Char) : List Char := s.rdropWhile (· == '.')

/-- `split('.')`. -/
def labels : List Char → List (List Char)
  | [] => [[]]
  | c :: cs => if c = '.' then [] :: labels cs else (labels cs).modifyHead (c :: ·)

/-- The length in bytes. -/
def byteLen (s : List Char) : Nat := (s.map Char.utf8Size).sum

/-- A label of a host name. -/
def labelOk (l : List Char) : Bool :=
  !l.isEmpty && decide (byteLen l ≤ 63) && l.head? != some '-' && l.getLast? != some '-' &&
    l.all fun c => c.isAlphanum || c == '-'

/-- What `is_host_name` asks of a name without its final dots. -/
def labelsOk (trimmed : List Char) : Bool :=
  !(((labels trimmed).getLast?.any fun l => l.all Char.isDigit)) && (labels trimmed).all labelOk

def isHostName (name : List Char) : Bool :=
  !name.isEmpty && decide (byteLen name ≤ 253) && labelsOk (trimDots name)

/-! ### Reading a grant -/

/-- `rsplit_once`. -/
def rsplitOnce (sep : Char) (s : List Char) : Option (List Char × List Char) :=
  if sep ∈ s then some ((s.rdropWhile (· != sep)).dropLast, s.rtakeWhile (· != sep)) else none

/-- `strip_prefix('[')`, then `strip_suffix(']')`. -/
def stripBrackets : List Char → Option (List Char)
  | '[' :: h => if h.getLast? = some ']' then some h.dropLast else none
  | _ => none

/-- `parse::<u16>`. -/
def parseU16 (s : List Char) : Option Nat :=
  let digits := if s.head? = some '+' then s.tail else s
  if digits = [] ∨ digits.all Char.isDigit = false then none
  else
    let v := digits.foldl (fun v c => v * 10 + (c.toNat - '0'.toNat)) 0
    if v ≤ 65535 then some v else none

/-- A port, or `*` for any. -/
def parsePort (s : List Char) : Option (Option Nat) :=
  if s = ['*'] then some none else (parseU16 s).map some

def badGrant (text : List Char) : String :=
  "--allow-connect " ++ String.ofList text ++
    ": expected HOST:PORT or HOST:*, as 127.0.0.1:8080, [::1]:*, or example.com:443"

section Parser

variable (parseIp : List Char → Option Ip)

def parseConnectGrant (text : List Char) : Except String ConnectGrant :=
  match rsplitOnce ':' text with
  | none => .error (badGrant text)
  | some (host, port) =>
    match parsePort port with
    | none => .error (badGrant text)
    | some port =>
      let bracketed := stripBrackets host
      let host := bracketed.getD host
      if '%' ∈ host then .error (badGrant text)
      else
        match parseIp host with
        | some ip => .ok ⟨.ip ip, port⟩
        | none =>
          if bracketed.isSome || !isHostName host then .error (badGrant text)
          else .ok ⟨.name (lower host), port⟩

/-! ### The checks -/

/-- What a request comes to: -1 for a malformed one, `NOT_GRANTED`, or past the grant check, to a
connection the system makes or not. -/
inductive Answer where
  | malformed
  | notGranted
  | attempt
deriving DecidableEq

/-- `u16::try_from`. -/
def portOf (port : Int) : Option Nat := if 0 ≤ port ∧ port ≤ 65535 then some port.toNat else none

/-- `address`: the address of 4 or 16 bytes. -/
def addressOf (addr : List UInt8) : Option Ip :=
  if h : addr.length = 4 then some (.v4 ⟨addr.toArray, by simpa using h⟩)
  else if h : addr.length = 16 then some (.v6 ⟨addr.toArray, by simpa using h⟩)
  else none

/-- Some grant has this host, and this port or any. -/
def granted (grants : List ConnectGrant) (host : GrantHost) (port : Nat) : Bool :=
  grants.any fun g => decide (g.host = host) && g.port.all (· == port)

def connect (grants : List ConnectGrant) (addr : List UInt8) (port : Int) : Answer :=
  match portOf port, addressOf addr with
  | some p, some ip => if granted grants (.ip ip) p then .attempt else .notGranted
  | _, _ => .malformed

/-- `connect_host`; a name whose bytes are not UTF-8 is `none`. -/
def connectHost (grants : List ConnectGrant) (name : Option (List Char)) (port : Int) : Answer :=
  match name, portOf port with
  | some name, some p =>
    let name := lower name
    match parseIp name with
    | some ip => if granted grants (.ip ip) p then connect grants ip.bytes p else .notGranted
    | none =>
      if !isHostName name then .malformed
      else if granted grants (.name (trimDots name)) p then .attempt
      else .notGranted
  | _, _ => .malformed

end Parser

end Aipl.Net
