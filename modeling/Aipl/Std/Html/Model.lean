import Aipl.Std.Str.Bytes
import Aipl.Std.Str.Utf8

/-! # `std/html`

Text escaped for HTML, and character references read back.  What is appended is in a buffer; a text is its bytes.

* `escapeTo`, `unescapeTo` — the two.
* `names`, `legacyNames`, `replacements` — the tables.
-/

namespace Aipl.StdHtml

open Aipl.Lib Aipl.Lib.Outcome Aipl.StdBuf Aipl.StdBytes
open Aipl.Std (Allocator)

abbrev Bytes := List (BitVec 8)

/-- The bytes of an ASCII text. -/
def ascii (s : String) : Bytes := s.toList.map fun c => BitVec.ofNat 8 c.toNat

/-! ### The tables -/

/-- The named references, without their `;`. -/
@[irreducible] def names : List (String × Nat) :=
  [("AElig", 198), ("AMP", 38), ("Aacute", 193), ("Acirc", 194), ("Agrave", 192), ("Alpha", 913), ("Aring", 197),
    ("Atilde", 195), ("Auml", 196), ("Beta", 914), ("COPY", 169), ("Ccedil", 199), ("Chi", 935), ("Dagger", 8225),
    ("Delta", 916), ("ETH", 208), ("Eacute", 201), ("Ecirc", 202), ("Egrave", 200), ("Epsilon", 917), ("Eta", 919),
    ("Euml", 203), ("GT", 62), ("Gamma", 915), ("Iacute", 205), ("Icirc", 206), ("Igrave", 204), ("Iota", 921),
    ("Iuml", 207), ("Kappa", 922), ("LT", 60), ("Lambda", 923), ("Mu", 924), ("Ntilde", 209), ("Nu", 925),
    ("OElig", 338), ("Oacute", 211), ("Ocirc", 212), ("Ograve", 210), ("Omega", 937), ("Omicron", 927),
    ("Oslash", 216), ("Otilde", 213), ("Ouml", 214), ("Phi", 934), ("Pi", 928), ("Prime", 8243), ("Psi", 936),
    ("QUOT", 34), ("REG", 174), ("Rho", 929), ("Scaron", 352), ("Sigma", 931), ("THORN", 222), ("Tau", 932),
    ("Theta", 920), ("Uacute", 218), ("Ucirc", 219), ("Ugrave", 217), ("Upsilon", 933), ("Uuml", 220), ("Xi", 926),
    ("Yacute", 221), ("Yuml", 376), ("Zeta", 918), ("aacute", 225), ("acirc", 226), ("acute", 180), ("aelig", 230),
    ("agrave", 224), ("alefsym", 8501), ("alpha", 945), ("amp", 38), ("and", 8743), ("ang", 8736), ("apos", 39),
    ("aring", 229), ("asymp", 8776), ("atilde", 227), ("auml", 228), ("bdquo", 8222), ("beta", 946), ("brvbar", 166),
    ("bull", 8226), ("cap", 8745), ("ccedil", 231), ("cedil", 184), ("cent", 162), ("chi", 967), ("circ", 710),
    ("clubs", 9827), ("cong", 8773), ("copy", 169), ("crarr", 8629), ("cup", 8746), ("curren", 164), ("dArr", 8659),
    ("dagger", 8224), ("darr", 8595), ("deg", 176), ("delta", 948), ("diams", 9830), ("divide", 247),
    ("eacute", 233), ("ecirc", 234), ("egrave", 232), ("empty", 8709), ("emsp", 8195), ("ensp", 8194),
    ("epsilon", 949), ("equiv", 8801), ("eta", 951), ("eth", 240), ("euml", 235), ("euro", 8364), ("exist", 8707),
    ("fnof", 402), ("forall", 8704), ("frac12", 189), ("frac14", 188), ("frac34", 190), ("frasl", 8260),
    ("gamma", 947), ("ge", 8805), ("gt", 62), ("hArr", 8660), ("harr", 8596), ("hearts", 9829), ("hellip", 8230),
    ("iacute", 237), ("icirc", 238), ("iexcl", 161), ("igrave", 236), ("image", 8465), ("infin", 8734),
    ("int", 8747), ("iota", 953), ("iquest", 191), ("isin", 8712), ("iuml", 239), ("kappa", 954), ("lArr", 8656),
    ("lambda", 955), ("lang", 10216), ("laquo", 171), ("larr", 8592), ("lceil", 8968), ("ldquo", 8220), ("le", 8804),
    ("lfloor", 8970), ("lowast", 8727), ("loz", 9674), ("lrm", 8206), ("lsaquo", 8249), ("lsquo", 8216), ("lt", 60),
    ("macr", 175), ("mdash", 8212), ("micro", 181), ("middot", 183), ("minus", 8722), ("mu", 956), ("nabla", 8711),
    ("nbsp", 160), ("ndash", 8211), ("ne", 8800), ("ni", 8715), ("not", 172), ("notin", 8713), ("nsub", 8836),
    ("ntilde", 241), ("nu", 957), ("oacute", 243), ("ocirc", 244), ("oelig", 339), ("ograve", 242), ("oline", 8254),
    ("omega", 969), ("omicron", 959), ("oplus", 8853), ("or", 8744), ("ordf", 170), ("ordm", 186), ("oslash", 248),
    ("otilde", 245), ("otimes", 8855), ("ouml", 246), ("para", 182), ("part", 8706), ("permil", 8240),
    ("perp", 8869), ("phi", 966), ("pi", 960), ("piv", 982), ("plusmn", 177), ("pound", 163), ("prime", 8242),
    ("prod", 8719), ("prop", 8733), ("psi", 968), ("quot", 34), ("rArr", 8658), ("radic", 8730), ("rang", 10217),
    ("raquo", 187), ("rarr", 8594), ("rceil", 8969), ("rdquo", 8221), ("real", 8476), ("reg", 174), ("rfloor", 8971),
    ("rho", 961), ("rlm", 8207), ("rsaquo", 8250), ("rsquo", 8217), ("sbquo", 8218), ("scaron", 353), ("sdot", 8901),
    ("sect", 167), ("shy", 173), ("sigma", 963), ("sigmaf", 962), ("sim", 8764), ("spades", 9824), ("sub", 8834),
    ("sube", 8838), ("sum", 8721), ("sup", 8835), ("sup1", 185), ("sup2", 178), ("sup3", 179), ("supe", 8839),
    ("szlig", 223), ("tau", 964), ("there4", 8756), ("theta", 952), ("thetasym", 977), ("thinsp", 8201),
    ("thorn", 254), ("tilde", 732), ("times", 215), ("trade", 8482), ("uArr", 8657), ("uacute", 250), ("uarr", 8593),
    ("ucirc", 251), ("ugrave", 249), ("uml", 168), ("upsih", 978), ("upsilon", 965), ("uuml", 252), ("weierp", 8472),
    ("xi", 958), ("yacute", 253), ("yen", 165), ("yuml", 255), ("zeta", 950), ("zwj", 8205), ("zwnj", 8204)]

/-- The names that may come without their `;`. -/
@[irreducible] def legacyNames : List String :=
  ["AElig", "AMP", "Aacute", "Acirc", "Agrave", "Aring", "Atilde", "Auml", "COPY", "Ccedil", "ETH", "Eacute",
    "Ecirc", "Egrave", "Euml", "GT", "Iacute", "Icirc", "Igrave", "Iuml", "LT", "Ntilde", "Oacute", "Ocirc",
    "Ograve", "Oslash", "Otilde", "Ouml", "QUOT", "REG", "THORN", "Uacute", "Ucirc", "Ugrave", "Uuml", "Yacute",
    "aacute", "acirc", "acute", "aelig", "agrave", "amp", "aring", "atilde", "auml", "brvbar", "ccedil", "cedil",
    "cent", "copy", "curren", "deg", "divide", "eacute", "ecirc", "egrave", "eth", "euml", "frac12", "frac14",
    "frac34", "gt", "iacute", "icirc", "iexcl", "igrave", "iquest", "iuml", "laquo", "lt", "macr", "micro", "middot",
    "nbsp", "not", "ntilde", "oacute", "ocirc", "ograve", "ordf", "ordm", "oslash", "otilde", "ouml", "para",
    "plusmn", "pound", "quot", "raquo", "reg", "sect", "shy", "sup1", "sup2", "sup3", "szlig", "thorn", "times",
    "uacute", "ucirc", "ugrave", "uml", "uuml", "yacute", "yen", "yuml"]

/-- What some numbers stand for instead of themselves. -/
@[irreducible] def replacements : List (Nat × Nat) :=
  [(0, 65533), (13, 13), (128, 8364), (129, 129), (130, 8218), (131, 402), (132, 8222), (133, 8230), (134, 8224),
    (135, 8225), (136, 710), (137, 8240), (138, 352), (139, 8249), (140, 338), (141, 141), (142, 381), (143, 143),
    (144, 144), (145, 8216), (146, 8217), (147, 8220), (148, 8221), (149, 8226), (150, 8211), (151, 8212),
    (152, 732), (153, 8482), (154, 353), (155, 8250), (156, 339), (157, 157), (158, 382), (159, 376)]

def named (n : Bytes) : Int := ((names.find? fun e => n = ascii e.1).map fun e => (e.2 : Int)).getD (-1)

def legacy (n : Bytes) : Bool := legacyNames.any fun s => n = ascii s

def replaced (n : Nat) : Int := ((replacements.find? fun e => e.1 = n).map fun e => (e.2 : Int)).getD (-1)

/-- A reference to it means nothing. -/
def invalid (cp : Nat) : Bool :=
  ((1 ≤ cp ∧ cp ≤ 8) ∨ cp = 11) ∨ (((14 ≤ cp ∧ cp ≤ 31) ∨ (127 ≤ cp ∧ cp ≤ 159)) ∨
    ((64976 ≤ cp ∧ cp ≤ 65007) ∨ cp &&& 65534 = 65534))

/-! ### Escaping -/

section Buffer

variable {σ : Type} (A : Allocator σ) (fuel : Nat)

/-- A round of the loop over the bytes. -/
def escapeRound (b : Bytes) (quote : Bool) (o : Content σ) (i : Nat) : Outcome (Content σ) := do
  let c ← byteAt b i
  if c = 38 then o.pushBytes A fuel (ascii "&amp;")
  else if c = 60 then o.pushBytes A fuel (ascii "&lt;")
  else if c = 62 then o.pushBytes A fuel (ascii "&gt;")
  else if quote ∧ c = 34 then o.pushBytes A fuel (ascii "&quot;")
  else if quote ∧ c = 39 then o.pushBytes A fuel (ascii "&#x27;")
  else o.pushByte A fuel (BitVec.ofNat 32 c)

def escapeTo (o : Content σ) (b : Bytes) (quote : Bool) : Outcome (Content σ) :=
  foldAll (escapeRound A fuel b quote) o (List.range b.length)

/-- The text of a buffer, which is given back. -/
def finish (o : Content σ) : Outcome Bytes := do
  let s := o.bytes
  let _ ← o.free A
  pure s

def escape (heap : σ) (s : Bytes) : Outcome Bytes := do
  let o ← Content.make A heap (BitVec.ofNat 32 s.length + 16#32)
  let o ← escapeTo A fuel o s true
  finish A o

/-! ### References -/

def isDigit (c : Nat) : Bool := 48 ≤ c ∧ c ≤ 57

def hexValue (c : Nat) : Int :=
  if isDigit c then c - 48
  else if 97 ≤ c ∧ c ≤ 102 then c - 87
  else if 65 ≤ c ∧ c ≤ 70 then c - 55
  else -1

/-- A round of the loop over the digits of a number: the place, and the number, which stops growing past U+10FFFF. -/
def numericRound (b : Bytes) (hex : Bool) (s : Nat × Nat) : Outcome (Nat × Nat ⊕ Nat × Nat) :=
  let (p, v) := s
  if p < b.length then do
    let c ← byteAt b p
    if (if hex then 0 ≤ hexValue c else isDigit c = true) then
      let d := if hex then (hexValue c).toNat else c - 48
      pure (.inl (p + 1, if v ≤ 1114111 then v * (if hex then 16 else 10) + d else v))
    else pure (.inr (p, v))
  else pure (.inr (p, v))

/-- After `&#` at `i`. -/
def numeric (o : Content σ) (b : Bytes) (i : Nat) : Outcome (Content σ × Nat) := do
  let n := b.length
  let hex ← (if i < n then do
      let c ← byteAt b i
      pure (decide (c = 120 ∨ c = 88))
    else pure false : Outcome Bool)
  let start := if hex then i + 1 else i
  let (p, v) ← iterate (numericRound b hex) fuel (start, 0)
  if p = start then do
    let o ← o.pushByte A fuel 38#32
    pure (o, i - 1)
  else do
    let p ← (if p < n then do pure (if (← byteAt b p) = 59 then p + 1 else p) else pure p : Outcome Nat)
    let r := replaced v
    let o ← (if 0 ≤ r then StdUtf8.encode A fuel o (BitVec.ofInt 32 r)
      else if (55296 ≤ v ∧ v ≤ 57343) ∨ 1114111 < v then StdUtf8.encode A fuel o 65533#32
      else if invalid v then pure o
      else StdUtf8.encode A fuel o (BitVec.ofNat 32 v) : Outcome (Content σ))
    pure (o, p)

/-- What ends a name. -/
def ends (c : Nat) : Bool := ((c = 9 ∨ c = 10) ∨ (c = 12 ∨ c = 32)) ∨ (c = 60 ∨ (c = 38 ∨ (c = 35 ∨ c = 59)))

/-- A round of the loop over a name of up to 32 characters: where it is, and how many there are. -/
def nameRound (b : Bytes) (s : Nat × Nat) : Outcome (Nat × Nat ⊕ Nat) :=
  let (end_, chars) := s
  if end_ < b.length ∧ chars < 32 then do
    let c ← byteAt b end_
    if ends c then pure (.inr end_)
    else do
      let ch ← StdUtf8.decode b (BitVec.ofNat 32 end_)
      pure (.inl (end_ + (StdUtf8.step ch).toNat, chars + 1))
  else pure (.inr end_)

/-- A round of the loop that looks for the longest name without its `;`, at least 2 characters. -/
def prefixRound (o : Content σ) (b : Bytes) (i x : Nat) : Outcome (Nat ⊕ Option (Content σ × Nat)) :=
  if i + 2 ≤ x then do
    let c ← byteAt b x
    if c &&& 192 ≠ 128 then do
      let pre ← slice b i (x - i)
      if legacy pre then do
        let o ← StdUtf8.encode A fuel o (BitVec.ofInt 32 (named pre))
        pure (.inr (some (o, x)))
      else pure (.inl (x - 1))
    else pure (.inl (x - 1))
  else pure (.inr none)

/-- After an `&` at `i - 1`. -/
def reference (o : Content σ) (b : Bytes) (i : Nat) : Outcome (Content σ × Nat) := do
  let n := b.length
  let number ← (if i < n then do pure (decide ((← byteAt b i) = 35)) else pure false : Outcome Bool)
  if number then numeric A fuel o b (i + 1)
  else do
    let end_ ← iterate (nameRound b) fuel (i, 0)
    if end_ = i then do
      let o ← o.pushByte A fuel 38#32
      pure (o, i)
    else do
      let semi ← (if end_ < n then do pure (decide ((← byteAt b end_) = 59)) else pure false : Outcome Bool)
      let after := if semi then end_ + 1 else end_
      let name ← slice b i (end_ - i)
      let cp := if semi then named name else if legacy name then named name else -1
      if 0 ≤ cp then do
        let o ← StdUtf8.encode A fuel o (BitVec.ofInt 32 cp)
        pure (o, after)
      else do
        match ← iterate (prefixRound A fuel o b i) fuel (if semi then end_ else end_ - 1) with
        | some r => pure r
        | none => do
          let o ← o.pushByte A fuel 38#32
          pure (o, i)

def unescapeRound (b : Bytes) (s : Content σ × Nat) : Outcome (Content σ × Nat ⊕ Content σ) :=
  let (o, i) := s
  if i < b.length then do
    let c ← byteAt b i
    if c ≠ 38 then do
      let o ← o.pushByte A fuel (BitVec.ofNat 32 c)
      pure (.inl (o, i + 1))
    else do
      let s ← reference A fuel o b (i + 1)
      pure (.inl s)
  else pure (.inr o)

def unescapeTo (o : Content σ) (b : Bytes) : Outcome (Content σ) := iterate (unescapeRound A fuel b) fuel (o, 0)

def unescape (heap : σ) (s : Bytes) : Outcome Bytes := do
  let o ← Content.make A heap (BitVec.ofNat 32 s.length + 16#32)
  let o ← unescapeTo A fuel o s
  finish A o

end Buffer

end Aipl.StdHtml
