import Aipl.Lib.Digests
import Aipl.Std.Buf.Pushes
import Aipl.Std.Str.Bytes

/-! # `std/hash`, as its source computes it

A hasher is given bytes in pieces and puts them in a block, which is worked through when it is full.  Its arrays are
lists, and a place in one is a number that does not wrap. -/

namespace Aipl.StdHash

open Aipl.Lib Aipl.Lib.Outcome Aipl.Std Aipl.StdBytes
open Aipl.StdBuf (Content)
open Aipl.Lib.Digests (Four Five Eight)

inductive Algorithm where
  | md5
  | sha1
  | sha256
  | sha512
deriving DecidableEq

structure Hasher where
  alg : Algorithm
  h32 : List (BitVec 32)
  h64 : List (BitVec 64)
  k32 : List (BitVec 32)
  k64 : List (BitVec 64)
  w32 : List (BitVec 32)
  w64 : List (BitVec 64)
  block : List (BitVec 32)
  fill : Nat
  total : BitVec 64
  done : Bool
deriving DecidableEq

def digestSize : Algorithm → Nat
  | .md5 => 16
  | .sha1 => 20
  | .sha256 => 32
  | .sha512 => 64

def blockSize (alg : Algorithm) : Nat := if alg = .sha512 then 128 else 64

section Arrays

variable {T : Type}

/-- `arr.get`. -/
def getAt (xs : List T) (i : Nat) : Outcome T := ofOption xs[i]?

/-- `arr.set`: the array after the store. -/
def setAt (xs : List T) (i : Nat) (x : T) : Outcome (List T) := if i < xs.length then pure (xs.set i x) else stop

/-- `arr.set` of each of the first places. -/
def setAll (xs : List T) (l : List T) : Outcome (List T) := foldAll (fun xs p => setAt xs p.2 p.1) xs l.zipIdx

end Arrays

/-! ### Words -/

variable {w : Nat}

def rotated (v : BitVec w) (n : Nat) : BitVec w := v >>> (n % w) ||| v <<< ((w - n) % w)

def rotl (v : BitVec 32) (n : Nat) : BitVec 32 := v <<< (n % 32) ||| v >>> ((32 - n) % 32)

def rotr (v : BitVec 32) (n : Nat) : BitVec 32 := rotated v n

def rotr64 (v : BitVec 64) (n : Nat) : BitVec 64 := rotated v n

def be32 (blk : List (BitVec 32)) (j : Nat) : Outcome (BitVec 32) := do
  let b₀ ← getAt blk j
  let b₁ ← getAt blk (j + 1)
  let b₂ ← getAt blk (j + 2)
  let b₃ ← getAt blk (j + 3)
  pure ((b₀ <<< 24 ||| b₁ <<< 16) ||| (b₂ <<< 8 ||| b₃))

def le32 (blk : List (BitVec 32)) (j : Nat) : Outcome (BitVec 32) := do
  let b₀ ← getAt blk j
  let b₁ ← getAt blk (j + 1)
  let b₂ ← getAt blk (j + 2)
  let b₃ ← getAt blk (j + 3)
  pure ((b₀ ||| b₁ <<< 8) ||| (b₂ <<< 16 ||| b₃ <<< 24))

def be64 (blk : List (BitVec 32)) (j : Nat) : Outcome (BitVec 64) := do
  let hi ← be32 blk j
  let lo ← be32 blk (j + 4)
  pure (hi.setWidth 64 <<< 32 ||| lo.setWidth 64)

/-- A word of the chaining value, with `v` added. -/
def addAt (h : List (BitVec w)) (i : Nat) (v : BitVec w) : Outcome (List (BitVec w)) := do
  let x ← getAt h i
  setAt h i (x + v)

/-! ### MD5 -/

/-- MD5's shift for step `i`. -/
def md5Shift (i : Nat) : Nat :=
  let r := i % 4
  if i < 16 then if r = 0 then 7 else if r = 1 then 12 else if r = 2 then 17 else 22
  else if i < 32 then if r = 0 then 5 else if r = 1 then 9 else if r = 2 then 14 else 20
  else if i < 48 then if r = 0 then 4 else if r = 1 then 11 else if r = 2 then 16 else 23
  else if r = 0 then 6 else if r = 1 then 10 else if r = 2 then 15 else 21

/-- The `f` and the `g` of a step. -/
def md5Mix (s : Four) (i : Nat) : BitVec 32 × Nat :=
  if i < 16 then (s.b &&& s.c ||| (s.b ^^^ -1#32) &&& s.d, i)
  else if i < 32 then (s.d &&& s.b ||| (s.d ^^^ -1#32) &&& s.c, (5 * i + 1) % 16)
  else if i < 48 then ((s.b ^^^ s.c) ^^^ s.d, (3 * i + 5) % 16)
  else (s.c ^^^ (s.b ||| (s.d ^^^ -1#32)), 7 * i % 16)

def md5Round (k m : List (BitVec 32)) (s : Four) (i : Nat) : Outcome Four := do
  let (f, g) := md5Mix s i
  let ki ← getAt k i
  let mg ← getAt m g
  let f := (f + s.a) + (ki + mg)
  pure ⟨s.d, s.b + rotl f (md5Shift i), s.b, s.c⟩

def md5Block (x : Hasher) : Outcome Hasher := do
  let m ← foldAll (fun m j => do setAt m j (← le32 x.block (4 * j))) x.w32 (List.range 16)
  let a ← getAt x.h32 0
  let b ← getAt x.h32 1
  let c ← getAt x.h32 2
  let d ← getAt x.h32 3
  let s ← foldAll (md5Round x.k32 m) ⟨a, b, c, d⟩ (List.range 64)
  let h ← addAt x.h32 0 s.a
  let h ← addAt h 1 s.b
  let h ← addAt h 2 s.c
  let h ← addAt h 3 s.d
  pure { x with h32 := h, w32 := m }

/-! ### SHA-1 -/

def sha1Schedule (w : List (BitVec 32)) (t : Nat) : Outcome (List (BitVec 32)) := do
  let w₃ ← getAt w (t - 3)
  let w₈ ← getAt w (t - 8)
  let w₁₄ ← getAt w (t - 14)
  let w₁₆ ← getAt w (t - 16)
  setAt w t (rotl ((w₃ ^^^ w₈) ^^^ (w₁₄ ^^^ w₁₆)) 1)

/-- The `f` and the `kt` of a step. -/
def sha1Mix (s : Five) (t : Nat) : BitVec 32 × BitVec 32 :=
  if t < 20 then (s.b &&& s.c ||| (s.b ^^^ -1#32) &&& s.d, 1518500249#32)
  else if t < 40 then ((s.b ^^^ s.c) ^^^ s.d, 1859775393#32)
  else if t < 60 then ((s.b &&& s.c ||| s.b &&& s.d) ||| s.c &&& s.d, -1894007588#32)
  else ((s.b ^^^ s.c) ^^^ s.d, -899497514#32)

def sha1Round (w : List (BitVec 32)) (s : Five) (t : Nat) : Outcome Five := do
  let (f, kt) := sha1Mix s t
  let wt ← getAt w t
  pure ⟨(rotl s.a 5 + f) + ((s.e + kt) + wt), s.a, rotl s.b 30, s.c, s.d⟩

def sha1Block (x : Hasher) : Outcome Hasher := do
  let w ← foldAll (fun w t => do setAt w t (← be32 x.block (4 * t))) x.w32 (List.range 16)
  let w ← foldAll sha1Schedule w (List.range' 16 64)
  let a ← getAt x.h32 0
  let b ← getAt x.h32 1
  let c ← getAt x.h32 2
  let d ← getAt x.h32 3
  let e ← getAt x.h32 4
  let s ← foldAll (sha1Round w) ⟨a, b, c, d, e⟩ (List.range 80)
  let h ← addAt x.h32 0 s.a
  let h ← addAt h 1 s.b
  let h ← addAt h 2 s.c
  let h ← addAt h 3 s.d
  let h ← addAt h 4 s.e
  pure { x with h32 := h, w32 := w }

/-! ### SHA-2 -/

/-- What the two block functions differ in: how a word is read, the amounts of `s0`, `s1`, `big1` and `big0`, and the
rounds. -/
structure Sha2 (w : Nat) where
  load : List (BitVec 32) → Nat → Outcome (BitVec w)
  size : Nat
  (s0 s1 big1 big0 : Nat × Nat × Nat)
  rounds : Nat

variable (p : Sha2 w)

def sha2Schedule (ws : List (BitVec w)) (t : Nat) : Outcome (List (BitVec w)) := do
  let w₁₅ ← getAt ws (t - 15)
  let w₂ ← getAt ws (t - 2)
  let s0 := (rotated w₁₅ p.s0.1 ^^^ rotated w₁₅ p.s0.2.1) ^^^ w₁₅ >>> p.s0.2.2
  let s1 := (rotated w₂ p.s1.1 ^^^ rotated w₂ p.s1.2.1) ^^^ w₂ >>> p.s1.2.2
  let w₁₆ ← getAt ws (t - 16)
  let w₇ ← getAt ws (t - 7)
  setAt ws t ((w₁₆ + s0) + (w₇ + s1))

def sha2Round (k ws : List (BitVec w)) (s : Eight w) (t : Nat) : Outcome (Eight w) := do
  let big1 := (rotated s.e p.big1.1 ^^^ rotated s.e p.big1.2.1) ^^^ rotated s.e p.big1.2.2
  let ch := (s.e &&& s.f) ^^^ ((s.e ^^^ BitVec.allOnes w) &&& s.g)
  let kt ← getAt k t
  let wt ← getAt ws t
  let t1 := (s.h + big1) + (ch + (kt + wt))
  let big0 := (rotated s.a p.big0.1 ^^^ rotated s.a p.big0.2.1) ^^^ rotated s.a p.big0.2.2
  let maj := ((s.a &&& s.b) ^^^ (s.a &&& s.c)) ^^^ (s.b &&& s.c)
  let t2 := big0 + maj
  pure ⟨t1 + t2, s.a, s.b, s.c, s.d + t1, s.e, s.f, s.g⟩

/-- The chaining value and the schedule after a block. -/
def sha2Block (h k ws : List (BitVec w)) (blk : List (BitVec 32)) : Outcome (List (BitVec w) × List (BitVec w)) := do
  let ws ← foldAll (fun ws t => do setAt ws t (← p.load blk (p.size * t))) ws (List.range 16)
  let ws ← foldAll (sha2Schedule p) ws (List.range' 16 (p.rounds - 16))
  let a ← getAt h 0
  let b ← getAt h 1
  let c ← getAt h 2
  let d ← getAt h 3
  let e ← getAt h 4
  let f ← getAt h 5
  let g ← getAt h 6
  let hh ← getAt h 7
  let s ← foldAll (sha2Round p k ws) ⟨a, b, c, d, e, f, g, hh⟩ (List.range p.rounds)
  let h ← addAt h 0 s.a
  let h ← addAt h 1 s.b
  let h ← addAt h 2 s.c
  let h ← addAt h 3 s.d
  let h ← addAt h 4 s.e
  let h ← addAt h 5 s.f
  let h ← addAt h 6 s.g
  let h ← addAt h 7 s.h
  pure (h, ws)

def amounts256 : Sha2 32 := ⟨be32, 4, (7, 18, 3), (17, 19, 10), (6, 11, 25), (2, 13, 22), 64⟩

def amounts512 : Sha2 64 := ⟨be64, 8, (1, 8, 7), (19, 61, 6), (14, 18, 41), (28, 34, 39), 80⟩

def sha256Block (x : Hasher) : Outcome Hasher := do
  let (h, w) ← sha2Block amounts256 x.h32 x.k32 x.w32 x.block
  pure { x with h32 := h, w32 := w }

def sha512Block (x : Hasher) : Outcome Hasher := do
  let (h, w) ← sha2Block amounts512 x.h64 x.k64 x.w64 x.block
  pure { x with h64 := h, w64 := w }

def compress (x : Hasher) : Outcome Hasher :=
  match x.alg with
  | .md5 => md5Block x
  | .sha1 => sha1Block x
  | .sha256 => sha256Block x
  | .sha512 => sha512Block x

/-- Adds the byte `c` to the block. -/
def absorb (x : Hasher) (c : BitVec 32) : Outcome Hasher := do
  let block ← setAt x.block x.fill c
  let fill := x.fill + 1
  if fill = blockSize x.alg then do
    let x ← compress { x with block }
    pure { x with fill := 0 }
  else pure { x with block, fill }

/-! ### Tables -/

def md5Start : List (BitVec 32) :=
  [1732584193#32, -271733879#32, -1732584194#32, 271733878#32]

def md5Constants : List (BitVec 32) :=
  [-680876936#32, -389564586#32, 606105819#32, -1044525330#32, -176418897#32, 1200080426#32, -1473231341#32,
    -45705983#32, 1770035416#32, -1958414417#32, -42063#32, -1990404162#32, 1804603682#32, -40341101#32,
    -1502002290#32, 1236535329#32, -165796510#32, -1069501632#32, 643717713#32, -373897302#32, -701558691#32,
    38016083#32, -660478335#32, -405537848#32, 568446438#32, -1019803690#32, -187363961#32, 1163531501#32,
    -1444681467#32, -51403784#32, 1735328473#32, -1926607734#32, -378558#32, -2022574463#32, 1839030562#32,
    -35309556#32, -1530992060#32, 1272893353#32, -155497632#32, -1094730640#32, 681279174#32, -358537222#32,
    -722521979#32, 76029189#32, -640364487#32, -421815835#32, 530742520#32, -995338651#32, -198630844#32,
    1126891415#32, -1416354905#32, -57434055#32, 1700485571#32, -1894986606#32, -1051523#32, -2054922799#32,
    1873313359#32, -30611744#32, -1560198380#32, 1309151649#32, -145523070#32, -1120210379#32, 718787259#32,
    -343485551#32]

def sha1Start : List (BitVec 32) :=
  [1732584193#32, -271733879#32, -1732584194#32, 271733878#32, -1009589776#32]

def sha256Start : List (BitVec 32) :=
  [1779033703#32, -1150833019#32, 1013904242#32, -1521486534#32, 1359893119#32, -1694144372#32, 528734635#32,
    1541459225#32]

def sha256Constants : List (BitVec 32) :=
  [1116352408#32, 1899447441#32, -1245643825#32, -373957723#32, 961987163#32, 1508970993#32, -1841331548#32,
    -1424204075#32, -670586216#32, 310598401#32, 607225278#32, 1426881987#32, 1925078388#32, -2132889090#32,
    -1680079193#32, -1046744716#32, -459576895#32, -272742522#32, 264347078#32, 604807628#32, 770255983#32,
    1249150122#32, 1555081692#32, 1996064986#32, -1740746414#32, -1473132947#32, -1341970488#32, -1084653625#32,
    -958395405#32, -710438585#32, 113926993#32, 338241895#32, 666307205#32, 773529912#32, 1294757372#32,
    1396182291#32, 1695183700#32, 1986661051#32, -2117940946#32, -1838011259#32, -1564481375#32, -1474664885#32,
    -1035236496#32, -949202525#32, -778901479#32, -694614492#32, -200395387#32, 275423344#32, 430227734#32,
    506948616#32, 659060556#32, 883997877#32, 958139571#32, 1322822218#32, 1537002063#32, 1747873779#32,
    1955562222#32, 2024104815#32, -2067236844#32, -1933114872#32, -1866530822#32, -1538233109#32, -1090935817#32,
    -965641998#32]

def sha512Start : List (BitVec 64) :=
  [7640891576956012808#64, -4942790177534073029#64, 4354685564936845355#64, -6534734903238641935#64,
    5840696475078001361#64, -7276294671716946913#64, 2270897969802886507#64, 6620516959819538809#64]

def sha512Constants : List (BitVec 64) :=
  [4794697086780616226#64, 8158064640168781261#64, -5349999486874862801#64, -1606136188198331460#64,
    4131703408338449720#64, 6480981068601479193#64, -7908458776815382629#64, -6116909921290321640#64,
    -2880145864133508542#64, 1334009975649890238#64, 2608012711638119052#64, 6128411473006802146#64,
    8268148722764581231#64, -9160688886553864527#64, -7215885187991268811#64, -4495734319001033068#64,
    -1973867731355612462#64, -1171420211273849373#64, 1135362057144423861#64, 2597628984639134821#64,
    3308224258029322869#64, 5365058923640841347#64, 6679025012923562964#64, 8573033837759648693#64,
    -7476448914759557205#64, -6327057829258317296#64, -5763719355590565569#64, -4658551843659510044#64,
    -4116276920077217854#64, -3051310485924567259#64, 489312712824947311#64, 1452737877330783856#64,
    2861767655752347644#64, 3322285676063803686#64, 5560940570517711597#64, 5996557281743188959#64,
    7280758554555802590#64, 8532644243296465576#64, -9096487096722542874#64, -7894198246740708037#64,
    -6719396339535248540#64, -6333637450476146687#64, -4446306890439682159#64, -4076793802049405392#64,
    -3345356375505022440#64, -2983346525034927856#64, -860691631967231958#64, 1182934255886127544#64,
    1847814050463011016#64, 2177327727835720531#64, 2830643537854262169#64, 3796741975233480872#64,
    4115178125766777443#64, 5681478168544905931#64, 6601373596472566643#64, 7507060721942968483#64,
    8399075790359081724#64, 8693463985226723168#64, -8878714635349349518#64, -8302665154208450068#64,
    -8016688836872298968#64, -6606660893046293015#64, -4685533653050689259#64, -4147400797238176981#64,
    -3880063495543823972#64, -3348786107499101689#64, -1523767162380948706#64, -757361751448694408#64,
    500013540394364858#64, 748580250866718886#64, 1242879168328830382#64, 1977374033974150939#64,
    2944078676154940804#64, 3659926193048069267#64, 4368137639120453308#64, 4836135668995329356#64,
    5532061633213252278#64, 6448918945643986474#64, 6902733635092675308#64, 7801388544844847127#64]

def md5Tables (h k : List (BitVec 32)) : Outcome (List (BitVec 32) × List (BitVec 32)) := do
  let h ← setAll h md5Start
  let k ← setAll k md5Constants
  pure (h, k)

def sha1Tables (h : List (BitVec 32)) : Outcome (List (BitVec 32)) := setAll h sha1Start

def sha256Tables (h k : List (BitVec 32)) : Outcome (List (BitVec 32) × List (BitVec 32)) := do
  let h ← setAll h sha256Start
  let k ← setAll k sha256Constants
  pure (h, k)

def sha512Tables (h k : List (BitVec 64)) : Outcome (List (BitVec 64) × List (BitVec 64)) := do
  let h ← setAll h sha512Start
  let k ← setAll k sha512Constants
  pure (h, k)

/-! ### Hashers -/

/-- `i64`, as an element. -/
def i64 : ElemType (BitVec 64) := ⟨8#32, 0#64⟩

/-- `sizeof Hasher`. -/
def SIZEOF : BitVec 32 := 104#32

section

variable {σ : Type} (A D : Allocator σ) (fuel : Nat)

def make (heap : σ) (alg : Algorithm) : Outcome (Hasher × σ) := do
  let heap ← create D heap SIZEOF
  let wide := alg = .sha512
  let (h32, heap) ← array D i32 heap (if wide then 0#32 else 8#32)
  let (h64, heap) ← array D i64 heap (if wide then 8#32 else 0#32)
  let (k32, heap) ← array D i32 heap (if wide then 0#32 else 64#32)
  let (k64, heap) ← array D i64 heap (if wide then 80#32 else 0#32)
  let (w32, heap) ← array D i32 heap (if wide then 0#32 else 80#32)
  let (w64, heap) ← array D i64 heap (if wide then 80#32 else 0#32)
  let (block, heap) ← array D i32 heap 128#32
  let x : Hasher := { alg, h32, h64, k32, k64, w32, w64, block, fill := 0, total := 0#64, done := false }
  match alg with
  | .md5 => do
    let (h32, k32) ← md5Tables h32 k32
    pure ({ x with h32, k32 }, heap)
  | .sha1 => do
    let h32 ← sha1Tables h32
    pure ({ x with h32 }, heap)
  | .sha256 => do
    let (h32, k32) ← sha256Tables h32 k32
    pure ({ x with h32, k32 }, heap)
  | .sha512 => do
    let (h64, k64) ← sha512Tables h64 k64
    pure ({ x with h64, k64 }, heap)

def free (heap : σ) (x : Hasher) : Outcome σ := do
  let heap ← freeArray D i32 heap x.h32
  let heap ← freeArray D i64 heap x.h64
  let heap ← freeArray D i32 heap x.k32
  let heap ← freeArray D i64 heap x.k64
  let heap ← freeArray D i32 heap x.w32
  let heap ← freeArray D i64 heap x.w64
  let heap ← freeArray D i32 heap x.block
  destroy D heap SIZEOF

def update (x : Hasher) (b : List (BitVec 8)) : Outcome Hasher := do
  require (!x.done)
  let x ← foldAll (fun x i => do absorb x (BitVec.ofNat 32 (← byteAt b i))) x (List.range b.length)
  pure { x with total := x.total + (arrLen b).setWidth 64 }

/-- A byte of `v`, from bit `s` on. -/
def byteOf (v : BitVec w) (s : Nat) : BitVec 32 := ((v >>> s) &&& 255#w).setWidth 32

/-- A round of `(while (neq fill (- bs room)) (call absorb x 0))`. -/
def zeroRound (bs room : Nat) (x : Hasher) : Outcome (Hasher ⊕ Hasher) :=
  if x.fill ≠ bs - room then do pure (.inl (← absorb x 0#32)) else pure (.inr x)

/-- The one bit, the zeros and the length. -/
def finishBlocks (x : Hasher) : Outcome Hasher := do
  let bs := blockSize x.alg
  let total := x.total
  let bits := total <<< 3
  let x ← absorb x 128#32
  let room := if x.alg = .sha512 then 16 else 8
  let x ← iterate (zeroRound bs room) fuel x
  if x.alg = .md5 then foldAll (fun x k => absorb x (byteOf bits (8 * k))) x (List.range 8)
  else do
    let x ← (if x.alg = .sha512 then
        foldAll (fun x k => absorb x (byteOf (total >>> 61) (8 * (7 - k)))) x (List.range 8)
      else pure x : Outcome Hasher)
    foldAll (fun x k => absorb x (byteOf bits (8 * (7 - k)))) x (List.range 8)

/-- The words of the digest. -/
def writeDigest (x : Hasher) (o : Content σ) : Outcome (Content σ) :=
  match x.alg with
  | .md5 => foldAll (fun o i => do
      let w ← getAt x.h32 i
      foldAll (fun o k => o.pushByte A fuel (byteOf w (8 * k))) o (List.range 4)) o (List.range 4)
  | .sha512 => foldAll (fun o i => do
      let wide ← getAt x.h64 i
      foldAll (fun o k => o.pushByte A fuel (byteOf wide (8 * (7 - k)))) o (List.range 8)) o (List.range 8)
  | .sha1 | .sha256 => foldAll (fun o i => do
      let w ← getAt x.h32 i
      foldAll (fun o k => o.pushByte A fuel (byteOf w (8 * (3 - k)))) o (List.range 4)) o (List.range (digestSize x.alg / 4))

def finishTo (x : Hasher) (o : Content σ) : Outcome (Hasher × Content σ) := do
  require (!x.done)
  let x ← finishBlocks fuel x
  let o ← writeDigest A fuel x o
  pure ({ x with done := true }, o)

/-- What a program does that hashes pieces: `make`, `update` for each, `finish_to` and `free`. -/
def hashPieces (o : Content σ) (alg : Algorithm) (pieces : List (List (BitVec 8))) : Outcome (Content σ) := do
  let (x, heap) ← make D o.heap alg
  let x ← foldAll update x pieces
  let (x, o) ← finishTo A fuel x { o with heap }
  let heap ← free D o.heap x
  pure { o with heap }

def digestTo (o : Content σ) (alg : Algorithm) (b : List (BitVec 8)) : Outcome (Content σ) := do
  let (x, heap) ← make D o.heap alg
  let x ← update x b
  let (x, o) ← finishTo A fuel x { o with heap }
  let heap ← free D o.heap x
  pure { o with heap }

/-! ### HMAC -/

/-- Byte `i` of the key, zero past its end. -/
def keyByte (kb : List (BitVec 8)) (i : Nat) : Outcome (BitVec 32) :=
  if i < kb.length then do pure (BitVec.ofNat 32 (← byteAt kb i)) else pure 0#32

/-- The bytes of the key, each with `c` mixed in, at the end of `pad`. -/
def pushKey (pad : Content σ) (kb : List (BitVec 8)) (bs : Nat) (c : BitVec 32) : Outcome (Content σ) :=
  foldAll (fun pad i => do pad.pushByte D fuel ((← keyByte kb i) ^^^ c)) pad (List.range bs)

def hmacTo (o : Content σ) (alg : Algorithm) (key msg : List (BitVec 8)) : Outcome (Content σ) := do
  let bs := blockSize alg
  let k ← Content.make D o.heap (BitVec.ofNat 32 bs)
  let k ← (if bs < key.length then digestTo D D fuel k alg key else k.pushBytes D fuel key)
  let kb := k.bytes
  let pad ← Content.make D k.heap (BitVec.ofNat 32 bs)
  let pad ← pushKey D fuel pad kb bs 54#32
  let (inner, heap) ← make D pad.heap alg
  let inner ← update inner pad.bytes
  let inner ← update inner msg
  let mid ← Content.make D heap 64#32
  let (inner, mid) ← finishTo D fuel inner mid
  let heap ← free D mid.heap inner
  let pad := { pad.clear with heap }
  let pad ← pushKey D fuel pad kb bs 92#32
  let (outer, heap) ← make D pad.heap alg
  let outer ← update outer pad.bytes
  let outer ← update outer mid.bytes
  let (outer, o) ← finishTo A fuel outer { o with heap }
  let heap ← free D o.heap outer
  let heap ← Content.free D { mid with heap }
  let heap ← Content.free D { pad with heap }
  let heap ← Content.free D { k with heap }
  pure { o with heap }

/-- Whether the bytes are the same, looking at all of them. -/
def constantTimeEq (a b : List (BitVec 8)) : Outcome Bool :=
  if a.length ≠ b.length then pure false
  else do
    let diff ← foldAll (fun diff i => do
      let x ← byteAt a i
      let y ← byteAt b i
      pure (diff ||| (BitVec.ofNat 32 x ^^^ BitVec.ofNat 32 y))) 0#32 (List.range a.length)
    pure (diff = 0#32)

end

end Aipl.StdHash
