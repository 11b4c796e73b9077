import Aipl.Std.Http.Model
import Mathlib.Data.List.DropRight

/-! # A message, read off a list of bytes

What `parse` does, without positions, words or buffers: lines are taken off the front of a list, and sizes
are numbers.  An error is only whether the message was cut short.

* `Line` — a line with its end; `splitLine` takes one off (`splitLine_append`, `of_splitLine`).
* `readHead`, `framing`, `readBody` — the three parts of a message, and `read`, all of it.
-/

namespace Aipl.StdHttp.Wire

open Aipl.Lib Aipl.StdHttp

abbrev Byte := BitVec 8

/-! ### Lines -/

/-- A line, and the line with its end: CRLF, or a bare LF. -/
inductive Line : List Byte → List Byte → Prop where
  | lf {l : List Byte} (h : 10#8 ∉ l) (hcr : l.getLast? ≠ some 13#8) : Line l (l ++ [10#8])
  | crlf {l : List Byte} (h : 10#8 ∉ l) : Line l (l ++ [13#8, 10#8])

def dropCr (l : List Byte) : List Byte := if l.getLast? = some 13#8 then l.dropLast else l

/-- The first line, without its end, and the number of bytes that it takes with it. -/
def splitLine (bs : List Byte) : Option (List Byte × Nat) :=
  let l := bs.takeWhile (· ≠ 10#8)
  if l.length < bs.length then some (dropCr l, l.length + 1) else none

theorem Line.length_lt {l s : List Byte} (h : Line l s) : l.length < s.length := by
  cases h with
  | lf => simp
  | crlf => simp

theorem Line.take_length {l s : List Byte} (h : Line l s) : s.take l.length = l := by
  cases h with
  | lf => simp
  | crlf => simp

theorem takeWhile_append_lf {l rest : List Byte} (h : 10#8 ∉ l) :
    (l ++ 10#8 :: rest).takeWhile (· ≠ 10#8) = l := by
  rw [List.takeWhile_append_of_pos fun x hx => ?_]
  · simp
  · simp only [ne_eq, decide_not, Bool.not_eq_eq_eq_not, Bool.not_true, decide_eq_false_iff_not]
    rintro rfl
    exact h hx

/-- **A line is taken off as it stands.** -/
theorem splitLine_append {l s : List Byte} (h : Line l s) (rest : List Byte) :
    splitLine (s ++ rest) = some (l, s.length) := by
  cases h with
  | lf h hcr =>
    rw [splitLine, List.append_assoc, List.singleton_append, takeWhile_append_lf h]
    simp [dropCr, hcr]
  | crlf h =>
    have hcr : 10#8 ∉ l ++ [13#8] := by simp [h]
    have hsplit : l ++ [13#8, 10#8] ++ rest = (l ++ [13#8]) ++ 10#8 :: rest := by simp
    rw [splitLine, hsplit, takeWhile_append_lf hcr]
    simp [dropCr]

/-- … and what is taken off is a line. -/
theorem of_splitLine {bs l : List Byte} {t : Nat} (h : splitLine bs = some (l, t)) :
    Line l (bs.take t) ∧ t ≤ bs.length ∧ 0 < t := by
  rw [splitLine] at h
  obtain ⟨hlt, h⟩ := Option.ite_none_right_eq_some.mp h
  injection h with h
  injection h with hl ht
  obtain ⟨pre, hpre⟩ : ∃ pre, bs.takeWhile (· ≠ 10#8) = pre := ⟨_, rfl⟩
  rw [hpre] at hl ht hlt
  have hmem : 10#8 ∉ pre := by
    intro hmem
    rw [← hpre] at hmem
    simpa using List.mem_takeWhile_imp hmem
  have hbs : bs = pre ++ 10#8 :: bs.drop (pre.length + 1) := by
    have hdrop := List.takeWhile_append_dropWhile (p := (· ≠ 10#8)) (l := bs)
    rw [hpre] at hdrop
    cases hrest : bs.dropWhile (· ≠ 10#8) with
    | nil =>
      rw [hrest, List.append_nil] at hdrop
      rw [hdrop] at hlt
      exact absurd hlt (lt_irrefl _)
    | cons c rest =>
      have hc : c = 10#8 := by
        have hhead := List.head?_dropWhile_not (· ≠ 10#8) bs
        rw [hrest] at hhead
        simpa using hhead
      rw [hrest, hc] at hdrop
      rw [← hdrop]
      simp
  have htake : bs.take t = pre ++ [10#8] := by
    rw [hbs, ← ht]
    simp [List.take_append]
  refine ⟨?_, by omega, by omega⟩
  rw [htake, ← hl, dropCr]
  by_cases hcr : pre.getLast? = some 13#8
  · obtain ⟨init, rfl⟩ : ∃ init, pre = init ++ [13#8] := by
      refine ⟨pre.dropLast, ?_⟩
      exact (List.dropLast_append_getLast? _ hcr).symm
    rw [if_pos hcr, List.dropLast_concat, List.append_assoc]
    exact .crlf fun h => hmem (List.mem_append_left _ h)
  · rw [if_neg hcr]
    exact .lf hmem hcr

theorem splitLine_eq_none {bs : List Byte} : splitLine bs = none ↔ 10#8 ∉ bs := by
  constructor
  · intro h hmem
    obtain ⟨pre, rest, rfl, hpre⟩ := List.eq_append_cons_of_mem hmem
    rw [splitLine, takeWhile_append_lf hpre, if_pos (by simp)] at h
    cases h
  · intro h
    have hall : bs.takeWhile (· ≠ 10#8) = bs := by
      rw [List.takeWhile_eq_self_iff]
      intro x hx
      simp only [ne_eq, decide_not, Bool.not_eq_eq_eq_not, Bool.not_true, decide_eq_false_iff_not]
      rintro rfl
      exact h hx
    rw [splitLine, hall, if_neg (lt_irrefl _)]

/-! ### The head -/

/-- A header: its name, and its value without the spaces around it. -/
structure Field where
  name : List Byte
  value : List Byte

structure Head where
  method : List Byte
  target : List Byte
  status : BitVec 32
  reason : List Byte
  version : List Byte
  fields : List Field

/-- "HTTP/" digit "." digit. -/
def versionOk : List Byte → Bool
  | [h, t₁, t₂, p, s, d₁, dot, d₂] =>
    [h, t₁, t₂, p, s] = HTTP ∧ isDigit (d₁.setWidth 32) ∧ dot = 46#8 ∧ isDigit (d₂.setWidth 32)
  | _ => false

def digitValue (d : Byte) : BitVec 32 := d.setWidth 32 - 48#32

/-- What has to hold, or the bytes are refused. -/
def must (c : Bool) : Except Bool Unit := if c then .ok () else .error false

theorem of_bind_ok {ε α β : Type} {r : Except ε α} {f : α → Except ε β} {c : β} (h : (r >>= f) = .ok c) :
    ∃ a, r = .ok a ∧ f a = .ok c := by
  cases r with
  | error e => cases h
  | ok a => exact ⟨a, rfl, h⟩

theorem of_must {α : Type} {c : Bool} {f : Unit → Except Bool α} {a : α} (h : (must c >>= f) = .ok a) :
    c = true ∧ f () = .ok a := by
  cases c with
  | false => cases h
  | true => exact ⟨rfl, h⟩

/-- A request's line: a method, a target and a version. -/
def readRequestLine (method target version : List Byte) : Except Bool Head := do
  must (method ≠ [])
  must (method.all fun c => tchar (c.setWidth 32))
  must (target ≠ [] ∧ 9#8 ∉ target)
  must (versionOk version)
  pure { method, target, status := 0#32, reason := [], version, fields := [] }

def statusOf : List Byte → BitVec 32
  | [d₁, d₂, d₃] => 100#32 * digitValue d₁ + (10#32 * digitValue d₂ + digitValue d₃)
  | _ => 0#32

/-- A response's line: a version, three digits, and a reason if a space follows. -/
def readStatusLine (version code reason : List Byte) : Except Bool Head := do
  must (versionOk version)
  must (code.length = 3)
  must (code.all fun c => isDigit (c.setWidth 32))
  pure { method := [], target := [], status := statusOf code, reason, version, fields := [] }

/-- The start line: its parts are those before, between and after two spaces. -/
def readStartLine (request : Bool) (line : List Byte) : Except Bool Head := do
  let first := line.takeWhile (· ≠ 32#8)
  must (first.length < line.length)
  let line := line.drop (first.length + 1)
  let second := line.takeWhile (· ≠ 32#8)
  let third := line.drop (second.length + 1)
  must (!request || second.length < line.length)
  if request then readRequestLine first second third else readStatusLine first second third

def trimOws (v : List Byte) : List Byte :=
  (v.dropWhile fun c => isOws (c.setWidth 32)).rdropWhile fun c => isOws (c.setWidth 32)

/-- A header line: a token, a ':', and a value. -/
def readField (line : List Byte) : Except Bool Field := do
  must (line.head?.all fun c => !(isOws (c.setWidth 32)))
  let name := line.takeWhile (· ≠ 58#8)
  must (name.length < line.length)
  must (name ≠ [])
  must (name.all fun c => tchar (c.setWidth 32))
  let value := trimOws (line.drop (name.length + 1))
  must (value.all fun c => !(isBreak (c.setWidth 32)))
  pure { name, value }

/-- Headers to an empty line, and the bytes they take; `early` is what to say at the end of the bytes. -/
def readFields (early : Bool) (left : Nat) (bs : List Byte) : Except Bool (List Field × Nat) :=
  match _hline : splitLine bs with
  | none => .error early
  | some (line, t) =>
    if line = [] then .ok ([], t)
    else do
      let f ← readField line
      must (0 < left)
      let (fs, n) ← readFields early (left - 1) (bs.drop t)
      pure (f :: fs, t + n)
termination_by bs.length
decreasing_by
  obtain ⟨-, hle, hpos⟩ := of_splitLine _hline
  rw [List.length_drop]
  omega

section

variable {early : Bool} {left t : Nat} {bs line : List Byte}

theorem readFields_none (h : splitLine bs = none) : readFields early left bs = .error early := by
  rw [readFields.eq_def]
  split
  · rfl
  · simp_all

theorem readFields_nil (h : splitLine bs = some ([], t)) : readFields early left bs = .ok ([], t) := by
  rw [readFields.eq_def]
  split
  · simp_all
  · simp_all

theorem readFields_line (h : splitLine bs = some (line, t)) (hne : line ≠ []) :
    readFields early left bs = (do
      let f ← readField line
      must (0 < left)
      let (fs, n) ← readFields early (left - 1) (bs.drop t)
      pure (f :: fs, t + n)) := by
  rw [readFields.eq_def]
  split
  · simp_all
  · rename_i line' t' hline
    rw [h] at hline
    cases hline
    rw [if_neg hne]

theorem readFields_length {fs : List Field} (h : readFields early left bs = .ok (fs, t)) :
    fs.length ≤ left := by
  induction left, bs using readFields.induct generalizing fs t with
  | case1 left bs hline =>
    rw [readFields_none hline] at h
    cases h
  | case2 left bs n hline =>
    rw [readFields_nil hline] at h
    cases h
    exact Nat.zero_le _
  | case3 left bs line n hline hne ih =>
    rw [readFields_line hline hne] at h
    obtain ⟨f, -, h⟩ := of_bind_ok h
    obtain ⟨hleft, h⟩ := of_must h
    obtain ⟨⟨fs', t'⟩, hfs, h⟩ := of_bind_ok h
    cases h
    have hle := ih hfs
    have hpos := of_decide_eq_true hleft
    rw [List.length_cons]
    omega

end

/-- The start line and the headers, of at most `limit` bytes, and the bytes they take. -/
def readHead (request : Bool) (limit left : Nat) (bs : List Byte) : Except Bool (Head × Nat) :=
  match splitLine (bs.take limit) with
  | none => .error (decide (bs.length < limit))
  | some (line, t) => do
    let head ← readStartLine request line
    let (fields, n) ← readFields (decide (bs.length < limit)) left ((bs.take limit).drop t)
    pure ({ head with fields }, t + n)

/-! ### Framing -/

/-- How a body is delimited. -/
inductive Framing where
  | none
  | chunked
  | length (n : Nat)
  | rest
deriving DecidableEq

/-- The values of the headers of a name. -/
def values (name : List Byte) (fields : List Field) : List (List Byte) :=
  (fields.filter fun f => eqIgnoreCase f.name name).map Field.value

def decimal (ds : List Byte) : Nat := ds.foldl (fun n d => 10 * n + (digitValue d).toNat) 0

def isNumber (ds : List Byte) : Bool := ds ≠ [] ∧ ds.all fun d => isDigit (d.setWidth 32)

/-- Lengths are compared up to this one. -/
def LARGE : Nat := 4294967296

/-- At most one Transfer-Encoding. -/
def codingsOk (fields : List Field) : Bool := (values TRANSFER_ENCODING fields).length < 2

/-- Every Content-Length is a number, and the same up to `LARGE`. -/
def lengthsOk (fields : List Field) : Bool :=
  (values CONTENT_LENGTH fields).all isNumber
    ∧ ((values CONTENT_LENGTH fields).map fun v => min (decimal v) LARGE).Pairwise (· = ·)

/-- How headers that are consistent delimit the body of a message. -/
def delimiter (request : Bool) (head : Head) : Except Bool Framing :=
  if bodiless request head.status then pure .none
  else
    match values TRANSFER_ENCODING head.fields, values CONTENT_LENGTH head.fields with
    | [], [] => pure (if request then .none else .rest)
    | [], v :: _ => pure (.length (decimal v))
    | c :: _, [] => do
      must (eqIgnoreCase c CHUNKED)
      pure .chunked
    | _ :: _, _ :: _ => .error false

/-- How the body of a message is delimited, if its headers say. -/
def framing (request : Bool) (head : Head) : Except Bool Framing := do
  must (codingsOk head.fields && lengthsOk head.fields)
  delimiter request head

/-! ### The body -/

/-- The size that a chunk's line begins with: hex digits, then nothing, or a ';' or a space. -/
def readSize (line : List Byte) : Except Bool Nat := do
  let digits := line.takeWhile fun c => (0#32).sle (hexValue (c.setWidth 32))
  must (digits ≠ [])
  must ((line.drop digits.length).head?.all fun c => c.setWidth 32 = 59#32 || isOws (c.setWidth 32))
  pure (digits.foldl (fun n d => 16 * n + (hexValue (d.setWidth 32)).toNat) 0)

/-- Trailer lines to an empty one, and the bytes they take. -/
def readTrailers (bs : List Byte) : Except Bool Nat :=
  match _hline : splitLine bs with
  | none => .error true
  | some (line, t) =>
    if line = [] then .ok t
    else do
      let n ← readTrailers (bs.drop t)
      pure (t + n)
termination_by bs.length
decreasing_by
  obtain ⟨-, hle, hpos⟩ := of_splitLine _hline
  rw [List.length_drop]
  omega

section

variable {bs line : List Byte} {t : Nat}

theorem readTrailers_none (h : splitLine bs = none) : readTrailers bs = .error true := by
  rw [readTrailers.eq_def]
  split
  · rfl
  · simp_all

theorem readTrailers_nil (h : splitLine bs = some ([], t)) : readTrailers bs = .ok t := by
  rw [readTrailers.eq_def]
  split
  · simp_all
  · simp_all

theorem readTrailers_line (h : splitLine bs = some (line, t)) (hne : line ≠ []) :
    readTrailers bs = (do
      let n ← readTrailers (bs.drop t)
      pure (t + n)) := by
  rw [readTrailers.eq_def]
  split
  · simp_all
  · rename_i line' t' hline
    rw [h] at hline
    cases hline
    rw [if_neg hne]

end

/-- A chunk's bytes and its line end: the bytes, and how many there are with the end. -/
def readData (limit total size : Nat) (bs : List Byte) : Except Bool (List Byte × Nat) := do
  must (total + size ≤ limit)
  if bs.length < size then .error true
  else
    match splitLine (bs.drop size) with
    | some ([], e) => .ok (bs.take size, size + e)
    | _ => .error false

/-- Chunks, of which `total` bytes are read: the rest of the body, and the bytes it takes. -/
def readChunks (limit total : Nat) (bs : List Byte) : Except Bool (List Byte × Nat) :=
  match _hline : splitLine bs with
  | none => .error true
  | some (line, t) => do
    let size ← readSize line
    if size = 0 then do
      let n ← readTrailers (bs.drop t)
      pure ([], t + n)
    else do
      let (data, e) ← readData limit total size (bs.drop t)
      let (body, n) ← readChunks limit (total + size) (bs.drop (t + e))
      pure (data ++ body, t + e + n)
termination_by bs.length
decreasing_by
  obtain ⟨-, hle, hpos⟩ := of_splitLine _hline
  rw [List.length_drop]
  omega

theorem readChunks_none {limit total : Nat} {bs : List Byte} (h : splitLine bs = none) :
    readChunks limit total bs = .error true := by
  rw [readChunks.eq_def]
  split
  · rfl
  · simp_all

theorem readChunks_line {limit total t : Nat} {bs line : List Byte} (h : splitLine bs = some (line, t)) :
    readChunks limit total bs = (do
      let size ← readSize line
      if size = 0 then do
        let n ← readTrailers (bs.drop t)
        pure ([], t + n)
      else do
        let (data, e) ← readData limit total size (bs.drop t)
        let (body, n) ← readChunks limit (total + size) (bs.drop (t + e))
        pure (data ++ body, t + e + n)) := by
  rw [readChunks.eq_def]
  split
  · simp_all
  · rename_i line' t' hline
    rw [h] at hline
    cases hline
    rfl

/-- The body at the front of `bs`, of at most `limit` bytes, and the bytes it takes. -/
def readBody (limit : Nat) (bs : List Byte) : Framing → Except Bool (List Byte × Nat)
  | .none => .ok ([], 0)
  | .chunked => readChunks limit 0 bs
  | .length n => do
    must (n ≤ limit)
    if bs.length < n then .error true else pure (bs.take n, n)
  | .rest => do
    must (bs.length ≤ limit)
    pure (bs, bs.length)

/-- A message: its head, its body, and the bytes it takes. -/
structure Read where
  head : Head
  body : List Byte
  length : Nat

/-- **The message at the front of a list of bytes**, or whether it is cut short. -/
def read (lim : Limits) (request : Bool) (bs : List Byte) : Except Bool Read := do
  let (head, p) ← readHead request lim.headBytes.toNat lim.headers.toNat bs
  let f ← framing request head
  let (body, n) ← readBody lim.bodyBytes.toNat (bs.drop p) f
  pure { head, body, length := p + n }

end Aipl.StdHttp.Wire
