import Aipl.Std.Http.Frames
import Aipl.Std.Http.Model

/-! # Whether reading a request of `std/serve` depends on how it arrives

`answer`: a request is read into a buffer a piece at a time, until `std/http` reads it whole or refuses it.  What
supplies the pieces is a parameter, as in the source, and so is what lies in memory behind the buffer's content.
Of the handler and of `refuse`, which write the response, what is kept is what they are given.

* `Succeeds`, `CutShort` — what `parse_request` makes of a text; `Delivers` — a supply of pieces.
* `ArrivalFree` — a request that is read from a text is read from any text that begins with it, is cut short in any
  less of it, and is answered once however it is split.
* `Unchunked` — no size is too large to be read, and there is no chunk in the body.
* `arrivalFree_exact` — the requests that are unchunked are, and no others.
-/

namespace Aipl.StdServe

section

open Aipl.Lib Aipl.Lib.Outcome Aipl.Std Aipl.StdHttp
open Aipl.StdBuf (Content)

/-- What supplies a request: more of it into a buffer, and how many bytes, 0 at the end, or less on an error. -/
abbrev Supply (S : Type) := S → Content Unit → Outcome (BitVec 32 × S × Content Unit)

/-- `answer`, as it goes: the buffer, the requests that the handler was run on, and the refusals. -/
structure Answering (S : Type) where
  src : S
  in_ : Content Unit
  handled : List (Text × Message)
  refused : List (BitVec 32 × String)
  answered : Bool
  reading : Bool

/-- `buf.bytes`; a buffer has no more bytes than its length can say. -/
def textOf (behind : Content Unit → Nat → BitVec 8) (in_ : Content Unit) : Outcome Text :=
  if h : in_.bytes.length < 2 ^ 31 then done ⟨in_.bytes, behind in_, h⟩ else stop

variable {S : Type} (fuel : Nat) (more : Supply S) (behind : Content Unit → Nat → BitVec 8) (lim : Limits)

/-- What the request that was read so far calls for; `n` bytes came last. -/
def respond (s : Answering S) (n : BitVec 32) (text : Text) : Except StdHttp.Error Message → Answering S
  | .ok m => { s with handled := s.handled ++ [(text, m)], answered := true, reading := false }
  | .error e =>
    if e.incomplete && (0#32).slt n then s
    else if e.incomplete && s.in_.len = 0#32 then { s with reading := false }
    else { s with refused := s.refused ++ [(e.status, e.what)], answered := true, reading := false }

/-- A piece of the request. -/
def answerRound (s : Answering S) : Outcome (Answering S ⊕ Answering S) :=
  if s.reading then do
    let (n, src, in_) ← more s.src s.in_
    let s := { s with src, in_ }
    if n.slt 0#32 then pure (.inl { s with reading := false })
    else do
      let text ← textOf behind in_
      let r ← (parseRequest fuel text lim).run
      pure (.inl (respond s n text r))
  else pure (.inr s)

/-- One request. -/
def answer (src : S) : Outcome (Answering S) := do
  let in_ ← Content.make granted () 4096#32
  iterate (answerRound fuel more behind lim) fuel
    { src, in_, handled := [], refused := [], answered := false, reading := true }

end

/-! ## Whether reading depends on how a request arrives -/

section

open Aipl.Lib Aipl.Lib.Outcome Aipl.Lib.Fallible Aipl.Std Aipl.StdHttp
open Aipl.StdBuf (Content)
open Aipl.StdHttp.Wire (Byte Head Read Parts readHead splitLine readSize of_readChunks_nil readHead_extend readHead_cut
  splitLine_extend splitLine_cut take_add_line drop_line readHead_sound)

/-- What a message says. -/
structure Said where
  head : Head
  body : List Byte
  length : BitVec 32

def saidBy (t : Text) (m : Message) : Said := ⟨m.head t, m.body.content t, m.length⟩

/-- `parse_request` reads a message that says `s`. -/
def Succeeds (t : Text) (lim : Limits) (s : Said) : Prop :=
  ∃ k, ∀ fuel, k ≤ fuel → ∃ m, (parseRequest fuel t lim).run = done (.ok m) ∧ saidBy t m = s

/-- `parse_request` says that the text is cut short. -/
def CutShort (t : Text) (lim : Limits) : Prop :=
  ∃ k, ∀ fuel, k ≤ fuel → ∃ e, (parseRequest fuel t lim).run = done (.error e) ∧ e.incomplete = true

/-- A supply of these pieces, into a buffer. -/
def Delivers {S : Type} (more : Supply S) : S → Content Unit → List (List Byte) → Prop
  | _, _, [] => True
  | src, in_, piece :: pieces =>
    ∃ src' in', more src in_ = done (arrLen piece, src', in') ∧ in'.bytes = in_.bytes ++ piece
      ∧ Delivers more src' in' pieces

/-- The handler is run once, on a message that says `s`, and nothing is refused. -/
def AnsweredOnce {S : Type} (a : Answering S) (s : Said) : Prop :=
  (∃ t m, a.handled = [(t, m)] ∧ saidBy t m = s) ∧ a.refused = [] ∧ a.answered = true

/-- **Reading a request does not depend on how it arrives**: what is read of a text that says `s`. -/
structure AnyArrival (t : Text) (lim : Limits) (s : Said) : Prop where
  within : s.length.toNat ≤ t.bytes.length
  extends_ : ∀ t' : Text, t.bytes.take s.length.toNat <+: t'.bytes → Succeeds t' lim s
  cut : ∀ t' : Text, t'.bytes <+: t.bytes.take s.length.toNat → t'.bytes ≠ t.bytes.take s.length.toNat →
    CutShort t' lim
  answered : ∀ (S : Type) (more : Supply S) (src : S) (pieces : List (List Byte)) (behind : Content Unit → Nat → Byte),
    (∀ piece ∈ pieces, piece ≠ []) → pieces.flatten = t.bytes.take s.length.toNat →
    (∀ in_, Content.make granted () 4096#32 = done in_ → Delivers more src in_ pieces) →
    ∃ k, ∀ fuel, k ≤ fuel → ∃ a, answer fuel more behind lim src = done a ∧ AnsweredOnce a s

def ArrivalFree (t : Text) (lim : Limits) : Prop := ∀ s, Succeeds t lim s → AnyArrival t lim s

/-- **No size is too large to be read, and no chunk is in the body.** -/
def Unchunked (t : Text) (lim : Limits) : Prop :=
  ∀ head p f, readHead true lim.headBytes.toNat lim.headers.toNat t.bytes = .ok (head, p) →
    Wire.framing true head = .ok f →
    (∀ n, f = .length n → n ≤ lim.bodyBytes.toNat → p + n < 2 ^ 31)
    ∧ (f = .chunked → ¬ Wraps lim.bodyBytes.toNat p 0 (t.bytes.drop p) → ∀ body n,
      Wire.readChunks lim.bodyBytes.toNat 0 (t.bytes.drop p) = .ok (body, n) → body = [])

variable {t t' : Text} {lim : Limits} {fuel : Nat}

/-! ### What a text is read as -/

def said (r : Read) : Said := ⟨r.head, r.body, pos r.length⟩

theorem saidBy_eq {m : Message} {r : Read} (h : MessageOk t true m r) : saidBy t m = said r := by
  rw [saidBy, said, h.head_eq, h.body.content, h.length]

theorem succeeds_of_read (hfits : BodyFits t lim true) {r : Read} (h : Wire.read lim true t.bytes = .ok r)
    (hfuel : 2 ^ 32 ≤ fuel) : ∃ m, (parseRequest fuel t lim).run = done (.ok m) ∧ saidBy t m = said r := by
  obtain ⟨m, hm, hok⟩ := (h ▸ parse_agrees hfuel hfits).ok
  exact ⟨m, hm, saidBy_eq hok⟩

theorem cutShort_of_read (hfits : BodyFits t lim true) (h : Wire.read lim true t.bytes = .error true)
    (hfuel : 2 ^ 32 ≤ fuel) : ∃ e, (parseRequest fuel t lim).run = done (.error e) ∧ e.incomplete = true :=
  (h ▸ parse_agrees hfuel hfits).error

/-- What is read of a text whose sizes are not too large. -/
theorem read_of_succeeds (hfits : BodyFits t lim true) {s : Said} (h : Succeeds t lim s) :
    ∃ r, Wire.read lim true t.bytes = .ok r ∧ s = said r ∧ r.length ≤ t.bytes.length := by
  obtain ⟨k, hk⟩ := h
  obtain ⟨m, hm, hsaid⟩ := hk (max k (2 ^ 32)) (le_max_left _ _)
  obtain ⟨r', hrun, hsame⟩ := parse_agrees (le_max_right k (2 ^ 32)) hfits
  rw [parseRequest, hrun] at hm
  cases hm
  generalize hread : Wire.read lim true t.bytes = r at hsame
  cases hsame with
  | @ok _ r hok => exact ⟨r, rfl, hsaid ▸ saidBy_eq hok, hok.le⟩

theorem framing_ne_rest {head : Head} {f : Wire.Framing} (h : Wire.framing true head = .ok f) : f ≠ .rest := by
  rintro rfl
  have hdelimits := Wire.delimits_of_framing h fun n hn => by cases hn
  cases hdelimits with
  | rest hreq => cases hreq

/-! ### The sizes of what begins with a message, and of less than all of it -/

section

variable {r : Read} {p n k : Nat} {f : Wire.Framing}

theorem not_wraps_of_last {limit total : Nat} {bs line : List Byte} (hline : splitLine bs = some (line, n))
    (hsize : readSize line = .ok 0) : ¬ Wraps limit p total bs := by
  intro h
  cases h with
  | here hline' hsize' hpos | later hline' hsize' hpos =>
    rw [hline] at hline'
    cases hline'
    rw [hsize] at hsize'
    cases hsize'
    omega

/-- The sizes of a message without chunks. -/
theorem bodyFits_of_parts (h : Parts lim true t.bytes r p n f) (hchunks : f = .chunked → r.body = []) :
    BodyFits t lim true := by
  intro head p' f' hread hf
  rw [h.head] at hread
  cases hread
  rw [h.framing] at hf
  cases hf
  have hle := h.le
  have hlt := t.short
  have hbody := h.body
  cases f with
  | none | rest => trivial
  | length k =>
    intro _
    obtain ⟨hbodyOf, -⟩ := Wire.readBody_sound hbody
    generalize r.body = body at hbodyOf
    cases hbodyOf
    omega
  | chunked =>
    rw [hchunks rfl] at hbody
    obtain ⟨line, m, j, hline, hsize, -⟩ := of_readChunks_nil hbody
    exact not_wraps_of_last hline hsize

/-- … and of less than all of it. -/
theorem bodyFits_cut (h : Parts lim true t.bytes r p n f) (hchunks : f = .chunked → r.body = []) (hk : k < p + n)
    (ht' : t'.bytes = t.bytes.take k) : BodyFits t' lim true := by
  intro head p' f' hread hf
  obtain ⟨hp, -, -⟩ := readHead_sound h.head
  rcases Nat.lt_or_ge k p with hkp | hpk
  · rw [ht', readHead_cut h.head hkp] at hread
    cases hread
  obtain ⟨j, rfl⟩ := Nat.exists_eq_add_of_le hpk
  rw [ht', take_add_line, readHead_extend h.head] at hread
  cases hread
  rw [h.framing] at hf
  cases hf
  rw [ht', take_add_line, drop_line hp]
  have hfits := bodyFits_of_parts h hchunks _ _ _ h.head h.framing
  have hbody := h.body
  cases f with
  | none | rest => trivial
  | length => exact hfits
  | chunked =>
    rw [hchunks rfl] at hbody
    obtain ⟨line, m, j', hline, hsize, -⟩ := of_readChunks_nil hbody
    rcases Nat.lt_or_ge j m with hjm | hmj
    · have hnone := splitLine_cut hline hjm
      intro hwraps
      cases hwraps with
      | here hline' | later hline' =>
        rw [hnone] at hline'
        cases hline'
    · obtain ⟨i, rfl⟩ := Nat.exists_eq_add_of_le hmj
      rw [take_add_line]
      exact not_wraps_of_last (splitLine_extend hline) hsize

end

/-! ### A message without chunks -/

/-- What `parse_request` makes of every part of a message, and of what begins with it. -/
structure Readable (t : Text) (lim : Limits) (L : Nat) (s : Said) : Prop where
  whole : ∀ t' : Text, t.bytes.take L <+: t'.bytes → ∀ fuel, 2 ^ 32 ≤ fuel →
    ∃ m, (parseRequest fuel t' lim).run = done (.ok m) ∧ saidBy t' m = s
  part : ∀ t' : Text, t'.bytes <+: t.bytes.take L → t'.bytes ≠ t.bytes.take L → ∀ fuel, 2 ^ 32 ≤ fuel →
    ∃ e, (parseRequest fuel t' lim).run = done (.error e) ∧ e.incomplete = true

theorem readable_of_parts {r : Read} {p n : Nat} {f : Wire.Framing} (h : Parts lim true t.bytes r p n f)
    (hchunks : f = .chunked → r.body = []) : Readable t lim (p + n) (said r) := by
  have hrest := framing_ne_rest h.framing
  constructor
  · rintro t' ⟨rest, ht'⟩ fuel hfuel
    have hparts : Parts lim true t'.bytes r p n f := ht' ▸ h.extend hchunks hrest
    exact succeeds_of_read (bodyFits_of_parts hparts hchunks) hparts.read hfuel
  · intro t' hpre hne fuel hfuel
    have hle := h.le
    have hk : t'.bytes.length < p + n := by
      refine lt_of_le_of_ne (hpre.length_le.trans (List.length_take_le _ _)) fun heq => hne ?_
      refine hpre.eq_of_length ?_
      rw [heq, List.length_take]
      omega
    have ht' : t'.bytes = t.bytes.take t'.bytes.length :=
      List.prefix_iff_eq_take.mp (hpre.trans (List.take_prefix _ _))
    refine cutShort_of_read (bodyFits_cut h hchunks hk ht') ?_ hfuel
    rw [ht']
    exact h.cut hchunks hrest hk

section

variable {S : Type} {more : Supply S} {behind : Content Unit → Nat → Byte} {s : Said} {L : Nat}

/-- The rounds from pieces that are to come, of which there are some. -/
theorem answer_pieces (h : Readable t lim L s) (hfuel : 2 ^ 32 ≤ fuel) :
    ∀ (pieces : List (List Byte)) (src : S) (in_ : Content Unit) (k : Nat), pieces ≠ [] →
      (∀ piece ∈ pieces, piece ≠ []) → in_.bytes ++ pieces.flatten = t.bytes.take L →
      Delivers more src in_ pieces → pieces.length + 1 < k →
      ∃ a, iterate (answerRound fuel more behind lim) k
          { src, in_, handled := [], refused := [], answered := false, reading := true } = done a
        ∧ AnsweredOnce a s
  | [], _, _, _, hne, _, _, _, _ => absurd rfl hne
  | piece :: pieces, src, in_, 0, _, _, _, _, hk => by omega
  | piece :: pieces, src, in_, k + 1, _, hpieces, hbytes, hdelivers, hk => by
      obtain ⟨src', in', hmore, hin', hrest⟩ := hdelivers
      have hlt := t.short
      have hpos : 0 < piece.length := List.length_pos_iff.mpr (hpieces piece List.mem_cons_self)
      rw [List.flatten_cons, ← List.append_assoc, ← hin'] at hbytes
      have hpre : in'.bytes <+: t.bytes.take L := ⟨_, hbytes⟩
      have hlen : in'.bytes.length < 2 ^ 31 :=
        lt_of_le_of_lt (hpre.length_le.trans (List.length_take_le' _ _)) hlt
      have hpiece : piece.length ≤ in'.bytes.length := by
        rw [hin', List.length_append]
        omega
      have hn := toNat_arrLen (show piece.length < 2 ^ 32 by omega)
      have hneg : (arrLen piece).slt 0#32 = false := not_slt_zero (by omega)
      have hsome : (0#32).slt (arrLen piece) = true := (zero_slt_iff (by omega)).mpr (by omega)
      have htext : textOf behind in' = done ⟨in'.bytes, behind in', hlen⟩ := dif_pos hlen
      rw [iterate, answerRound, if_pos rfl, hmore]
      dsimp only [done_bind]
      rw [hneg, if_neg Bool.false_ne_true, htext, done_bind]
      by_cases hlast : pieces = []
      · subst hlast
        rw [List.flatten_nil, List.append_nil] at hbytes
        obtain ⟨m, hm, hsaid⟩ := h.whole ⟨in'.bytes, behind in', hlen⟩ ⟨[], by rw [← hbytes, List.append_nil]⟩ fuel hfuel
        obtain ⟨j, rfl⟩ : ∃ j, k = j + 1 := ⟨k - 1, by omega⟩
        rw [hm]
        exact ⟨_, rfl, ⟨_, m, rfl, hsaid⟩, rfl, rfl⟩
      · have hne : in'.bytes ≠ t.bytes.take L := by
          intro heq
          rw [heq, List.append_right_eq_self, List.flatten_eq_nil_iff] at hbytes
          obtain ⟨x, xs, rfl⟩ := List.exists_cons_of_ne_nil hlast
          exact hpieces x (by simp) (hbytes x List.mem_cons_self)
        obtain ⟨e, he, hinc⟩ := h.part ⟨in'.bytes, behind in', hlen⟩ hpre hne fuel hfuel
        rw [he]
        dsimp only [done_bind, respond, pure_eq]
        rw [hinc, hsome, Bool.and_self, if_pos rfl]
        exact answer_pieces h hfuel pieces src' in' k hlast (fun x hx => hpieces x (List.mem_cons_of_mem _ hx)) hbytes
          hrest (by rw [List.length_cons] at hk; omega)

end

theorem length_le_flatten {pieces : List (List Byte)} (h : ∀ piece ∈ pieces, piece ≠ []) :
    pieces.length ≤ pieces.flatten.length := by
  induction pieces with
  | nil => exact Nat.zero_le _
  | cons piece pieces ih =>
    have hpos := List.length_pos_iff.mpr (h piece List.mem_cons_self)
    have hrest := ih fun x hx => h x (List.mem_cons_of_mem _ hx)
    rw [List.flatten_cons, List.length_append, List.length_cons]
    omega

/-- **A message without chunks is read however it arrives.** -/
theorem anyArrival_of_readable {s : Said} {L : Nat} (h : Readable t lim L s) (hL : s.length.toNat = L)
    (hpos : 0 < L) (hle : L ≤ t.bytes.length) : AnyArrival t lim s := by
  subst hL
  have hlt := t.short
  refine ⟨hle, fun t' ht' => ⟨_, h.whole t' ht'⟩, fun t' ht' hne => ⟨_, h.part t' ht' hne⟩, ?_⟩
  intro S more src pieces behind hpieces hflatten hdelivers
  refine ⟨2 ^ 32, fun fuel hfuel => ?_⟩
  have hmake : Content.make granted () 4096#32 = done ⟨[], 4096#32, ()⟩ := make_granted_of rfl (by decide)
  have hlen : pieces.flatten.length = s.length.toNat := by
    rw [hflatten, List.length_take, Nat.min_eq_left hle]
  have hcount := length_le_flatten hpieces
  have hne : pieces ≠ [] := by
    rintro rfl
    rw [List.flatten_nil, List.length_nil] at hlen
    omega
  rw [answer, hmake, done_bind]
  exact answer_pieces h hfuel pieces src _ fuel hne hpieces (by rw [List.nil_append]; exact hflatten)
    (hdelivers _ hmake) (by omega)

/-- A supply of pieces that a list holds. -/
def nextPiece (fuel : Nat) : Supply (List (List Byte))
  | [], in_ => done (0#32, [], in_)
  | piece :: pieces, in_ => do
    let in_ ← in_.pushBytes granted fuel piece
    pure (arrLen piece, pieces, in_)

/-! ### Which texts are -/

/-- The sizes of a request that is read, if its declared length is not too large. -/
theorem bodyFits_of_unchunked (h : Unchunked t lim) {s : Said} (hs : Succeeds t lim s) : BodyFits t lim true := by
  intro head p f hread hf
  obtain ⟨hlength, -⟩ := h head p f hread hf
  cases f with
  | none | rest => trivial
  | length n => exact hlength n rfl
  | chunked =>
    intro hwraps
    obtain ⟨k, hk⟩ := hs
    obtain ⟨m, hm, -⟩ := hk (max k (2 ^ 32)) (le_max_left _ _)
    exact run_ne_of_wraps (le_max_right _ _) hread hf hwraps hm

theorem arrivalFree_of_unchunked (h : Unchunked t lim) : ArrivalFree t lim := by
  intro s hs
  have hlt := t.short
  have hfits := bodyFits_of_unchunked h hs
  obtain ⟨r, hread, rfl, -⟩ := read_of_succeeds hfits hs
  obtain ⟨p, n, f, hparts⟩ := Wire.of_read hread
  obtain ⟨-, hbody⟩ := h _ _ _ hparts.head hparts.framing
  have hchunks : f = .chunked → r.body = [] := by
    rintro rfl
    exact hbody rfl (hfits _ _ _ hparts.head hparts.framing) _ _ hparts.body
  have hle := hparts.le
  obtain ⟨line, i, start, j, hline, -, -, -, hp, -⟩ := Wire.of_readHead hparts.head
  obtain ⟨-, -, hpos⟩ := Wire.of_splitLine hline
  refine anyArrival_of_readable (readable_of_parts hparts hchunks) ?_ (by omega) hle
  rw [said, hparts.length, toNat_pos (by omega)]

/-- A declared length that is too large is read as one past the end of the text. -/
theorem length_lt_of_arrivalFree (h : ArrivalFree t lim) {head : Head} {p n : Nat}
    (hread : readHead true lim.headBytes.toNat lim.headers.toNat t.bytes = .ok (head, p))
    (hf : Wire.framing true head = .ok (.length n)) (hle : n ≤ lim.bodyBytes.toNat) : p + n < 2 ^ 31 := by
  by_contra hwraps
  have hlt := t.short
  have hlimit := lim.bodyBytes_lt
  obtain ⟨hp, -, -⟩ := readHead_sound hread
  have hs : Succeeds t lim ⟨head, t.content (pos p, pos n), pos (p + n)⟩ := by
    refine ⟨2 ^ 32, fun fuel hfuel => ?_⟩
    obtain ⟨m, hm, hrun⟩ := run_of_large hfuel hread hf hle (by omega)
    refine ⟨_, hrun, ?_⟩
    rw [saidBy, hm.head_eq]
    rfl
  have hwithin := (h _ hs).within
  rw [toNat_pos (by omega)] at hwithin
  omega

/-- A message with chunks, cut behind the bytes of the first, is refused. -/
theorem body_nil_of_arrivalFree (h : ArrivalFree t lim) {head : Head} {p n : Nat} {body : List Byte}
    (hread : readHead true lim.headBytes.toNat lim.headers.toNat t.bytes = .ok (head, p))
    (hf : Wire.framing true head = .ok .chunked) (hfits : ¬ Wraps lim.bodyBytes.toNat p 0 (t.bytes.drop p))
    (hbody : Wire.readChunks lim.bodyBytes.toNat 0 (t.bytes.drop p) = .ok (body, n)) : body = [] := by
  by_contra hne
  have hlt := t.short
  obtain ⟨hp, -, -⟩ := readHead_sound hread
  have hparts : Parts lim true t.bytes ⟨head, body, p + n⟩ p n .chunked := ⟨hread, hf, hbody, rfl⟩
  have hle := hparts.le
  have hall : BodyFits t lim true := by
    intro head' p' f' hread' hf'
    rw [hread] at hread'
    cases hread'
    rw [hf] at hf'
    cases hf'
    exact hfits
  have harrives := h _ ⟨2 ^ 32, fun fuel hfuel => succeeds_of_read hall hparts.read hfuel⟩
  obtain ⟨line, i, size, hline, hsize, hpos, hroom, hn, hdata, hcut⟩ := Wire.of_readChunks_cons hbody hne
  have hL : (said ⟨head, body, p + n⟩).length.toNat = p + n := toNat_pos (show p + n < 2 ^ 32 by omega)
  -- the text up to the end of the first chunk's bytes
  obtain ⟨t', ht'⟩ : ∃ t' : Text, t'.bytes = t.bytes.take (p + (i + size)) :=
    ⟨⟨_, t.behind, lt_of_le_of_lt (List.length_take_le' _ _) hlt⟩, rfl⟩
  have hpre : t'.bytes <+: t.bytes.take (p + n) := by
    rw [ht']
    exact List.take_prefix_take_left (by omega)
  have hproper : t'.bytes ≠ t.bytes.take (p + n) := by
    intro heq
    have hlen := congrArg List.length heq
    rw [ht', List.length_take, List.length_take] at hlen
    omega
  have hread' : readHead true lim.headBytes.toNat lim.headers.toNat t'.bytes = .ok (head, p) := by
    rw [ht', take_add_line]
    exact readHead_extend hread
  have hdrop : t'.bytes.drop p = (t.bytes.drop p).take (i + size) := by
    rw [ht', take_add_line, drop_line hp]
  have hfits' : BodyFits t' lim true := by
    intro head' p' f' h' hf'
    rw [hread'] at h'
    cases h'
    rw [hf] at hf'
    cases hf'
    rw [hdrop, take_add_line]
    obtain ⟨-, hile, -⟩ := Wire.of_splitLine hline
    intro hwraps
    cases hwraps with
    | here hline' hsize' _ hlimit hwide =>
      rw [splitLine_extend hline] at hline'
      cases hline'
      rw [hsize] at hsize'
      cases hsize'
      exact hfits (.here hline hsize hpos hlimit (hwide.imp_right fun hwide => ⟨hroom, hwide.2⟩))
    | later hline' hsize' _ hdata' =>
      rw [splitLine_extend hline] at hline'
      cases hline'
      rw [hsize] at hsize'
      cases hsize'
      rw [drop_line hile, hdata] at hdata'
      cases hdata'
  have hlist : Wire.read lim true t'.bytes = .error false := by
    rw [Wire.read, hread']
    change (Wire.framing true head >>= _) = _
    rw [hf]
    change (Wire.readChunks _ 0 _ >>= _) = _
    rw [hdrop, hcut]
    rfl
  obtain ⟨k, hk⟩ := harrives.cut t' (by rw [hL]; exact hpre) (by rw [hL]; exact hproper)
  obtain ⟨e, he, hinc⟩ := hk (max k (2 ^ 32)) (le_max_left _ _)
  obtain ⟨e', he', hflag⟩ := (hlist ▸ parse_agrees (le_max_right k (2 ^ 32)) hfits').error
  rw [parseRequest, he'] at he
  cases he
  exact absurd (hinc.symm.trans hflag) (by decide)

/-- **Reading a request does not depend on how it arrives** exactly when no size of it is too large to be read, and
no chunk is in its body. -/
theorem arrivalFree_exact (t : Text) (lim : Limits) : ArrivalFree t lim ↔ Unchunked t lim := by
  refine ⟨fun h head p f hread hf => ⟨?_, ?_⟩, arrivalFree_of_unchunked⟩
  · rintro n rfl hle
    exact length_lt_of_arrivalFree h hread hf hle
  · rintro rfl hfits body n hbody
    exact body_nil_of_arrivalFree h hread hf hfits hbody

/-- `A B HTTP/1.1` with a chunk of one byte. -/
def oneChunk : Text where
  bytes :=
    [65#8, 32#8, 66#8, 32#8, 72#8, 84#8, 84#8, 80#8, 47#8, 49#8, 46#8, 49#8, 10#8, 84#8, 114#8, 97#8, 110#8,
      115#8, 102#8, 101#8, 114#8, 45#8, 69#8, 110#8, 99#8, 111#8, 100#8, 105#8, 110#8, 103#8, 58#8, 99#8,
      104#8, 117#8, 110#8, 107#8, 101#8, 100#8, 10#8, 10#8, 49#8, 10#8, 120#8, 10#8, 48#8, 10#8, 10#8]
  behind := fun _ => 0#8
  short := by decide

/-- Cut behind the 43rd byte, the request is refused, and not as cut short. -/
theorem chunk_not_arrivalFree : ¬ ∀ t lim, ArrivalFree t lim := by
  intro h
  let fields : List Wire.Field := [⟨(oneChunk.bytes.drop 13).take 17, (oneChunk.bytes.drop 31).take 7⟩]
  have hread : readHead true 65536 100 oneChunk.bytes
      = .ok (⟨oneChunk.bytes.take 1, (oneChunk.bytes.drop 2).take 1, 0#32, [], (oneChunk.bytes.drop 4).take 8, fields⟩,
        40) := by
    have hfirst : splitLine (oneChunk.bytes.take 65536) = some (oneChunk.bytes.take 12, 13) := by decide
    have hline : splitLine ((oneChunk.bytes.take 65536).drop 13) = some ((oneChunk.bytes.drop 13).take 25, 26) := by
      decide
    have hlast : splitLine (((oneChunk.bytes.take 65536).drop 13).drop 26) = some ([], 1) := by decide
    have hfields : Wire.readFields (decide (oneChunk.bytes.length < 65536)) 100 ((oneChunk.bytes.take 65536).drop 13)
        = .ok (fields, 27) := by
      rw [Wire.readFields_line hline (by decide), Wire.readFields_nil hlast]
      rfl
    rw [readHead, hfirst]
    change (_ >>= fun _ => _ >>= fun _ => _) = _
    rw [hfields]
    rfl
  have hchunk : splitLine (oneChunk.bytes.drop 40) = some ([49#8], 2) := by decide
  have hzero : splitLine ((oneChunk.bytes.drop 40).drop 4) = some ([48#8], 2) := by decide
  have hblank : splitLine (((oneChunk.bytes.drop 40).drop 4).drop 2) = some ([], 1) := by decide
  have hrest : Wire.readChunks 8388608 (0 + 1) ((oneChunk.bytes.drop 40).drop 4) = .ok ([], 3) := by
    rw [Wire.readChunks_line hzero]
    change (Wire.readTrailers _ >>= _) = _
    rw [Wire.readTrailers_nil hblank]
    rfl
  have hbody : Wire.readChunks 8388608 0 (oneChunk.bytes.drop 40) = .ok ([120#8], 7) := by
    have hsize : readSize [49#8] = .ok 1 := rfl
    have hdata : Wire.readData 8388608 0 1 ((oneChunk.bytes.drop 40).drop 2) = .ok ([120#8], 2) := rfl
    rw [Wire.readChunks_line hchunk, hsize]
    change (Wire.readData 8388608 0 1 ((oneChunk.bytes.drop 40).drop 2) >>= fun r =>
      Wire.readChunks 8388608 (0 + 1) ((oneChunk.bytes.drop 40).drop (2 + r.2)) >>= fun r' =>
        pure (r.1 ++ r'.1, 2 + r.2 + r'.2)) = _
    rw [hdata]
    change (Wire.readChunks 8388608 (0 + 1) ((oneChunk.bytes.drop 40).drop 4) >>= _) = _
    rw [hrest]
    rfl
  have hfits : ¬ Wraps 8388608 40 0 (oneChunk.bytes.drop 40) := by
    intro hwraps
    cases hwraps with
    | here hline hsize _ _ hwide =>
      rw [hchunk] at hline
      cases hline
      cases hsize
      omega
    | later hline hsize _ hdata hlater =>
      rw [hchunk] at hline
      cases hline
      cases hsize
      cases hdata
      exact not_wraps_of_last hzero rfl hlater
  exact absurd (body_nil_of_arrivalFree (h oneChunk defaultLimits) hread rfl hfits hbody) (by decide)

end

end Aipl.StdServe
