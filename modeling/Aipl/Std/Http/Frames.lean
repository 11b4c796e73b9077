import Aipl.Std.Http.Bodies
import Aipl.Std.Http.Prefixes

/-! # Messages are framed as they declare, where their sizes are sums

* `Framed` — a message that was read is in the text, within the limits, and has the one body that its headers
  declare; `Safe` — reading returns, and gives such a message or an error.
* `Framable` — no size of the body is too large to be read, and a response without a body does not declare
  one in two ways.
* `parse_agrees` — reading is what the list is read as.
* `frames_exact` — reading is safe for the texts that are framable, and for no other.
-/

namespace Aipl.StdHttp

open Aipl.Lib Aipl.Lib.Outcome Aipl.Lib.Fallible Aipl.Std
open Wire (Byte Field Head Line splitLine must Read values decimal isNumber LARGE IsHead Delimits BodyOf
  readHead readHead_sound readBody_sound delimits_of_framing)

variable {b : Text} {fuel : Nat} {lim : Limits} {request : Bool}

/-! ### What is read -/

/-- The message that the list is read as. -/
structure MessageOk (b : Text) (request : Bool) (m : Message) (r : Read) : Prop where
  isRequest : m.isRequest = request
  method : Holds b m.method r.head.method
  target : Holds b m.target r.head.target
  status : m.status = r.head.status
  reason : Holds b m.reason r.head.reason
  version : Holds b m.version r.head.version
  headers : List.Forall₂ (HeaderOk b) m.headers r.head.fields
  body : BodyHolds b m.body r.body
  length : m.length = pos r.length
  le : r.length ≤ b.bytes.length

/-- No size of the body of the message at the front of a text is too large to be read. -/
def BodyFits (b : Text) (lim : Limits) (request : Bool) : Prop :=
  ∀ head p f, readHead request lim.headBytes.toNat lim.headers.toNat b.bytes = .ok (head, p) →
    Wire.framing request head = .ok f → Fits lim.bodyBytes.toNat p (b.bytes.drop p) f

theorem agrees_of_same {ε δ α β : Type} {E : ε → δ → Prop} {R : α → β → Prop} {r : Except ε α} {r' : Except δ β}
    (h : Same E R r r') : Agrees E R (ExceptT.mk (pure r)) r' := ⟨_, rfl, h⟩

/-- The fields of a head that is read are no more than the limit. -/
theorem fields_lt {head : Head} {p : Nat}
    (h : readHead request lim.headBytes.toNat lim.headers.toNat b.bytes = .ok (head, p)) :
    head.fields.length < 2 ^ 31 := by
  obtain ⟨-, hle, -⟩ := readHead_sound h
  have hlim := lim.headers_lt
  omega

/-- **Reading is what the list is read as**, where the sizes of the body are not too large. -/
theorem parse_agrees (hfuel : 2 ^ 32 ≤ fuel) (hfits : BodyFits b lim request) :
    Agrees Flag (MessageOk b request) (parse fuel b lim request) (Wire.read lim request b.bytes) := by
  rw [parse, Wire.read]
  refine agrees_bind (head_agrees hfuel) fun m r hread hm => ?_
  obtain ⟨head, p⟩ := r
  obtain ⟨r, hsame, hbody⟩ := readBody_framed fuel lim hm (fields_lt hread)
  have hlength : m.length = pos p := hm.length
  dsimp only
  rw [hlength, hbody, bind_assoc]
  refine agrees_bind (agrees_of_same hsame) fun f f' hf hff' => ?_
  subst hff'
  have hfits' := hfits head p f hread hf
  rw [← Text.part_all] at hfits'
  rw [← Text.part_all]
  refine agrees_bind (readFramed_agrees hm hfuel hfits') fun m' r _ hr => agrees_pure ?_
  obtain ⟨⟨body, hm', hholds⟩, hle⟩ := hr
  rw [hm']
  exact
    { isRequest := hm.isRequest
      method := hm.method
      target := hm.target
      status := hm.status
      reason := hm.reason
      version := hm.version
      headers := hm.headers
      body := hholds
      length := rfl
      le := hle }

/-! ### What it means -/

namespace Body

/-- What a body holds. -/
def content (b : Text) : Body → List Byte
  | .view v => b.content v
  | .chunks o => o.bytes

/-- The views that it makes. -/
def views : Body → List View
  | .view v => [v]
  | .chunks _ => []

end Body

namespace Message

variable (m : Message)

/-- The views of a message. -/
def views : List View :=
  [m.method, m.target, m.reason, m.version] ++ m.headers.flatMap (fun h => [h.name, h.value]) ++ m.body.views

/-- What the head of a message holds. -/
def head (b : Text) : Head where
  method := b.content m.method
  target := b.content m.target
  status := m.status
  reason := b.content m.reason
  version := b.content m.version
  fields := m.headers.map fun h => ⟨b.content h.name, b.content h.value⟩

end Message

/-- No two headers of a message declare its body in different ways. -/
structure OneFraming (fields : List Field) : Prop where
  oneKind : values TRANSFER_ENCODING fields = [] ∨ values CONTENT_LENGTH fields = []
  oneLength : ∀ v ∈ values CONTENT_LENGTH fields, ∀ w ∈ values CONTENT_LENGTH fields, decimal v = decimal w

/-- **A message that is framed as its bytes say**: in the text, within the limits, and with the body that the
headers declare. -/
structure Framed (b : Text) (lim : Limits) (request : Bool) (m : Message) : Prop where
  isRequest : m.isRequest = request
  inside : ∀ v ∈ m.views, v.1.toNat + v.2.toNat ≤ b.bytes.length
  headers : m.headers.length ≤ lim.headers.toNat
  bodyBytes : (m.body.content b).length ≤ lim.bodyBytes.toNat
  framing : ∃ p f n, IsHead (m.head b).fields (b.bytes.take p) ∧ Delimits request (m.head b) f
    ∧ BodyOf (b.bytes.drop p) f (m.body.content b) n ∧ m.length.toNat = p + n
  one : OneFraming (m.head b).fields

/-- **Reading is safe**: with enough fuel it returns, and a message that it gives is framed as its bytes say. -/
def Safe (b : Text) (lim : Limits) (request : Bool) : Prop :=
  ∃ k, ∀ fuel, k ≤ fuel → ∃ r, (parse fuel b lim request).run = done r ∧ ∀ m, r = .ok m → Framed b lim request m

/-- A head whose message has no body does not declare one in two ways. -/
def BodilessOk (b : Text) (lim : Limits) (request : Bool) : Prop :=
  ∀ head p f, readHead request lim.headBytes.toNat lim.headers.toNat b.bytes = .ok (head, p) →
    Wire.framing request head = .ok f → bodiless request head.status = true → OneFraming head.fields

/-- **A text that is framable.** -/
def Framable (b : Text) (lim : Limits) (request : Bool) : Prop :=
  BodyFits b lim request ∧ BodilessOk b lim request

theorem BodyHolds.content {body : Body} {l : List Byte} (h : BodyHolds b body l) : body.content b = l := by
  cases body with
  | view v => exact Holds.content h
  | chunks o => exact h

theorem BodyHolds.inside {body : Body} {l : List Byte} (h : BodyHolds b body l) {v : View} (hv : v ∈ body.views) :
    v.1.toNat + v.2.toNat ≤ b.bytes.length := by
  cases body with
  | view w =>
    rw [Body.views, List.mem_singleton] at hv
    exact hv ▸ h.1
  | chunks o => cases hv

theorem headers_content {hs : List Header} {fs : List Field} (h : List.Forall₂ (HeaderOk b) hs fs) :
    hs.map (fun h => (⟨b.content h.name, b.content h.value⟩ : Field)) = fs := by
  induction h with
  | nil => rfl
  | cons hok _ ih => rw [List.map_cons, ih, hok.name.content, hok.value.content]

theorem headers_inside {hs : List Header} {fs : List Field} (h : List.Forall₂ (HeaderOk b) hs fs) :
    ∀ v ∈ hs.flatMap (fun h => [h.name, h.value]), v.1.toNat + v.2.toNat ≤ b.bytes.length := by
  induction h with
  | nil =>
    intro v hv
    cases hv
  | cons hok _ ih =>
    intro v hv
    rw [List.flatMap_cons, List.mem_append] at hv
    rcases hv with hv | hv
    · rcases List.mem_cons.mp hv with rfl | hv
      · exact hok.name.1
      · rw [List.mem_singleton.mp hv]
        exact hok.value.1
    · exact ih v hv

namespace MessageOk

variable {m : Message} {r : Read}

theorem head_eq (h : MessageOk b request m r) : m.head b = r.head := by
  rw [Message.head, h.method.content, h.target.content, h.status, h.reason.content, h.version.content,
    headers_content h.headers]

theorem inside (h : MessageOk b request m r) : ∀ v ∈ m.views, v.1.toNat + v.2.toNat ≤ b.bytes.length := by
  intro v hv
  rw [Message.views, List.mem_append, List.mem_append] at hv
  rcases hv with (hv | hv) | hv
  · simp only [List.mem_cons, List.not_mem_nil, or_false] at hv
    rcases hv with rfl | rfl | rfl | rfl
    · exact h.method.1
    · exact h.target.1
    · exact h.reason.1
    · exact h.version.1
  · exact headers_inside h.headers v hv
  · exact h.body.inside hv

end MessageOk

/-- A body does not change the head. -/
theorem HeadOk.head_eq {m : Message} {head : Head} {p : Nat} (h : HeadOk b request m (head, p)) (body : Body)
    (length : BitVec 32) : ({ m with body, length } : Message).head b = head := by
  rw [Message.head, h.method.content, h.target.content, h.status, h.reason.content, h.version.content,
    headers_content h.headers]

/-- The headers of a message with a body declare it in one way. -/
theorem oneFraming_of_delimits {head : Head} {f : Wire.Framing} (h : Delimits request head f)
    (hbodiless : bodiless request head.status = false) : OneFraming head.fields := by
  cases h with
  | bodiless h => exact absurd (hbodiless.symm.trans h) Bool.false_ne_true
  | chunked _ _ _ hcl =>
    refine ⟨.inr hcl, fun v hv => ?_⟩
    rw [hcl] at hv
    cases hv
  | length _ hte _ hn => exact ⟨.inl hte, fun v hv w hw => (hn v hv).2.trans (hn w hw).2.symm⟩
  | request _ hte hcl | rest _ _ hte hcl =>
    refine ⟨.inl hte, fun v hv => ?_⟩
    rw [hcl] at hv
    cases hv

/-- A declared length that is read is within the limit. -/
theorem lt_large_of_readBody {n p : Nat} {f : Wire.Framing} {bs body : List Byte}
    (h : Wire.readBody lim.bodyBytes.toNat bs f = .ok (body, p)) (hf : f = .length n) : n < LARGE := by
  subst hf
  rw [Wire.readBody] at h
  obtain ⟨hle, -⟩ := Wire.of_must h
  have hlim := lim.bodyBytes_lt
  have hle := of_decide_eq_true hle
  have hlarge : LARGE = 4294967296 := rfl
  omega

/-- **A message that is read is framed** as its bytes say. -/
theorem framed_of_read {m : Message} {r : Read} (hm : MessageOk b request m r)
    (h : Wire.read lim request b.bytes = .ok r) (hbodiless : BodilessOk b lim request) :
    Framed b lim request m := by
  have hlt := b.short
  obtain ⟨p, n, f, hhead, hf, hbody, hlength⟩ := Wire.of_read h
  obtain ⟨hp, hcount, hisHead⟩ := readHead_sound hhead
  obtain ⟨hbodyOf, hlimit⟩ := readBody_sound hbody
  have hdelimits := delimits_of_framing hf fun k hk => lt_large_of_readBody hbody hk
  have hle := hm.le
  refine
    { isRequest := hm.isRequest
      inside := hm.inside
      headers := ?_
      bodyBytes := by rw [hm.body.content]; exact hlimit
      framing := ⟨p, f, n, ?_, ?_, ?_, ?_⟩
      one := ?_ }
  · rw [hm.headers.length_eq]
    exact hcount
  · rw [hm.head_eq]
    exact hisHead
  · rw [hm.head_eq]
    exact hdelimits
  · rw [hm.body.content]
    exact hbodyOf
  · rw [hm.length, toNat_pos (by omega), hlength]
  · rw [hm.head_eq]
    cases hnone : bodiless request r.head.status with
    | true => exact hbodiless _ _ _ hhead hf hnone
    | false => exact oneFraming_of_delimits hdelimits hnone

/-! ### What is not framable -/

/-- Behind a head that is read, the body is read as its framing says. -/
theorem run_of_head (hfuel : 2 ^ 32 ≤ fuel) {head : Head} {p : Nat} {f : Wire.Framing}
    (hread : readHead request lim.headBytes.toNat lim.headers.toNat b.bytes = .ok (head, p))
    (hf : Wire.framing request head = .ok f) :
    ∃ m, HeadOk b request m (head, p) ∧ (parse fuel b lim request).run
      = (readFramed fuel b m (pos p) lim.bodyBytes f >>= fun r => pure r.1).run := by
  have hagrees : Agrees Flag (HeadOk b request) (parseHead fuel b lim request) (.ok (head, p)) :=
    hread ▸ head_agrees hfuel
  obtain ⟨m, hhead, hm⟩ := hagrees.ok
  refine ⟨m, hm, ?_⟩
  obtain ⟨r, hsame, hbody⟩ := readBody_framed fuel lim hm (fields_lt hread)
  have hlength : m.length = pos p := hm.length
  have hparse : (parse fuel b lim request).run = (readBody fuel b m m.length lim >>= fun r => pure r.1).run := by
    rw [parse, ExceptT.run_bind, hhead]
    rfl
  rw [hf] at hsame
  cases hsame with
  | ok hff =>
    subst hff
    rw [hparse, hlength, hbody]
    rfl

/-- Chunks that are too large are not read. -/
theorem run_ne_of_wraps (hfuel : 2 ^ 32 ≤ fuel) {head : Head} {p : Nat} {r : Except Error Message}
    (hread : readHead request lim.headBytes.toNat lim.headers.toNat b.bytes = .ok (head, p))
    (hf : Wire.framing request head = .ok .chunked) (hwraps : Wraps lim.bodyBytes.toNat p 0 (b.bytes.drop p)) :
    (parse fuel b lim request).run ≠ done r := by
  obtain ⟨m, hm, hrun⟩ := run_of_head hfuel hread hf
  intro hdone
  rw [← Text.part_all] at hwraps
  rw [hdone, readFramed, ExceptT.run_bind] at hrun
  cases hchunks : (readChunks fuel b m (pos p) lim.bodyBytes).run with
  | done r' => exact readChunks_wraps lim.bodyBytes_lt hm.le hfuel hwraps hchunks
  | stop =>
    rw [hchunks] at hrun
    cases hrun
  | outOfFuel =>
    rw [hchunks] at hrun
    cases hrun

/-- A declared length that is too large is accepted, with a body that is not in the text. -/
theorem run_of_large (hfuel : 2 ^ 32 ≤ fuel) {head : Head} {p n : Nat}
    (hread : readHead request lim.headBytes.toNat lim.headers.toNat b.bytes = .ok (head, p))
    (hf : Wire.framing request head = .ok (.length n)) (hle : n ≤ lim.bodyBytes.toNat) (hwraps : 2 ^ 31 ≤ p + n) :
    ∃ m, HeadOk b request m (head, p)
      ∧ (parse fuel b lim request).run
        = done (.ok { m with body := .view (pos p, pos n), length := pos (p + n) }) := by
  obtain ⟨m, hm, hrun⟩ := run_of_head hfuel hread hf
  refine ⟨m, hm, ?_⟩
  rw [hrun, readFramed, readLength_wraps lim.bodyBytes_lt hm.le hle hwraps]
  rfl

/-- A text with a size that is too large is not read safely. -/
theorem bodyFits_of_safe (h : Safe b lim request) : BodyFits b lim request := by
  intro head p f hread hf
  obtain ⟨k, hsafe⟩ := h
  obtain ⟨fuel, hfuel, hk⟩ : ∃ fuel, 2 ^ 32 ≤ fuel ∧ k ≤ fuel := ⟨max k (2 ^ 32), le_max_right _ _, le_max_left _ _⟩
  obtain ⟨r, hrun, hframed⟩ := hsafe fuel hk
  cases f with
  | none | rest => trivial
  | length n =>
    intro hle
    by_contra hwraps
    obtain ⟨m, hm, hlarge⟩ := run_of_large hfuel hread hf hle (by omega)
    rw [hrun] at hlarge
    cases hlarge
    have hin := (hframed _ rfl).inside (pos p, pos n) (by simp [Message.views, Body.views])
    have hlt := b.short
    have hp : p ≤ b.bytes.length := hm.le
    have hlimit := lim.bodyBytes_lt
    dsimp only at hin
    rw [toNat_pos (by omega), toNat_pos (by omega)] at hin
    omega
  | chunked => exact fun hwraps => run_ne_of_wraps hfuel hread hf hwraps hrun

/-- … and neither is a response without a body that declares one in two ways. -/
theorem bodilessOk_of_safe (h : Safe b lim request) : BodilessOk b lim request := by
  intro head p f hread hf hbodiless
  obtain ⟨k, hsafe⟩ := h
  obtain ⟨r, hrun, hframed⟩ := hsafe (max k (2 ^ 32)) (le_max_left _ _)
  have hnone : f = .none := by
    rw [Wire.framing] at hf
    obtain ⟨-, hf⟩ := Wire.of_must hf
    rw [Wire.delimiter, if_pos hbodiless] at hf
    cases hf
    rfl
  have hlist : Wire.read lim request b.bytes = .ok ⟨head, [], p + 0⟩ := by
    rw [Wire.read, hread]
    change (Wire.framing request head >>= _) = _
    rw [hf, hnone]
    rfl
  obtain ⟨m, hm, hok⟩ := (hlist ▸ parse_agrees (le_max_right _ _) (bodyFits_of_safe ⟨k, hsafe⟩)).ok
  rw [hm] at hrun
  cases hrun
  have hone := (hframed m rfl).one
  rw [hok.head_eq] at hone
  exact hone

/-- **Messages are framed safely and unambiguously** exactly where no size of the body is too large to be read,
and where a response without a body does not declare one in two ways. -/
theorem frames_exact (b : Text) (lim : Limits) (request : Bool) : Safe b lim request ↔ Framable b lim request := by
  refine ⟨fun h => ⟨bodyFits_of_safe h, bodilessOk_of_safe h⟩, fun ⟨hfits, hbodiless⟩ => ⟨2 ^ 32, fun fuel hfuel => ?_⟩⟩
  obtain ⟨r, hrun, hsame⟩ := parse_agrees hfuel hfits
  refine ⟨r, hrun, ?_⟩
  rintro m rfl
  generalize hread : Wire.read lim request b.bytes = r' at hsame
  cases hsame with
  | ok hm => exact framed_of_read hm hread hbodiless

/-- `A B HTTP/1.1` with `Content-Length:2147483647`. -/
def largeLength : Text where
  bytes :=
    [65#8, 32#8, 66#8, 32#8, 72#8, 84#8, 84#8, 80#8, 47#8, 49#8, 46#8, 49#8, 10#8, 67#8, 111#8, 110#8,
      116#8, 101#8, 110#8, 116#8, 45#8, 76#8, 101#8, 110#8, 103#8, 116#8, 104#8, 58#8, 50#8, 49#8, 52#8,
      55#8, 52#8, 56#8, 51#8, 54#8, 52#8, 55#8, 10#8, 10#8]
  behind := fun _ => 0#8
  short := by decide

/-- As many bytes of body as there can be. -/
def wide : Limits := { defaultLimits with bodyBytes := 2147483647#32, body_nonneg := rfl }

/-- A length of 2147483647 behind 40 bytes of head is accepted, with a body that is not there. -/
theorem large_length_not_safe : ¬ ∀ b lim request, Safe b lim request := by
  intro h
  have hfits := bodyFits_of_safe (h largeLength wide true)
  obtain ⟨head, hread, hf⟩ : ∃ head, readHead true 65536 100 largeLength.bytes = .ok (head, 40)
      ∧ Wire.framing true head = .ok (.length 2147483647) := by
    have hfirst : splitLine (largeLength.bytes.take 65536) = some (largeLength.bytes.take 12, 13) := by decide
    have hline : splitLine ((largeLength.bytes.take 65536).drop 13)
        = some ((largeLength.bytes.drop 13).take 25, 26) := by decide
    have hlast : splitLine (((largeLength.bytes.take 65536).drop 13).drop 26) = some ([], 1) := by decide
    have hfields : Wire.readFields (decide (largeLength.bytes.length < 65536)) 100
        ((largeLength.bytes.take 65536).drop 13)
        = .ok ([⟨(largeLength.bytes.drop 13).take 14, (largeLength.bytes.drop 28).take 10⟩], 27) := by
      rw [Wire.readFields_line hline (by decide), Wire.readFields_nil hlast]
      rfl
    refine ⟨?_, ?_, ?_⟩
    · exact ⟨largeLength.bytes.take 1, (largeLength.bytes.drop 2).take 1, 0#32, [],
        (largeLength.bytes.drop 4).take 8, [⟨(largeLength.bytes.drop 13).take 14, (largeLength.bytes.drop 28).take 10⟩]⟩
    · rw [readHead, hfirst]
      change (_ >>= fun _ => _ >>= fun _ => _) = _
      rw [hfields]
      rfl
    · rfl
  exact absurd (hfits head 40 _ hread hf le_rfl) (by decide)

end Aipl.StdHttp
