import Aipl.Std.Http.Wire

/-! # What a message is

The forms of RFC 9112, as relations between what a message says and its bytes: header lines, the framings that
its headers may declare, and bodies.  What the lists are read as has these forms.

* `FieldLines`, `Chunked`, `Trailers`, `Delimits`, `BodyOf` — the forms.
* `readHead_sound`, `readBody_sound`, `delimits_of_framing` — what is read has them.
-/

namespace Aipl.StdHttp.Wire

open Aipl.Lib Aipl.StdHttp

/-- Header lines: a name that is a token, a ':', and a value, with spaces around the value. -/
inductive FieldLines : List Field → List Byte → Prop where
  | nil : FieldLines [] []
  | cons {f : Field} {fs : List Field} {s rest before after : List Byte}
      (hline : Line (f.name ++ 58#8 :: (before ++ f.value ++ after)) s) (hne : f.name ≠ [])
      (hname : ∀ c ∈ f.name, tchar (c.setWidth 32) = true)
      (hbefore : ∀ c ∈ before, isOws (c.setWidth 32) = true) (hafter : ∀ c ∈ after, isOws (c.setWidth 32) = true)
      (hvalue : ∀ c ∈ f.value, isBreak (c.setWidth 32) = false) (h : FieldLines fs rest) :
      FieldLines (f :: fs) (s ++ rest)

/-- A head: a start line, header lines, and an empty line. -/
def IsHead (fields : List Field) (bs : List Byte) : Prop :=
  ∃ line s lines blank, Line line s ∧ FieldLines fields lines ∧ Line [] blank ∧ bs = s ++ lines ++ blank

/-- The line that a chunk of a size begins with: hex digits, and an extension behind ';' or a space. -/
def SizeLine (size : Nat) (line : List Byte) : Prop :=
  ∃ digits ext, line = digits ++ ext ∧ digits ≠ []
    ∧ (∀ c ∈ digits, (0#32).sle (hexValue (c.setWidth 32)) = true)
    ∧ (∀ c ∈ ext.head?, c = 59#8 ∨ isOws (c.setWidth 32) = true)
    ∧ digits.foldl (fun n d => 16 * n + (hexValue (d.setWidth 32)).toNat) 0 = size

/-- Trailer lines, to an empty one. -/
inductive Trailers : List Byte → Prop where
  | last {s : List Byte} (h : Line [] s) : Trailers s
  | cons {line s rest : List Byte} (hline : Line line s) (hne : line ≠ []) (h : Trailers rest) :
      Trailers (s ++ rest)

/-- Chunks of a body, a chunk of size 0, and trailers. -/
inductive Chunked : List Byte → List Byte → Prop where
  | last {line s rest : List Byte} (hline : Line line s) (hsize : SizeLine 0 line) (h : Trailers rest) :
      Chunked [] (s ++ rest)
  | chunk {line s data blank body rest : List Byte} (hline : Line line s) (hsize : SizeLine data.length line)
      (hne : data ≠ []) (hblank : Line [] blank) (h : Chunked body rest) :
      Chunked (data ++ body) (s ++ (data ++ (blank ++ rest)))

/-- How the headers of a message delimit its body. -/
inductive Delimits (request : Bool) (head : Head) : Framing → Prop where
  | bodiless (h : bodiless request head.status = true) : Delimits request head .none
  | chunked {v : List Byte} (h : bodiless request head.status = false)
      (hte : values TRANSFER_ENCODING head.fields = [v]) (hv : eqIgnoreCase v CHUNKED = true)
      (hcl : values CONTENT_LENGTH head.fields = []) : Delimits request head .chunked
  | length {n : Nat} (h : bodiless request head.status = false)
      (hte : values TRANSFER_ENCODING head.fields = []) (hcl : values CONTENT_LENGTH head.fields ≠ [])
      (hn : ∀ v ∈ values CONTENT_LENGTH head.fields, isNumber v = true ∧ decimal v = n) :
      Delimits request head (.length n)
  | request (h : request = true) (hte : values TRANSFER_ENCODING head.fields = [])
      (hcl : values CONTENT_LENGTH head.fields = []) : Delimits request head .none
  | rest (hreq : request = false) (h : StdHttp.bodiless request head.status = false)
      (hte : values TRANSFER_ENCODING head.fields = []) (hcl : values CONTENT_LENGTH head.fields = []) :
      Delimits request head .rest

/-- The body at the front of `bs`, and the bytes it takes. -/
inductive BodyOf (bs : List Byte) : Framing → List Byte → Nat → Prop where
  | none : BodyOf bs .none [] 0
  | chunked {body : List Byte} {n : Nat} (hle : n ≤ bs.length) (h : Chunked body (bs.take n)) :
      BodyOf bs .chunked body n
  | length {n : Nat} (hle : n ≤ bs.length) : BodyOf bs (.length n) (bs.take n) n
  | rest : BodyOf bs .rest bs bs.length

/-! ### What is read has these forms -/

section

variable {bs : List Byte}

theorem trimOws_parts (v : List Byte) : ∃ before after, v = before ++ trimOws v ++ after
    ∧ (∀ c ∈ before, isOws (c.setWidth 32) = true) ∧ (∀ c ∈ after, isOws (c.setWidth 32) = true) := by
  refine ⟨v.takeWhile fun c => isOws (c.setWidth 32),
    (v.dropWhile fun c => isOws (c.setWidth 32)).rtakeWhile fun c => isOws (c.setWidth 32), ?_, ?_, ?_⟩
  · rw [trimOws, List.append_assoc, List.rdropWhile_append_rtakeWhile, List.takeWhile_append_dropWhile]
  · exact fun c hc => List.mem_takeWhile_imp (p := fun c : Byte => isOws (c.setWidth 32)) hc
  · exact fun c hc => List.mem_rtakeWhile_imp (p := fun c : Byte => isOws (c.setWidth 32)) hc

/-- What a header line says. -/
theorem readField_sound {line : List Byte} {f : Field} (h : readField line = .ok f) :
    ∃ before after, line = f.name ++ 58#8 :: (before ++ f.value ++ after) ∧ f.name ≠ []
      ∧ (∀ c ∈ f.name, tchar (c.setWidth 32) = true) ∧ (∀ c ∈ before, isOws (c.setWidth 32) = true)
      ∧ (∀ c ∈ after, isOws (c.setWidth 32) = true) ∧ ∀ c ∈ f.value, isBreak (c.setWidth 32) = false := by
  rw [readField] at h
  obtain ⟨-, h⟩ := of_must h
  dsimp only at h
  obtain ⟨name, hname⟩ : ∃ name, line.takeWhile (· ≠ 58#8) = name := ⟨_, rfl⟩
  rw [hname] at h
  obtain ⟨hlt, h⟩ := of_must h
  obtain ⟨hne, h⟩ := of_must h
  obtain ⟨htoken, h⟩ := of_must h
  obtain ⟨hvalue, h⟩ := of_must h
  cases h
  obtain ⟨before, after, htrim, hbefore, hafter⟩ := trimOws_parts (line.drop (name.length + 1))
  have hlt := of_decide_eq_true hlt
  have hsplit : line = name ++ 58#8 :: line.drop (name.length + 1) := by
    have happend := List.takeWhile_append_dropWhile (p := (· ≠ 58#8)) (l := line)
    rw [hname] at happend
    cases hrest : line.dropWhile (· ≠ 58#8) with
    | nil =>
      rw [hrest, List.append_nil] at happend
      rw [happend] at hlt
      exact absurd hlt (lt_irrefl _)
    | cons c rest =>
      have hc : c = 58#8 := by
        have hhead := List.head?_dropWhile_not (· ≠ 58#8) line
        rw [hrest] at hhead
        simpa using hhead
      rw [hrest, hc] at happend
      rw [← happend]
      simp
  refine ⟨before, after, ?_, of_decide_eq_true hne, List.all_eq_true.mp htoken, hbefore, hafter, ?_⟩
  · rw [← htrim]
    exact hsplit
  · intro c hc
    simpa using List.all_eq_true.mp hvalue c hc

theorem readFields_sound {early : Bool} {left t : Nat} {fs : List Field}
    (h : readFields early left bs = .ok (fs, t)) :
    t ≤ bs.length ∧ ∃ lines blank, FieldLines fs lines ∧ Line [] blank ∧ bs.take t = lines ++ blank := by
  induction left, bs using readFields.induct generalizing fs t with
  | case1 left bs hline =>
    rw [readFields_none hline] at h
    cases h
  | case2 left bs n hline =>
    rw [readFields_nil hline] at h
    cases h
    obtain ⟨hblank, hle, -⟩ := of_splitLine hline
    exact ⟨hle, [], _, .nil, hblank, rfl⟩
  | case3 left bs line n hline hne ih =>
    rw [readFields_line hline hne] at h
    obtain ⟨f, hf, h⟩ := of_bind_ok h
    obtain ⟨-, h⟩ := of_must h
    obtain ⟨⟨fs', t'⟩, hfs, h⟩ := of_bind_ok h
    cases h
    obtain ⟨hle', lines, blank, hlines, hblank, htake⟩ := ih hfs
    obtain ⟨hl, hle, -⟩ := of_splitLine hline
    obtain ⟨before, after, rfl, hname, htoken, hbefore, hafter, hvalue⟩ := readField_sound hf
    rw [List.length_drop] at hle'
    refine ⟨by omega, _, blank, .cons hl hname htoken hbefore hafter hvalue hlines, hblank, ?_⟩
    rw [List.take_add, htake, List.append_assoc]

/-- **A head that is read has the form of one.** -/
theorem readHead_sound {request : Bool} {limit left p : Nat} {head : Head}
    (h : readHead request limit left bs = .ok (head, p)) :
    p ≤ bs.length ∧ head.fields.length ≤ left ∧ IsHead head.fields (bs.take p) := by
  rw [readHead] at h
  cases hline : splitLine (bs.take limit) with
  | none =>
    rw [hline] at h
    cases h
  | some lt =>
    obtain ⟨line, t⟩ := lt
    rw [hline] at h
    obtain ⟨start, -, h⟩ := of_bind_ok h
    obtain ⟨⟨fs, n⟩, hfs, h⟩ := of_bind_ok h
    cases h
    obtain ⟨hl, hle, -⟩ := of_splitLine hline
    obtain ⟨hle', lines, blank, hlines, hblank, htake⟩ := readFields_sound hfs
    rw [List.length_drop] at hle'
    have hlen : (bs.take limit).length ≤ limit ∧ (bs.take limit).length ≤ bs.length := by
      rw [List.length_take]
      omega
    refine ⟨by omega, readFields_length hfs, line, _, lines, blank, hl, hlines, hblank, ?_⟩
    have hshort : bs.take (t + n) = (bs.take limit).take (t + n) := by
      rw [List.take_take, Nat.min_eq_left (by omega)]
    rw [hshort, List.take_add, htake, List.append_assoc]

theorem readSize_sound {line : List Byte} {size : Nat} (h : readSize line = .ok size) : SizeLine size line := by
  rw [readSize] at h
  obtain ⟨hne, h⟩ := of_must h
  obtain ⟨hext, h⟩ := of_must h
  cases h
  refine ⟨_, line.drop (line.takeWhile fun c => (0#32).sle (hexValue (c.setWidth 32))).length, ?_,
    of_decide_eq_true hne, fun c hc => List.mem_takeWhile_imp (p := fun c : Byte => (0#32).sle (hexValue (c.setWidth 32))) hc,
    ?_, rfl⟩
  · conv_lhs => rw [← List.take_append_drop (line.takeWhile fun c => (0#32).sle (hexValue (c.setWidth 32))).length line]
    congr 1
    exact (List.prefix_iff_eq_take.mp (List.takeWhile_prefix _)).symm
  · intro c hc
    rw [Option.mem_def] at hc
    rw [hc, Option.all_some, Bool.or_eq_true, decide_eq_true_eq] at hext
    refine hext.imp_left fun h59 => ?_
    have := congrArg (BitVec.setWidth 8) h59
    simpa using this

theorem readTrailers_sound {t : Nat} (h : readTrailers bs = .ok t) : t ≤ bs.length ∧ Trailers (bs.take t) := by
  induction bs using readTrailers.induct generalizing t with
  | case1 bs hline =>
    rw [readTrailers_none hline] at h
    cases h
  | case2 bs n hline =>
    rw [readTrailers_nil hline] at h
    cases h
    obtain ⟨hblank, hle, -⟩ := of_splitLine hline
    exact ⟨hle, .last hblank⟩
  | case3 bs line n hline hne ih =>
    rw [readTrailers_line hline hne] at h
    obtain ⟨t', ht, h⟩ := of_bind_ok h
    cases h
    obtain ⟨hle', hrest⟩ := ih ht
    obtain ⟨hl, hle, -⟩ := of_splitLine hline
    rw [List.length_drop] at hle'
    refine ⟨by omega, ?_⟩
    rw [List.take_add]
    exact .cons hl hne hrest

theorem readData_sound {limit total size e : Nat} {data : List Byte}
    (h : readData limit total size bs = .ok (data, e)) :
    total + size ≤ limit ∧ data.length = size ∧ size < e ∧ e ≤ bs.length
      ∧ ∃ blank, Line [] blank ∧ bs.take e = data ++ blank := by
  rw [readData] at h
  obtain ⟨hlimit, h⟩ := of_must h
  by_cases hshort : bs.length < size
  · rw [if_pos hshort] at h
    cases h
  rw [if_neg hshort] at h
  cases hline : splitLine (bs.drop size) with
  | none =>
    rw [hline] at h
    cases h
  | some lt =>
    obtain ⟨line, t⟩ := lt
    rw [hline] at h
    cases line with
    | cons c cs => cases h
    | nil =>
      cases h
      obtain ⟨hblank, hle, hpos⟩ := of_splitLine hline
      rw [List.length_drop] at hle
      refine ⟨of_decide_eq_true hlimit, ?_, by omega, by omega, _, hblank, ?_⟩
      · rw [List.length_take]
        omega
      · rw [List.take_add]

theorem readChunks_sound {limit total t : Nat} {body : List Byte}
    (h : readChunks limit total bs = .ok (body, t)) (htotal : total ≤ limit) :
    t ≤ bs.length ∧ total + body.length ≤ limit ∧ Chunked body (bs.take t) := by
  induction hn : bs.length using Nat.strong_induction_on generalizing bs total t body with
  | _ n ih =>
    cases hline : splitLine bs with
    | none =>
      rw [readChunks_none hline] at h
      cases h
    | some lt =>
      obtain ⟨line, s⟩ := lt
      obtain ⟨hl, hle, hpos⟩ := of_splitLine hline
      rw [readChunks_line hline] at h
      obtain ⟨size, hsize, h⟩ := of_bind_ok h
      have hsize' := readSize_sound hsize
      by_cases hlast : size = 0
      · rw [if_pos hlast] at h
        obtain ⟨t', ht, h⟩ := of_bind_ok h
        cases h
        obtain ⟨hle', htrailers⟩ := readTrailers_sound ht
        rw [List.length_drop] at hle'
        subst hlast
        refine ⟨by omega, by simpa using htotal, ?_⟩
        rw [List.take_add]
        exact .last hl hsize' htrailers
      · rw [if_neg hlast] at h
        obtain ⟨⟨data, e⟩, hdata, h⟩ := of_bind_ok h
        obtain ⟨⟨body', t'⟩, hchunks, h⟩ := of_bind_ok h
        cases h
        obtain ⟨hlimit, hlen, hlt, hle', blank, hblank, htake⟩ := readData_sound hdata
        rw [List.length_drop] at hle'
        obtain ⟨hle'', hsum, hchunked⟩ := ih (bs.drop (s + e)).length
          (by rw [List.length_drop]; omega) hchunks hlimit rfl
        rw [List.length_drop] at hle''
        refine ⟨by omega, by rw [List.length_append]; omega, ?_⟩
        have hparts : bs.take (s + e + t') = bs.take s ++ (data ++ (blank ++ (bs.drop (s + e)).take t')) := by
          rw [Nat.add_assoc, List.take_add, List.take_add, htake, List.append_assoc, List.drop_drop]
        rw [hparts]
        refine .chunk hl (hlen ▸ hsize') ?_ hblank hchunked
        rintro rfl
        exact hlast hlen.symm

/-- **A body that is read has the form of one**, and is within the limit. -/
theorem readBody_sound {limit n : Nat} {f : Framing} {body : List Byte} (h : readBody limit bs f = .ok (body, n)) :
    BodyOf bs f body n ∧ body.length ≤ limit := by
  cases f with
  | none =>
    cases h
    exact ⟨.none, Nat.zero_le _⟩
  | chunked =>
    obtain ⟨hle, hsum, hchunked⟩ := readChunks_sound h (Nat.zero_le _)
    exact ⟨.chunked hle hchunked, by omega⟩
  | length k =>
    rw [readBody] at h
    obtain ⟨hlimit, h⟩ := of_must h
    have hlimit := of_decide_eq_true hlimit
    by_cases hshort : bs.length < k
    · rw [if_pos hshort] at h
      cases h
    · rw [if_neg hshort] at h
      cases h
      exact ⟨.length (by omega), by rw [List.length_take]; omega⟩
  | rest =>
    rw [readBody] at h
    obtain ⟨hlimit, h⟩ := of_must h
    cases h
    exact ⟨.rest, of_decide_eq_true hlimit⟩

end

/-- **The framing that is read is the one that the headers declare**, where no length is held. -/
theorem delimits_of_framing {request : Bool} {head : Head} {f : Framing} (h : framing request head = .ok f)
    (hlarge : ∀ n, f = .length n → n < LARGE) : Delimits request head f := by
  rw [framing] at h
  obtain ⟨hok, h⟩ := of_must h
  obtain ⟨hcodings, hlengths⟩ := Bool.and_eq_true_iff.mp hok
  rw [delimiter] at h
  cases hbodiless : bodiless request head.status with
  | true =>
    rw [hbodiless, if_pos rfl] at h
    cases h
    exact .bodiless hbodiless
  | false =>
    rw [hbodiless, if_neg Bool.false_ne_true] at h
    cases hte : values TRANSFER_ENCODING head.fields with
    | nil =>
      cases hcl : values CONTENT_LENGTH head.fields with
      | nil =>
        rw [hte, hcl] at h
        cases hreq : request with
        | true =>
          rw [hreq] at h
          cases h
          exact .request rfl hte hcl
        | false =>
          rw [hreq] at h hbodiless
          cases h
          exact .rest rfl hbodiless hte hcl
      | cons v vs =>
        rw [hte, hcl] at h
        cases h
        have hn := hlarge _ rfl
        rw [lengthsOk, decide_eq_true_eq, hcl] at hlengths
        refine .length hbodiless hte (by rw [hcl]; exact List.cons_ne_nil _ _) fun w hw => ?_
        rw [hcl] at hw
        refine ⟨List.all_eq_true.mp hlengths.1 w hw, ?_⟩
        rcases List.mem_cons.mp hw with rfl | hw
        · rfl
        · have hpair := hlengths.2
          rw [List.map_cons, List.pairwise_cons] at hpair
          have heq := hpair.1 _ (List.mem_map_of_mem hw)
          omega
    | cons c cs =>
      have hone : cs = [] := by
        rw [codingsOk, hte, decide_eq_true_eq, List.length_cons] at hcodings
        exact List.length_eq_zero_iff.mp (by omega)
      cases hcl : values CONTENT_LENGTH head.fields with
      | nil =>
        rw [hte, hcl] at h
        obtain ⟨hchunked, h⟩ := of_must h
        cases h
        exact .chunked hbodiless (hone ▸ hte) hchunked hcl
      | cons v vs =>
        rw [hte, hcl] at h
        cases h

end Aipl.StdHttp.Wire
