import Aipl.Std.Csv.Model

/-! # The rows of a text

What the reader's state machine makes of a list of bytes, apart from buffers and windows, and the text
of a row.

* `parse` — the fields of the first row of a text, and the text behind it.
* `parse_row` — the text of a row reads as that row, whatever follows it.
-/

namespace Aipl.StdCsv

/-- The reader in the middle of a row: the fields before, and the bytes of the current one. -/
structure Mid where
  st : State
  fields : List (List (BitVec 8))
  cur : List (BitVec 8)

namespace Mid

variable (d : BitVec 8)

def save (m : Mid) (st : State) : Mid := ⟨st, m.fields ++ [m.cur], []⟩

def push (m : Mid) (st : State) (c : BitVec 8) : Mid := ⟨st, m.fields, m.cur ++ [c]⟩

/-- A character, in the state `st`. -/
def stepIn (m : Mid) (st : State) (c : BitVec 8) : Mid :=
  match st with
  | .startField =>
    if c = 10#8 ∨ c = 13#8 then m.save .eatCrnl
    else if c = 34#8 then { m with st := .inQuoted }
    else if c = d then m.save .startField
    else m.push .inField c
  | .inField =>
    if c = 10#8 ∨ c = 13#8 then m.save .eatCrnl
    else if c = d then m.save .startField
    else m.push .inField c
  | .inQuoted => if c = 34#8 then { m with st := .quoteInQuoted } else m.push .inQuoted c
  | .quoteInQuoted =>
    if c = 34#8 then m.push .inQuoted c
    else if c = d then m.save .startField
    else if c = 10#8 ∨ c = 13#8 then m.save .eatCrnl
    else m.push .inField c
  | .eatCrnl | .startRecord => m

def step (m : Mid) (c : BitVec 8) : Mid :=
  if m.st = .startRecord then
    if c = 10#8 ∨ c = 13#8 then { m with st := .eatCrnl } else m.stepIn d .startField c
  else m.stepIn d m.st c

/-- The line's end. -/
def eol (m : Mid) : Mid :=
  match m.st with
  | .startField | .inField | .quoteInQuoted => m.save .startRecord
  | .eatCrnl => { m with st := .startRecord }
  | .inQuoted | .startRecord => m

/-- The bytes of the row so far. -/
def size (m : Mid) : Nat := m.fields.flatten.length + m.cur.length

end Mid

/-- The row that a text starts with, and the text behind it; `pending` as in `next_row`. -/
def parse (d : BitVec 8) (pending : Bool) (m : Mid) :
    List (BitVec 8) → Option (List (List (BitVec 8)) × List (BitVec 8))
  | [] =>
    let m := if pending then m.eol else m
    if pending ∧ m.st = .startRecord then some (m.fields, [])
    else if m.cur ≠ [] ∨ m.st = .inQuoted then some (m.fields ++ [m.cur], [])
    else none
  | 13#8 :: 10#8 :: t =>
    let m := ((m.step d 13#8).step d 10#8).eol
    if m.st = .startRecord then some (m.fields, t) else parse d false m t
  | c :: t =>
    if c = 10#8 ∨ c = 13#8 then
      let m := (m.step d c).eol
      if m.st = .startRecord then some (m.fields, t) else parse d false m t
    else parse d true (m.step d c) t

/-! ### The text of a row -/

/-- Whether a field has to be quoted. -/
def quoted (d : BitVec 8) (b : List (BitVec 8)) : Bool :=
  b.any fun c => c = d || c = 34#8 || c = 10#8 || c = 13#8

/-- A quoted character. -/
def quoteByte (c : BitVec 8) : List (BitVec 8) := if c = 34#8 then [34#8, 34#8] else [c]

def fieldText (d : BitVec 8) (b : List (BitVec 8)) : List (BitVec 8) :=
  if quoted d b then [34#8] ++ b.flatMap quoteByte ++ [34#8] else b

/-- The fields, with a delimiter before each but the row's first. -/
def fieldsText (d : BitVec 8) : Bool → List (List (BitVec 8)) → List (BitVec 8)
  | _, [] => []
  | first, b :: bs => (if first then [] else [d]) ++ fieldText d b ++ fieldsText d false bs

/-- The row, with its line break. -/
def rowText (d : BitVec 8) (row : List (List (BitVec 8))) : List (BitVec 8) :=
  fieldsText d true row ++ (if row = [[]] then [34#8, 34#8] else []) ++ [13#8, 10#8]

/-! ### Reading it back -/

variable {d : BitVec 8}

/-- A delimiter is no quote and no line break. -/
structure Delim (d : BitVec 8) : Prop where
  quote : d ≠ 34#8
  lf : d ≠ 10#8
  cr : d ≠ 13#8

theorem parse_plain {p : Bool} {m : Mid} {c : BitVec 8} {t : List (BitVec 8)} (hlf : c ≠ 10#8)
    (hcr : c ≠ 13#8) : parse d p m (c :: t) = parse d true (m.step d c) t := by
  rw [parse.eq_def]
  split
  · simp_all
  · rename_i heq
    cases heq
    exact absurd rfl hcr
  · rename_i heq
    cases heq
    rw [if_neg (by simp [hlf, hcr])]

theorem parse_crlf {p : Bool} {m : Mid} {t : List (BitVec 8)} :
    parse d p m (13#8 :: 10#8 :: t)
      = if (((m.step d 13#8).step d 10#8).eol).st = .startRecord
        then some ((((m.step d 13#8).step d 10#8).eol).fields, t)
        else parse d false (((m.step d 13#8).step d 10#8).eol) t := rfl

/-- A line break that is one character. -/
theorem parse_break {p : Bool} {m : Mid} {c : BitVec 8} {t : List (BitVec 8)}
    (hc : c = 10#8 ∨ c = 13#8) (ht : c = 13#8 → t.head? ≠ some 10#8) :
    parse d p m (c :: t)
      = if ((m.step d c).eol).st = .startRecord then some (((m.step d c).eol).fields, t)
        else parse d false ((m.step d c).eol) t := by
  rw [parse.eq_def]
  split
  · simp_all
  · rename_i heq
    cases heq
    exact absurd rfl (ht rfl)
  · rename_i heq
    cases heq
    rw [if_pos hc]

/-- Inside quotes every character but a quote is kept, line breaks too. -/
theorem parse_inQuoted (fs : List (List (BitVec 8))) (cur t : List (BitVec 8)) {c : BitVec 8}
    (hc : c ≠ 34#8) (p : Bool) :
    ∃ p', parse d p ⟨.inQuoted, fs, cur⟩ (c :: t) = parse d p' ⟨.inQuoted, fs, cur ++ [c]⟩ t := by
  have hstep : ∀ (cur : List (BitVec 8)) {c : BitVec 8}, c ≠ 34#8 →
      Mid.step d ⟨.inQuoted, fs, cur⟩ c = ⟨.inQuoted, fs, cur ++ [c]⟩ := by
    intro cur c hc
    simp [Mid.step, Mid.stepIn, hc, Mid.push]
  by_cases hlf : c = 10#8
  · subst hlf
    rw [parse_break (.inl rfl) (by simp), hstep cur (by decide)]
    exact ⟨false, rfl⟩
  · by_cases hcr : c = 13#8
    · subst hcr
      by_cases ht : t.head? = some 10#8
      · -- the "\n" behind it is kept either way
        obtain ⟨t', rfl⟩ := List.head?_eq_some_iff.mp ht
        refine ⟨false, ?_⟩
        rw [parse_crlf, hstep cur (by decide), hstep _ (by decide), parse_break (.inl rfl) (by simp),
          hstep _ (by decide)]
      · rw [parse_break (.inr rfl) fun _ => ht, hstep cur (by decide)]
        exact ⟨false, rfl⟩
    · rw [parse_plain hlf hcr, hstep cur hc]
      exact ⟨true, rfl⟩

theorem parse_quoted (fs : List (List (BitVec 8))) (t b : List (BitVec 8)) (cur : List (BitVec 8))
    (p : Bool) : ∃ p', parse d p ⟨.inQuoted, fs, cur⟩ (b.flatMap quoteByte ++ t)
      = parse d p' ⟨.inQuoted, fs, cur ++ b⟩ t := by
  induction b generalizing cur p with
  | nil => exact ⟨p, by simp⟩
  | cons c b ih =>
    rw [List.flatMap_cons, List.append_assoc]
    by_cases hc : c = 34#8
    · subst hc
      obtain ⟨p', hp'⟩ := ih (cur ++ [34#8]) true
      refine ⟨p', ?_⟩
      have hstep : Mid.step d (Mid.step d ⟨.inQuoted, fs, cur⟩ 34#8) 34#8
          = ⟨.inQuoted, fs, cur ++ [34#8]⟩ := by
        simp [Mid.step, Mid.stepIn, Mid.push]
      rw [quoteByte, if_pos rfl, List.cons_append, List.cons_append, List.nil_append,
        parse_plain (by decide) (by decide), parse_plain (by decide) (by decide), hstep, hp',
        List.append_assoc, List.singleton_append]
    · obtain ⟨p₁, hp₁⟩ := parse_inQuoted fs cur (b.flatMap quoteByte ++ t) hc p (d := d)
      obtain ⟨p', hp'⟩ := ih (cur ++ [c]) p₁
      refine ⟨p', ?_⟩
      rw [quoteByte, if_neg hc, List.singleton_append, hp₁, hp', List.append_assoc,
        List.singleton_append]

/-- A character that does not make a field quoted. -/
def Plain (d c : BitVec 8) : Prop := c ≠ d ∧ c ≠ 34#8 ∧ c ≠ 10#8 ∧ c ≠ 13#8

theorem plain_of_not_quoted {b : List (BitVec 8)} (h : quoted d b = false) {c : BitVec 8}
    (hc : c ∈ b) : Plain d c := by
  have hno := List.any_eq_false.mp h c hc
  simp only [Bool.or_eq_true, decide_eq_true_eq, not_or] at hno
  exact ⟨hno.1.1.1, hno.1.1.2, hno.1.2, hno.2⟩

theorem parse_bare (fs : List (List (BitVec 8))) (t b : List (BitVec 8)) (cur : List (BitVec 8))
    (p : Bool) (hb : ∀ c ∈ b, Plain d c) : ∃ p', parse d p ⟨.inField, fs, cur⟩ (b ++ t)
      = parse d p' ⟨.inField, fs, cur ++ b⟩ t := by
  induction b generalizing cur p with
  | nil => exact ⟨p, by simp⟩
  | cons c b ih =>
    obtain ⟨hd, hq, hlf, hcr⟩ := hb c List.mem_cons_self
    obtain ⟨p', hp'⟩ := ih (cur ++ [c]) true fun c hc => hb c (List.mem_cons_of_mem _ hc)
    refine ⟨p', ?_⟩
    have hstep : Mid.step d ⟨.inField, fs, cur⟩ c = ⟨.inField, fs, cur ++ [c]⟩ := by
      simp [Mid.step, Mid.stepIn, hlf, hcr, hd, Mid.push]
    rw [List.cons_append, parse_plain hlf hcr, hstep, hp', List.append_assoc, List.singleton_append]

/-- The reader behind the text of the field `b`. -/
structure Closed (fs : List (List (BitVec 8))) (b : List (BitVec 8)) (m : Mid) : Prop where
  fields : m.fields = fs
  cur : m.cur = b
  st : m.st = .startField ∨ m.st = .inField ∨ m.st = .quoteInQuoted

theorem Closed.step_delim {fs : List (List (BitVec 8))} {b : List (BitVec 8)} {m : Mid}
    (h : Closed fs b m) (hd : Delim d) : m.step d d = ⟨.startField, fs ++ [b], []⟩ := by
  obtain ⟨st, fields, cur⟩ := m
  obtain ⟨rfl, rfl, hst⟩ := h
  obtain ⟨hq, hlf, hcr⟩ := hd
  rcases hst with rfl | rfl | rfl <;> simp [Mid.step, Mid.stepIn, hlf, hcr, hq, Mid.save]

theorem Closed.step_cr {fs : List (List (BitVec 8))} {b : List (BitVec 8)} {m : Mid}
    (h : Closed fs b m) (hd : Delim d) : m.step d 13#8 = ⟨.eatCrnl, fs ++ [b], []⟩ := by
  obtain ⟨st, fields, cur⟩ := m
  obtain ⟨rfl, rfl, hst⟩ := h
  have hcr := hd.cr.symm
  rcases hst with rfl | rfl | rfl <;> simp [Mid.step, Mid.stepIn, hcr, Mid.save]

/-- **The text of a field** reads as the field, whatever follows it. -/
theorem parse_field (fs : List (List (BitVec 8))) (b t : List (BitVec 8)) (p : Bool) :
    ∃ p' m, Closed fs b m ∧ parse d p ⟨.startField, fs, []⟩ (fieldText d b ++ t) = parse d p' m t := by
  rw [fieldText]
  cases hq : quoted d b with
  | true =>
    obtain ⟨p', hp'⟩ := parse_quoted fs ([34#8] ++ t) b [] true (d := d)
    refine ⟨true, ⟨.quoteInQuoted, fs, b⟩, ⟨rfl, rfl, .inr (.inr rfl)⟩, ?_⟩
    have hopen : Mid.step d ⟨.startField, fs, []⟩ 34#8 = ⟨.inQuoted, fs, []⟩ := by
      simp [Mid.step, Mid.stepIn]
    have hclose : Mid.step d ⟨.inQuoted, fs, b⟩ 34#8 = ⟨.quoteInQuoted, fs, b⟩ := by
      simp [Mid.step, Mid.stepIn]
    rw [if_pos rfl, List.append_assoc, List.append_assoc, List.singleton_append,
      parse_plain (by decide) (by decide), hopen, hp', List.nil_append, List.singleton_append,
      parse_plain (by decide) (by decide), hclose]
  | false =>
    rw [if_neg (by simp)]
    cases b with
    | nil => exact ⟨p, ⟨.startField, fs, []⟩, ⟨rfl, rfl, .inl rfl⟩, rfl⟩
    | cons c b =>
      obtain ⟨hd, hquote, hlf, hcr⟩ := plain_of_not_quoted hq List.mem_cons_self
      obtain ⟨p', hp'⟩ := parse_bare fs t b [c] true (d := d)
        fun x hx => plain_of_not_quoted hq (List.mem_cons_of_mem _ hx)
      refine ⟨p', ⟨.inField, fs, c :: b⟩, ⟨rfl, rfl, .inr (.inl rfl)⟩, ?_⟩
      have hstep : Mid.step d ⟨.startField, fs, []⟩ c = ⟨.inField, fs, [c]⟩ := by
        simp [Mid.step, Mid.stepIn, hlf, hcr, hquote, hd, Mid.push]
      rw [List.cons_append, parse_plain hlf hcr, hstep, hp', List.singleton_append]

theorem parse_end {fs : List (List (BitVec 8))} {b : List (BitVec 8)} {m : Mid} (h : Closed fs b m)
    (hd : Delim d) (p : Bool) (t : List (BitVec 8)) :
    parse d p m (13#8 :: 10#8 :: t) = some (fs ++ [b], t) := by
  have heat : Mid.step d ⟨.eatCrnl, fs ++ [b], []⟩ 10#8 = ⟨.eatCrnl, fs ++ [b], []⟩ := by
    simp [Mid.step, Mid.stepIn]
  rw [parse_crlf, h.step_cr hd, heat]
  rfl

/-- The text of the fields behind one. -/
theorem parse_more (hd : Delim d) (bs : List (List (BitVec 8))) (t : List (BitVec 8)) :
    ∀ {fs : List (List (BitVec 8))} {b : List (BitVec 8)} {m : Mid}, Closed fs b m → ∀ p,
      parse d p m (fieldsText d false bs ++ 13#8 :: 10#8 :: t) = some (fs ++ b :: bs, t) := by
  induction bs with
  | nil => exact fun h p => parse_end h hd p t
  | cons c bs ih =>
    intro fs b m h p
    obtain ⟨p', m', hclosed, hparse⟩ := parse_field (fs ++ [b]) c
      (fieldsText d false bs ++ 13#8 :: 10#8 :: t) true (d := d)
    rw [fieldsText, if_neg (by simp), List.append_assoc, List.append_assoc, List.singleton_append,
      parse_plain hd.lf hd.cr, h.step_delim hd, hparse, ih hclosed p', List.append_assoc,
      List.singleton_append]

/-- A row's first character starts its first field. -/
theorem parse_first {c : BitVec 8} (hlf : c ≠ 10#8) (hcr : c ≠ 13#8) (p : Bool) (t : List (BitVec 8)) :
    parse d p ⟨.startRecord, [], []⟩ (c :: t) = parse d p ⟨.startField, [], []⟩ (c :: t) := by
  have hstep : Mid.step d ⟨.startRecord, [], []⟩ c = Mid.step d ⟨.startField, [], []⟩ c := by
    simp [Mid.step, hlf, hcr, Mid.stepIn, Mid.save, Mid.push]
  rw [parse_plain hlf hcr, parse_plain hlf hcr, hstep]

/-- The text of a row with a field starts with no line break. -/
theorem fieldsText_head (hd : Delim d) {b : List (BitVec 8)} {bs : List (List (BitVec 8))}
    (hne : b :: bs ≠ [[]]) : ∃ c x, fieldsText d true (b :: bs) = c :: x ∧ c ≠ 10#8 ∧ c ≠ 13#8 := by
  rw [fieldsText, if_pos rfl, List.nil_append, fieldText]
  cases hq : quoted d b with
  | true => exact ⟨34#8, _, rfl, by decide, by decide⟩
  | false =>
    rw [if_neg (by simp)]
    cases b with
    | nil =>
      cases bs with
      | nil => exact absurd rfl hne
      | cons b' bs => exact ⟨d, _, rfl, hd.lf, hd.cr⟩
    | cons c b =>
      obtain ⟨-, -, hlf, hcr⟩ := plain_of_not_quoted hq List.mem_cons_self
      exact ⟨c, _, rfl, hlf, hcr⟩

/-- **The text of a row reads as the row**, whatever follows it. -/
theorem parse_row (hd : Delim d) (row : List (List (BitVec 8))) (t : List (BitVec 8)) (p : Bool) :
    parse d p ⟨.startRecord, [], []⟩ (rowText d row ++ t) = some (row, t) := by
  have hquote := hd.quote.symm
  rw [rowText]
  cases row with
  | nil =>
    have hstep : Mid.step d ⟨.startRecord, [], []⟩ 13#8 = ⟨.eatCrnl, [], []⟩ := by
      simp [Mid.step]
    have heat : Mid.step d ⟨.eatCrnl, [], []⟩ 10#8 = ⟨.eatCrnl, [], []⟩ := by
      simp [Mid.step, Mid.stepIn]
    rw [if_neg (by simp), fieldsText, List.nil_append, List.nil_append, List.cons_append,
      List.cons_append, List.nil_append, parse_crlf, hstep, heat]
    rfl
  | cons b bs =>
    by_cases hne : b :: bs = [[]]
    · cases hne
      have hopen : Mid.step d (Mid.step d ⟨.startRecord, [], []⟩ 34#8) 34#8
          = ⟨.quoteInQuoted, [], []⟩ := by
        simp [Mid.step, Mid.stepIn]
      rw [if_pos rfl, show fieldsText d true [[]] = [] by simp [fieldsText, fieldText, quoted],
        List.nil_append, List.append_assoc, List.cons_append, List.cons_append, List.nil_append,
        parse_plain (by decide) (by decide), parse_plain (by decide) (by decide), hopen]
      exact parse_end ⟨rfl, rfl, .inr (.inr rfl)⟩ hd _ t
    · obtain ⟨c, x, htext, hlf, hcr⟩ := fieldsText_head hd hne
      obtain ⟨p', m, hclosed, hparse⟩ := parse_field [] b (fieldsText d false bs ++ 13#8 :: 10#8 :: t) p
        (d := d)
      have hall : fieldsText d true (b :: bs) ++ 13#8 :: 10#8 :: t
          = fieldText d b ++ (fieldsText d false bs ++ 13#8 :: 10#8 :: t) := by
        rw [fieldsText, if_pos rfl, List.nil_append, List.append_assoc]
      rw [if_neg hne, List.append_nil, List.append_assoc, List.cons_append, List.cons_append,
        List.nil_append, htext, List.cons_append, parse_first hlf hcr, ← List.cons_append, ← htext,
        hall, hparse, parse_more hd bs t hclosed p', List.nil_append]

end Aipl.StdCsv
