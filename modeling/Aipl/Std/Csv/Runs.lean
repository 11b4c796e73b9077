import Aipl.Std.Csv.Reads
import Aipl.Std.Stream.Runs

/-! # Rows, written and read back

* `Reach` — the fields and rows written by a run of `field_bytes` and `end_row` whose writes fit.
* `rows_round_trip` — what such a run wrote reads back as its rows, however its bytes arrive, as long as the
  bytes of each row fit in the reader's buffer.
* `not_every_field_ends` — a field that is too long is never written.
-/

namespace Aipl.StdCsv

open Aipl.Lib Aipl.Lib.Outcome Aipl.Std
open Aipl.StdBuf (Content)
open Aipl.StdStream (byteAt byteAt_eq)

variable {σ τ : Type} {A : Allocator σ} {fuel : Nat} {d : BitVec 8}

/-! ### Writing -/

/-- Bytes, each written by itself. -/
def singly (b : List (BitVec 8)) : List (List (BitVec 8)) := b.map fun c => [c]

theorem flatten_singly (b : List (BitVec 8)) : (singly b).flatten = b := by
  induction b with
  | nil => rfl
  | cons c b ih => rw [singly, List.map_cons, List.flatten_cons, ← singly, ih, List.singleton_append]

theorem singly_append (b c : List (BitVec 8)) : singly (b ++ c) = singly b ++ singly c :=
  List.map_append

/-- The writes of a field; `first` when it is the row's first. -/
def fieldWrites (d : BitVec 8) (first : Bool) (b : List (BitVec 8)) : List (List (BitVec 8)) :=
  (if first then [] else [[d]]) ++ (if quoted d b then singly (fieldText d b) else [b])

/-- The writes of a row's end, behind `n` fields of which one is not empty if `wrote`. -/
def endWrites (empty : Bool) : List (List (BitVec 8)) :=
  (if empty then [[34#8, 34#8]] else []) ++ [[13#8, 10#8]]

namespace Writer

variable {cw cw' : Writer σ} {b : List (BitVec 8)}

/-- A field's writes fit, when their turns come. -/
def FieldFits (A : Allocator σ) (fuel : Nat) (cw : Writer σ) (b : List (BitVec 8)) : Prop :=
  (0#32).sle cw.fields = true ∧ b.length < 2 ^ 31
    ∧ StdStream.Writer.AllFit A fuel cw.out (fieldWrites (cw.delim.setWidth 8) (cw.fields = 0#32) b)

/-- The writes of a row's end fit. -/
def EndFits (A : Allocator σ) (fuel : Nat) (cw : Writer σ) : Prop :=
  StdStream.Writer.AllFit A fuel cw.out (endWrites (cw.fields = 1#32 ∧ cw.wrote = false))

theorem needsQuote_eq (hb : b.length < 2 ^ 31) (hfuel : 2 ^ 31 ≤ fuel) (hd : cw.delim = d.setWidth 32) :
    needsQuote fuel cw b = done (quoted d b) := by
  have hloop : ∀ (l : List (BitVec 8)) (q : Bool),
      foldAll (fun q c => done (q || (c = d || c = 34#8 || c = 10#8 || c = 13#8 : Bool))) q l
        = done (q || quoted d l) := by
    intro l
    induction l with
    | nil => exact fun q => by rw [foldAll, quoted, List.any_nil, Bool.or_false]
    | cons c l ih =>
      intro q
      rw [foldAll, done_bind, ih, Bool.or_assoc]
      rfl
  rw [needsQuote, arrLen, forLoop_eq_foldAll hb (by omega)
    (g := fun q c => done (q || (c = d || c = 34#8 || c = 10#8 || c = 13#8 : Bool)))]
  · exact (hloop b false).trans (by rw [Bool.false_or])
  · intro k c q hc
    have hk : (BitVec.ofNat 32 k).toNat = k :=
      toNat_ofNat_of_lt (by have := (List.getElem?_eq_some_iff.mp hc).1; omega)
    rw [byteAt_eq hb (by rw [hk]; exact hc), done_bind, pure_eq, hd]
    have hq : (c.setWidth 32 = 34#32) = (c = 34#8) := propext (word_inj (c := 34#8))
    have hlf : (c.setWidth 32 = 10#32) = (c = 10#8) := propext (word_inj (c := 10#8))
    have hcr : (c.setWidth 32 = 13#32) = (c = 13#8) := propext (word_inj (c := 13#8))
    have hdel : (c.setWidth 32 = d.setWidth 32) = (c = d) := propext word_inj
    simp only [hq, hlf, hcr, hdel]

theorem writeQuoted_eq (c : BitVec 8) (w : StdStream.Writer σ) :
    writeQuoted A fuel (c.setWidth 32) w = w.writeAll A fuel (singly (quoteByte c)) := by
  have hq : (c.setWidth 32 = 34#32) = (c = 34#8) := propext (word_inj (c := 34#8))
  rw [writeQuoted, writeFirst, quoteByte]
  simp only [hq, StdStream.Writer.writeByte_eq, StdStream.setWidth_setWidth_byte]
  by_cases hc : c = 34#8
  · subst hc
    rw [if_pos rfl, if_pos rfl]
    exact bind_congr fun w => (StdStream.Writer.writeAll_one w _).symm
  · rw [if_neg hc, if_neg hc, pure_eq, done_bind]
    exact (StdStream.Writer.writeAll_one w _).symm

theorem writeField_eq (w : StdStream.Writer σ) (hb : b.length < 2 ^ 31) (hfuel : 2 ^ 31 ≤ fuel) :
    writeField A fuel w b (quoted d b)
      = w.writeAll A fuel (if quoted d b then singly (fieldText d b) else [b]) := by
  rw [writeField, fieldText]
  cases quoted d b with
  | false => exact (StdStream.Writer.writeAll_one w b).symm
  | true =>
    have hloop : ∀ (l : List (BitVec 8)) (w : StdStream.Writer σ),
        foldAll (fun w c => w.writeAll A fuel (singly (quoteByte c))) w l
          = w.writeAll A fuel (singly (l.flatMap quoteByte)) := by
      intro l
      induction l with
      | nil => exact fun _ => rfl
      | cons c l ih =>
        intro w
        rw [foldAll, List.flatMap_cons, singly_append, StdStream.Writer.writeAll_append]
        exact bind_congr fun w => ih w
    have hquote : ∀ w : StdStream.Writer σ, w.writeByte A fuel 34#32 = w.writeAll A fuel (singly [34#8]) := by
      intro w
      rw [StdStream.Writer.writeByte_eq, show (34#32).setWidth 8 = 34#8 from rfl]
      exact (StdStream.Writer.writeAll_one w [34#8]).symm
    rw [if_pos rfl, if_pos rfl, if_pos rfl, singly_append, singly_append, StdStream.Writer.writeAll_append,
      StdStream.Writer.writeAll_append, bind_assoc, hquote]
    refine bind_congr fun w => ?_
    rw [arrLen, forLoop_eq_foldAll hb (by omega)
      (g := fun w c => w.writeAll A fuel (singly (quoteByte c)))]
    · rw [hloop]
      exact bind_congr hquote
    · intro k c w hc
      have hk : (BitVec.ofNat 32 k).toNat = k :=
        toNat_ofNat_of_lt (by have := (List.getElem?_eq_some_iff.mp hc).1; omega)
      rw [byteAt_eq hb (by rw [hk]; exact hc), done_bind, writeQuoted_eq]

/-- The writer in a row, behind the fields `row`. -/
structure At (d : BitVec 8) (row : List (List (BitVec 8))) (cw : Writer σ) : Prop where
  delim : cw.delim = d.setWidth 32
  few : row.length ≤ 2 ^ 31
  fields : cw.fields = BitVec.ofNat 32 row.length
  wrote : cw.wrote = row.any fun b => decide (b ≠ [])

theorem At.fields_zero {row : List (List (BitVec 8))} (h : At d row cw) :
    (cw.fields = 0#32) = (row = []) := by
  have hfew := h.few
  rw [h.fields]
  refine propext ⟨fun heq => ?_, fun heq => by rw [heq]; rfl⟩
  have hN := congrArg BitVec.toNat heq
  rw [toNat_ofNat_of_lt (by omega)] at hN
  exact List.length_eq_zero_iff.mp hN

theorem writeDelim_eq {row : List (List (BitVec 8))} (h : At d row cw)
    (hmore : (0#32).sle cw.fields = true) :
    writeDelim A fuel cw = cw.out.writeAll A fuel (if cw.fields = 0#32 then [] else [[d]]) := by
  have hfew := h.few
  have hsmall : cw.fields.toNat < 2 ^ 31 := by
    have h0 : (0#32).toInt = 0 := rfl
    simp only [BitVec.sle_eq_decide, h0, decide_eq_true_eq] at hmore
    exact (toInt_of_nonneg hmore).2
  rw [writeDelim]
  by_cases hfirst : cw.fields = 0#32
  · rw [if_pos hfirst, hfirst, if_neg (by decide)]
    rfl
  · have hpos : 0 < cw.fields.toNat :=
      Nat.pos_of_ne_zero fun hzero => hfirst (BitVec.eq_of_toNat_eq hzero)
    rw [if_neg hfirst, if_pos ((zero_slt_iff (by omega)).mpr hpos), h.delim,
      StdStream.Writer.writeByte_eq, StdStream.setWidth_setWidth_byte, StdStream.Writer.writeAll_one]

/-- **A field**, write by write. -/
theorem fieldBytes_sat {row : List (List (BitVec 8))} (h : At d row cw) (hfits : FieldFits A fuel cw b)
    (hfuel : 2 ^ 31 ≤ fuel) :
    Sat (fun cw' => At d (row ++ [b]) cw'
        ∧ StdStream.Writer.Wrote cw.out (fieldWrites d (row = []) b).flatten cw'.out)
      (fieldBytes A fuel cw b) := by
  obtain ⟨hmore, hb, hall⟩ := hfits
  have hdelim : cw.delim.setWidth 8 = d := by rw [h.delim, StdStream.setWidth_setWidth_byte]
  have hrun : ∀ f : StdStream.Writer σ → Outcome (Writer σ),
      (do
        let w ← writeDelim A fuel cw
        let quote ← needsQuote fuel cw b
        let w ← writeField A fuel w b quote
        f w) = cw.out.writeAll A fuel (fieldWrites d (cw.fields = 0#32) b) >>= f := by
    intro f
    rw [writeDelim_eq h hmore, needsQuote_eq hb hfuel h.delim, fieldWrites,
      StdStream.Writer.writeAll_append, bind_assoc]
    simp only [done_bind, writeField_eq _ hb hfuel, decide_eq_true_eq]
  rw [hdelim] at hall
  rw [fieldBytes, hrun]
  refine sat_bind (StdStream.Writer.writeAll_sat hfuel hall) ?_
  intro w hwrote
  have hfew : row.length < 2 ^ 31 := by
    have hle := h.few
    have h0 : (0#32).toInt = 0 := rfl
    simp only [BitVec.sle_eq_decide, h0, decide_eq_true_eq] at hmore
    have hlt := (toInt_of_nonneg hmore).2
    rw [h.fields, toNat_ofNat_of_lt (by omega)] at hlt
    exact hlt
  refine ⟨⟨h.delim, ?_, ?_, ?_⟩, ?_⟩
  · rw [List.length_append]
    exact hfew
  · dsimp only
    rw [h.fields, List.length_append, List.length_singleton, BitVec.ofNat_add]
  · dsimp only
    have hlen : (0#32).slt (arrLen b) = decide (b ≠ []) := by
      refine Bool.eq_iff_iff.mpr ?_
      rw [zero_slt_iff (by rw [toNat_arrLen (by omega)]; omega), toNat_arrLen (by omega),
        List.length_pos_iff, decide_eq_true_eq]
    rw [h.wrote, List.any_append, List.any_cons, List.any_nil, Bool.or_false, hlen]
  · simp only [h.fields_zero] at hwrote
    exact hwrote

/-- A row of one empty field is the one with one field and no bytes. -/
theorem At.empty {row : List (List (BitVec 8))} (h : At d row cw) :
    (cw.fields = 1#32 ∧ cw.wrote = false) = (row = [[]]) := by
  have hfew := h.few
  have hone : cw.fields = 1#32 ↔ row.length = 1 := by
    rw [h.fields]
    refine ⟨fun heq => ?_, fun heq => by rw [heq]⟩
    have hN := congrArg BitVec.toNat heq
    rw [toNat_ofNat_of_lt (by omega)] at hN
    exact hN
  rw [hone, h.wrote]
  refine propext ⟨?_, ?_⟩
  · rintro ⟨hlen, hany⟩
    obtain ⟨b, rfl⟩ := List.length_eq_one_iff.mp hlen
    simpa using hany
  · rintro rfl
    exact ⟨rfl, rfl⟩

/-- **The end of a row.** -/
theorem endRow_sat {row : List (List (BitVec 8))} (h : At d row cw) (hfits : EndFits A fuel cw)
    (hfuel : 2 ^ 31 ≤ fuel) :
    Sat (fun cw' => At d [] cw'
        ∧ StdStream.Writer.Wrote cw.out (endWrites (row = [[]])).flatten cw'.out) (endRow A fuel cw) := by
  have hrun : ∀ f : StdStream.Writer σ → Outcome (Writer σ),
      (do
        let w ← writeEmpty A fuel cw
        let w ← w.writeBytes A fuel [13#8, 10#8]
        f w) = cw.out.writeAll A fuel (endWrites (cw.fields = 1#32 ∧ cw.wrote = false)) >>= f := by
    intro f
    rw [endWrites, StdStream.Writer.writeAll_append, bind_assoc, writeEmpty]
    simp only [StdStream.Writer.writeAll_one, decide_eq_true_eq]
    split
    · rw [StdStream.Writer.writeAll_one]
    · rfl
  rw [endRow, hrun]
  refine sat_bind (StdStream.Writer.writeAll_sat hfuel hfits) ?_
  intro w hwrote
  simp only [h.empty] at hwrote
  exact ⟨⟨h.delim, Nat.zero_le _, rfl, rfl⟩, hwrote⟩

end Writer

/-! ### Runs -/

/-- **A run**: the rows ended, and the fields of the row being written. -/
inductive Reach (A : Allocator σ) (d : BitVec 8) :
    List (List (List (BitVec 8))) → List (List (BitVec 8)) → Writer σ → Prop
  | start {out : StdStream.Writer σ} (hopen : out.failed = false) (hnew : out.all = []) :
      Reach A d [] [] (writerWith out (d.setWidth 32))
  | field {rows row b cw cw' fuel} (h : Reach A d rows row cw) (hfuel : 2 ^ 31 ≤ fuel)
      (hfits : cw.FieldFits A fuel b) (hr : cw.fieldBytes A fuel b = done cw') :
      Reach A d rows (row ++ [b]) cw'
  | endRow {rows row cw cw' fuel} (h : Reach A d rows row cw) (hfuel : 2 ^ 31 ≤ fuel)
      (hfits : cw.EndFits A fuel) (hr : cw.endRow A fuel = done cw') :
      Reach A d (rows ++ [row]) [] cw'
  /-- The allocator's state changes, by other calls of it. -/
  | elsewhere {rows row cw} (h : Reach A d rows row cw) (heap : σ) :
      Reach A d rows row { cw with out := { cw.out with out := { cw.out.out with heap } } }

theorem flatten_fieldWrites (first : Bool) (b : List (BitVec 8)) :
    (fieldWrites d first b).flatten = (if first then [] else [d]) ++ fieldText d b := by
  have hfirst : (if first then [] else [[d]]).flatten = if first then [] else [d] := by
    cases first <;> rfl
  have hfield : (if quoted d b then singly (fieldText d b) else [b]).flatten = fieldText d b := by
    cases hq : quoted d b with
    | true => rw [if_pos rfl, flatten_singly]
    | false => rw [if_neg (by simp), List.flatten_singleton, fieldText, hq, if_neg (by simp)]
  rw [fieldWrites, List.flatten_append, hfirst, hfield]

theorem flatten_endWrites (empty : Bool) :
    (endWrites empty).flatten = (if empty then [34#8, 34#8] else []) ++ [13#8, 10#8] := by
  cases empty <;> rfl

theorem fieldsText_snoc (first : Bool) (row : List (List (BitVec 8))) (b : List (BitVec 8)) :
    fieldsText d first (row ++ [b]) = fieldsText d first row
      ++ ((if first && decide (row = []) then [] else [d]) ++ fieldText d b) := by
  induction row generalizing first with
  | nil => simp [fieldsText]
  | cons c row ih =>
    rw [List.cons_append, fieldsText, fieldsText, ih, List.append_assoc]
    simp

/-- The text of rows. -/
def text (d : BitVec 8) (rows : List (List (List (BitVec 8)))) : List (BitVec 8) :=
  (rows.map (rowText d)).flatten

/-- **A run writes the text of its rows.** -/
theorem written {rows : List (List (List (BitVec 8)))} {row : List (List (BitVec 8))} {cw : Writer σ}
    (h : Reach A d rows row cw) :
    cw.At d row ∧ (cw.out.failed = false → cw.out.all = text d rows ++ fieldsText d true row) := by
  induction h with
  | start hopen hnew => exact ⟨⟨rfl, Nat.zero_le _, rfl, rfl⟩, fun _ => hnew⟩
  | @field rows row b cw cw' fuel h hfuel hfits hr ih =>
    obtain ⟨hat, hall⟩ := ih
    obtain ⟨hat', hwrote⟩ := (Writer.fieldBytes_sat hat hfits hfuel).of_eq_done hr
    refine ⟨hat', fun hok => ?_⟩
    obtain ⟨hok₀, hall'⟩ := hwrote hok
    rw [hall', hall hok₀, flatten_fieldWrites, fieldsText_snoc, Bool.true_and, List.append_assoc]
  | @endRow rows row cw cw' fuel h hfuel hfits hr ih =>
    obtain ⟨hat, hall⟩ := ih
    obtain ⟨hat', hwrote⟩ := (Writer.endRow_sat hat hfits hfuel).of_eq_done hr
    refine ⟨hat', fun hok => ?_⟩
    obtain ⟨hok₀, hall'⟩ := hwrote hok
    rw [hall', hall hok₀, flatten_endWrites, text, text, List.map_append, List.flatten_append,
      List.map_singleton, List.flatten_singleton, rowText, fieldsText, List.append_nil]
    simp only [List.append_assoc, decide_eq_true_eq]
  | elsewhere _ heap ih =>
    obtain ⟨hat, hall⟩ := ih
    exact ⟨⟨hat.delim, hat.few, hat.fields, hat.wrote⟩, hall⟩

/-! ### Reading back -/

namespace Reader

theorem readerWith_sat {heap : τ} {B : Allocator τ} {src : StdStream.Reader τ} (h : src.Ok) :
    Sat (fun cr => Holding d cr ∧ cr.src = src) (readerWith B heap src (d.setWidth 32)) := by
  rw [readerWith]
  refine sat_bind (Content.make_sat rfl) ?_
  rintro data ⟨hbytes, hcap⟩
  refine sat_bind (Vec.make_sat (A := B)) ?_
  rintro spans ⟨hspans, -⟩
  refine sat_bind (Vec.make_sat (A := B)) ?_
  rintro views ⟨hviews, -⟩
  refine sat_bind sat_raw fun heap' _ => ?_
  refine ⟨⟨h, rfl, ⟨22, ?_, ?_⟩, hspans, hviews⟩, rfl⟩
  · rw [hcap]
    decide
  · rw [hcap]
    decide

theorem length_rowText (row : List (List (BitVec 8))) : 0 < (rowText d row).length := by
  rw [rowText, List.length_append]
  exact Nat.lt_of_lt_of_le Nat.zero_lt_two (Nat.le_add_left _ _)

/-- **The rows of a text** are read from it, one after another. -/
theorem rows_sat {B : Allocator τ} {cr : Reader τ} {rs : List (List (List (BitVec 8)))} (hd : Delim d)
    (h : Holding d cr) (hrest : cr.src.rest = text d rs)
    (hsize : ∀ row ∈ rs, row.flatten.length ≤ 2 ^ 30) (hfuel : 2 ^ 31 + (text d rs).length ≤ fuel) :
    Sat (· = rs) (rows B fuel cr) := by
  rw [rows]
  refine iterate_sat (fun x => Holding d x.1 ∧ ∃ left, x.1.src.rest = text d left ∧ x.2 ++ left = rs)
    (· = rs) (fun x => x.1.src.rest.length) ?_ fuel _ ⟨h, rs, hrest, rfl⟩ (by rw [hrest]; omega)
  rintro ⟨cr', read⟩ ⟨hheld, left, htext, hall⟩
  dsimp only at hheld htext hall ⊢
  have hshort : cr'.src.rest.length < fuel := by
    have hle : (text d left).length ≤ (text d rs).length := by
      rw [← hall, text, text, List.map_append, List.flatten_append, List.length_append]
      exact Nat.le_add_left _ _
    rw [htext]
    omega
  cases left with
  | nil =>
    refine sat_bind (nextRow_done hheld htext (by omega)) ?_
    rintro ⟨more, cr''⟩ hmore
    dsimp only at hmore ⊢
    rw [hmore, if_neg (by simp)]
    exact (List.append_nil read).symm.trans hall
  | cons row left =>
    have hcons : cr'.src.rest = rowText d row ++ text d left := by
      rw [htext, text, List.map_cons, List.flatten_cons, ← text]
    have hrow : row ∈ rs := by
      rw [← hall]
      exact List.mem_append_right _ List.mem_cons_self
    have hparse := parse_row hd row (text d left) false
    rw [← hcons] at hparse
    refine sat_bind (nextRow_sat hheld hparse (hsize row hrow) (by omega) hshort) ?_
    rintro ⟨more, cr''⟩ ⟨hmore, hheld', hfields, hrest'⟩
    dsimp only at hmore hheld' hfields hrest' ⊢
    rw [hmore, if_pos rfl]
    refine ⟨⟨hheld', left, hrest', ?_⟩, ?_⟩
    · rw [hfields, List.append_assoc, List.singleton_append]
      exact hall
    · dsimp only
      rw [hrest', hcons, List.length_append]
      exact Nat.lt_add_of_pos_left (length_rowText row)

end Reader

/-- Every row of what is read from `src`, with the delimiter `d`. -/
def readBack (B : Allocator τ) (fuel : Nat) (heap : τ) (src : StdStream.Reader τ) (d : BitVec 8) :
    Outcome (List (List (List (BitVec 8)))) := do
  let cr ← readerWith B heap src (d.setWidth 32)
  cr.rows B fuel

/-- **Rows round-trip.**  Every further field and row end that fits is written; and once the rows are
ended, and no write failed, what was written reads back as the rows through any reader of it, as long as
the bytes of each row fit in the row's buffer. -/
theorem rows_round_trip (hd : Delim d) {rows : List (List (List (BitVec 8)))} {row : List (List (BitVec 8))}
    {cw : Writer σ} (h : Reach A d rows row cw) (hfuel : 2 ^ 31 ≤ fuel) :
    (∀ b, cw.FieldFits A fuel b → cw.fieldBytes A fuel b ≠ outOfFuel) ∧
    (cw.EndFits A fuel → cw.endRow A fuel ≠ outOfFuel) ∧
    (row = [] → cw.out.failed = false → (∀ row ∈ rows, row.flatten.length ≤ 2 ^ 30) →
      ∀ (B : Allocator τ) (heap : τ) (src : StdStream.Reader τ), StdStream.Started B cw.out.all src →
        ∀ fuel', 2 ^ 31 + cw.out.all.length ≤ fuel' → Sat (· = rows) (readBack B fuel' heap src d)) := by
  obtain ⟨hat, hall⟩ := written h
  refine ⟨fun b hfits => (Writer.fieldBytes_sat hat hfits hfuel).ne_outOfFuel,
    fun hfits => (Writer.endRow_sat hat hfits hfuel).ne_outOfFuel, ?_⟩
  rintro rfl hok hsize B heap src hsrc fuel' hfuel'
  have htext : cw.out.all = text d rows := by rw [hall hok, fieldsText, List.append_nil]
  obtain ⟨hsrcOk, hrest⟩ := hsrc.ok
  rw [htext] at hrest hfuel'
  rw [readBack]
  refine sat_bind (Reader.readerWith_sat hsrcOk) ?_
  rintro cr ⟨hheld, rfl⟩
  exact Reader.rows_sat hd hheld hrest hsize hfuel'

/-! ### A run, and a field that is never written -/

/-- The fields `a"` and the empty one, and a row of one empty field, written to a buffer and read back. -/
theorem rows_round_trip_quoted : ∃ cw : Writer Unit,
    Reach StdStream.granting 44#8 [[[97#8, 34#8], []], [[]]] [] cw ∧
    cw.out.all = [34#8, 97#8, 34#8, 34#8, 34#8, 44#8, 13#8, 10#8, 34#8, 34#8, 13#8, 10#8] ∧
    ∀ src : StdStream.Reader Unit, StdStream.Started StdStream.granting cw.out.all src →
      Sat (· = [[[97#8, 34#8], []], [[]]]) (readBack StdStream.granting (2 ^ 32) () src 44#8) := by
  have hfuel : 2 ^ 31 ≤ 2 ^ 31 := le_rfl
  have hd : Delim 44#8 := ⟨by decide, by decide, by decide⟩
  -- the writer behind each call
  let at_ (fields : BitVec 32) (wrote : Bool) (written : List (BitVec 8)) : Writer Unit :=
    ⟨⟨.buffer, ⟨written, 64#32, ()⟩, false, []⟩, 44#32, fields, wrote⟩
  have h₀ : Reach StdStream.granting 44#8 [] [] (at_ 0#32 false []) := .start rfl rfl
  have h₁ : Reach StdStream.granting 44#8 [] [[97#8, 34#8]]
      (at_ 1#32 true [34#8, 97#8, 34#8, 34#8, 34#8]) :=
    .field h₀ hfuel ⟨by decide, by decide, StdStream.Writer.allFit_of_cap (by decide) (by decide)⟩
      (by decide +kernel)
  have h₂ : Reach StdStream.granting 44#8 [] [[97#8, 34#8], []]
      (at_ 2#32 true [34#8, 97#8, 34#8, 34#8, 34#8, 44#8]) :=
    .field h₁ hfuel ⟨by decide, by decide, StdStream.Writer.allFit_of_cap (by decide) (by decide)⟩
      (by decide +kernel)
  have h₃ : Reach StdStream.granting 44#8 [[[97#8, 34#8], []]] []
      (at_ 0#32 false [34#8, 97#8, 34#8, 34#8, 34#8, 44#8, 13#8, 10#8]) :=
    .endRow h₂ hfuel (StdStream.Writer.allFit_of_cap (by decide) (by decide)) (by decide +kernel)
  have h₄ : Reach StdStream.granting 44#8 [[[97#8, 34#8], []]] [[]]
      (at_ 1#32 false [34#8, 97#8, 34#8, 34#8, 34#8, 44#8, 13#8, 10#8]) :=
    .field h₃ hfuel ⟨by decide, by decide, StdStream.Writer.allFit_of_cap (by decide) (by decide)⟩
      (by decide +kernel)
  have h₅ : Reach StdStream.granting 44#8 [[[97#8, 34#8], []], [[]]] []
      (at_ 0#32 false [34#8, 97#8, 34#8, 34#8, 34#8, 44#8, 13#8, 10#8, 34#8, 34#8, 13#8, 10#8]) :=
    .endRow h₄ hfuel (StdStream.Writer.allFit_of_cap (by decide) (by decide)) (by decide +kernel)
  refine ⟨_, h₅, rfl, fun src hsrc => ?_⟩
  exact (rows_round_trip hd h₅ hfuel).2.2 rfl rfl (by decide) _ _ _ hsrc _ (by decide)

/-- A field longer than 2^30 bytes that needs no quotes: its writer's buffer of 8192 bytes doubles to
-2^31 and then to 0, for ever. -/
theorem fieldBytes_diverges {out : StdStream.Writer σ} (hopen : out.failed = false)
    (hempty : out.out.bytes = []) (hcap : out.out.cap = 8192#32) {b : List (BitVec 8)}
    (hb : b.length = 2 ^ 30 + 1) (hplain : quoted d b = false) (hfuel : 2 ^ 31 ≤ fuel) :
    (writerWith out (d.setWidth 32)).fieldBytes A fuel b = outOfFuel := by
  have hpush : out.out.pushBytes A fuel b = outOfFuel :=
    Content.pushBytes_diverges (j := 13) (by rw [hcap]; rfl) (by rw [hempty, hb]; decide)
      (by rw [hempty, hb]; decide)
  have hdelim : Writer.writeDelim A fuel (writerWith out (d.setWidth 32)) = done out :=
    if_neg (show ¬ (0#32).slt 0#32 = true by decide)
  rw [Writer.fieldBytes, hdelim, done_bind, Writer.needsQuote_eq (by rw [hb]; decide) hfuel rfl, done_bind,
    hplain, Writer.writeField, if_neg (by simp)]
  rw [StdStream.Writer.writeBytes_diverges hopen hpush]
  rfl

/-- Not every field is written. -/
theorem not_every_field_ends :
    ¬ ∀ (d : BitVec 8), Delim d → ∀ (out : StdStream.Writer Unit), out.failed = false → out.all = [] →
      ∀ b : List (BitVec 8), b.length < 2 ^ 31 → ∃ bound, ∀ fuel, bound ≤ fuel →
        (writerWith out (d.setWidth 32)).fieldBytes StdStream.granting fuel b ≠ outOfFuel := by
  intro hall
  have hd : Delim 44#8 := ⟨by decide, by decide, by decide⟩
  obtain ⟨bound, hbound⟩ := hall 44#8 hd ⟨.fd [], ⟨[], 8192#32, ()⟩, false, []⟩ rfl rfl
    (List.replicate (2 ^ 30 + 1) 97#8) (by rw [List.length_replicate]; decide)
  refine hbound (max bound (2 ^ 31)) (le_max_left _ _) ?_
  refine fieldBytes_diverges rfl rfl rfl List.length_replicate ?_ (le_max_right _ _)
  rw [quoted, List.any_replicate]
  exact if_neg (by decide)

end Aipl.StdCsv
