import Aipl.Std.Csv.Rows

/-! # The reader against the rows of a text

* `Rep` — the reader in the middle of a row, with the row's fields in its buffer.
* `nextRow_sat` — `next_row` finds the row that the rest of the input starts with, as long as its fields
  fit in the buffer; `nextRow_done` — and none at the end.
-/

namespace Aipl.StdCsv

open Aipl.Lib Aipl.Lib.Outcome Aipl.Std
open Aipl.StdBuf (Content)
open Aipl.StdStream (byteAt slice slice_eq)

variable {σ : Type} {A : Allocator σ} {fuel : Nat} {d : BitVec 8}

/-- A character as `read_byte` returns it. -/
theorem word_inj {b c : BitVec 8} : b.setWidth 32 = c.setWidth 32 ↔ b = c := by
  refine ⟨fun h => ?_, fun h => by rw [h]⟩
  have hw := congrArg (BitVec.setWidth 8) h
  rwa [StdStream.setWidth_setWidth_byte, StdStream.setWidth_setWidth_byte] at hw

theorem word_ne_eol (c : BitVec 8) : c.setWidth 32 ≠ -1#32 := by
  intro h
  have hlt := StdStream.Reader.toNat_byte_lt c
  rw [h] at hlt
  exact absurd hlt (by decide)

/-! ### The row's buffer -/

/-- The start and the end of each field, in the bytes of all of them from `o` on. -/
def spansFrom : Nat → List (List (BitVec 8)) → List (BitVec 32)
  | _, [] => []
  | o, f :: fs => BitVec.ofNat 32 o :: BitVec.ofNat 32 (o + f.length) :: spansFrom (o + f.length) fs

theorem spansFrom_append (o : Nat) (fs : List (List (BitVec 8))) (f : List (BitVec 8)) :
    spansFrom o (fs ++ [f]) = spansFrom o fs
      ++ [BitVec.ofNat 32 (o + fs.flatten.length), BitVec.ofNat 32 (o + fs.flatten.length + f.length)] := by
  induction fs generalizing o with
  | nil => rfl
  | cons g fs ih =>
    simp only [List.cons_append, spansFrom, ih, List.flatten_cons, List.length_append, Nat.add_assoc]

theorem length_spansFrom (o : Nat) (fs : List (List (BitVec 8))) :
    (spansFrom o fs).length = 2 * fs.length := by
  induction fs generalizing o with
  | nil => rfl
  | cons f fs ih =>
    rw [spansFrom, List.length_cons, List.length_cons, ih, List.length_cons]
    omega

theorem getElem?_spansFrom (fs : List (List (BitVec 8))) : ∀ (o k : Nat), k < fs.length →
    (spansFrom o fs)[2 * k]? = some (BitVec.ofNat 32 (o + (fs.take k).flatten.length)) ∧
    (spansFrom o fs)[2 * k + 1]? = some (BitVec.ofNat 32 (o + (fs.take (k + 1)).flatten.length)) := by
  induction fs with
  | nil => exact fun _ _ hk => absurd hk (Nat.not_lt_zero _)
  | cons f fs ih =>
    intro o k hk
    cases k with
    | zero => simp [spansFrom]
    | succ k =>
      obtain ⟨hs, he⟩ := ih (o + f.length) k (Nat.lt_of_succ_lt_succ hk)
      rw [spansFrom, show 2 * (k + 1) = 2 * k + 1 + 1 by omega, List.getElem?_cons_succ,
        List.getElem?_cons_succ, List.getElem?_cons_succ, List.getElem?_cons_succ, hs, he]
      simp [Nat.add_assoc]

/-- What a reader keeps from row to row. -/
structure Holding (d : BitVec 8) (cr : Reader σ) : Prop where
  src : cr.src.Ok
  delim : cr.delim = d.setWidth 32
  data : cr.data.Holds (2 ^ 30)
  spans : cr.spans.Ok
  views : cr.views.Ok

/-- **The reader in the middle of a row.** -/
structure Rep (d : BitVec 8) (cr : Reader σ) (m : Mid) : Prop where
  held : Holding d cr
  state : cr.state = m.st
  bytes : cr.data.bytes = m.fields.flatten ++ m.cur
  fieldStart : cr.fieldStart = BitVec.ofNat 32 m.fields.flatten.length
  elems : cr.spans.elems = spansFrom 0 m.fields

theorem Rep.setState {cr : Reader σ} {m : Mid} (h : Rep d cr m) (st : State) :
    Rep d { cr with state := st } { m with st := st } :=
  ⟨⟨h.held.src, h.held.delim, h.held.data, h.held.spans, h.held.views⟩, rfl, h.bytes, h.fieldStart,
    h.elems⟩

theorem Rep.setSrc {cr : Reader σ} {m : Mid} (h : Rep d cr m) {src : StdStream.Reader σ}
    (hsrc : src.Ok) : Rep d { cr with src := src } m :=
  ⟨⟨hsrc, h.held.delim, h.held.data, h.held.spans, h.held.views⟩, h.state, h.bytes, h.fieldStart,
    h.elems⟩

namespace Reader

variable {cr : Reader σ} {m : Mid}

theorem saveField_sat (h : Rep d cr m) :
    Sat (fun cr' => cr'.src = cr.src ∧ ∀ st, Rep d { cr' with state := st } (m.save st))
      (saveField A cr) := by
  rw [saveField]
  refine sat_bind (Vec.push_sat h.held.spans cr.fieldStart) ?_
  rintro spans₁ ⟨hok₁, helems₁⟩
  refine sat_bind (Vec.push_sat hok₁ cr.data.len) ?_
  rintro spans₂ ⟨hok₂, helems₂⟩
  have hlen : cr.data.len = BitVec.ofNat 32 (m.fields.flatten.length + m.cur.length) := by
    rw [Content.len, arrLen, h.bytes, List.length_append]
  refine ⟨rfl, fun st => ⟨⟨h.held.src, h.held.delim, h.held.data, hok₂, h.held.views⟩, rfl, ?_, ?_, ?_⟩⟩
  · simp only [Mid.save]
    rw [h.bytes, List.flatten_append, List.flatten_singleton, List.append_nil]
  · simp only [Mid.save]
    rw [hlen, List.flatten_append, List.flatten_singleton, List.length_append]
  · simp only [Mid.save]
    rw [helems₂, helems₁, h.elems, h.fieldStart, hlen, spansFrom_append, List.append_assoc, Nat.zero_add]
    rfl

theorem pushByte_sat (h : Rep d cr m) {c : BitVec 8} (hsize : m.size + 1 ≤ 2 ^ 30)
    (hfuel : 2 ^ 31 ≤ fuel) :
    Sat (fun cr' => cr'.src = cr.src ∧ cr'.state = cr.state ∧
        ∀ st, Rep d { cr' with state := st } (m.push st c)) (pushByte A fuel cr (c.setWidth 32)) := by
  rw [pushByte]
  have hlen : cr.data.bytes.length = m.size := by rw [h.bytes, List.length_append, Mid.size]
  refine sat_bind (Content.pushByte_sat h.held.data (by omega) hfuel) ?_
  rintro data ⟨hbytes, hholds⟩
  refine ⟨rfl, rfl, fun st => ⟨⟨h.held.src, h.held.delim, hholds, h.held.spans, h.held.views⟩, rfl, ?_,
    h.fieldStart, h.elems⟩⟩
  simp only [Mid.push]
  rw [hbytes, h.bytes, StdStream.setWidth_setWidth_byte, List.append_assoc]

theorem endField_sat (h : Rep d cr m) (eol : Bool) :
    Sat (fun cr' => cr'.src = cr.src ∧ Rep d cr' (m.save (if eol then .startRecord else .eatCrnl)))
      (endField A cr eol) := by
  rw [endField]
  refine sat_bind (saveField_sat h) ?_
  rintro cr' ⟨hsrc, hrep⟩
  exact ⟨hsrc, hrep _⟩

theorem nextField_sat (h : Rep d cr m) :
    Sat (fun cr' => cr'.src = cr.src ∧ Rep d cr' (m.save .startField)) (nextField A cr) := by
  rw [nextField]
  refine sat_bind (saveField_sat h) ?_
  rintro cr' ⟨hsrc, hrep⟩
  exact ⟨hsrc, hrep _⟩

theorem inField_sat (h : Rep d cr m) {c : BitVec 8} (hsize : m.size + 1 ≤ 2 ^ 30)
    (hfuel : 2 ^ 31 ≤ fuel) :
    Sat (fun cr' => cr'.src = cr.src ∧ Rep d cr' (m.push .inField c))
      (inField A fuel cr (c.setWidth 32)) := by
  rw [inField]
  refine sat_bind (pushByte_sat h hsize hfuel) ?_
  rintro cr' ⟨hsrc, -, hrep⟩
  exact ⟨hsrc, hrep _⟩

/-! ### One character -/

theorem pushHere_sat (h : Rep d cr m) {c : BitVec 8} (hsize : m.size + 1 ≤ 2 ^ 30)
    (hfuel : 2 ^ 31 ≤ fuel) :
    Sat (fun cr' => cr'.src = cr.src ∧ Rep d cr' (m.push m.st c))
      (pushByte A fuel cr (c.setWidth 32)) := by
  refine (pushByte_sat h hsize hfuel).mono ?_
  rintro cr' ⟨hsrc, hstate, hrep⟩
  have hsame : { cr' with state := m.st } = cr' := by rw [← h.state, ← hstate]
  refine ⟨hsrc, ?_⟩
  rw [← hsame]
  exact hrep _

theorem stepIn_sat (h : Rep d cr m) {st : State} (hst : st = m.st ∨ st = .startField) {c : BitVec 8}
    (hsize : (m.stepIn d st c).size ≤ 2 ^ 30) (hfuel : 2 ^ 31 ≤ fuel) :
    Sat (fun cr' => cr'.src = cr.src ∧ Rep d cr' (m.stepIn d st c))
      (stepIn A fuel cr st (c.setWidth 32)) := by
  have heol : (c.setWidth 32 = -1#32) = False := eq_false (word_ne_eol c)
  have hq : (c.setWidth 32 = 34#32) = (c = 34#8) := propext (word_inj (c := 34#8))
  have hlf : (c.setWidth 32 = 10#32) = (c = 10#8) := propext (word_inj (c := 10#8))
  have hcr : (c.setWidth 32 = 13#32) = (c = 13#8) := propext (word_inj (c := 13#8))
  have hd : (c.setWidth 32 = cr.delim) = (c = d) := by rw [h.held.delim, word_inj]
  have hpush : ∀ st', (m.push st' c).size = m.size + 1 := by
    intro st'
    simp only [Mid.push, Mid.size, List.length_append, List.length_singleton]
    omega
  rw [stepIn.eq_def]
  rw [Mid.stepIn.eq_def] at hsize ⊢
  simp only [heol, hq, hlf, hcr, hd, decide_false, Bool.or_false, Bool.or_eq_true, decide_eq_true_eq]
  cases st with
  | startRecord => exact ⟨rfl, h⟩
  | eatCrnl => exact ⟨rfl, h⟩
  | startField =>
    dsimp only at hsize ⊢
    by_cases h₁ : c = 10#8 ∨ c = 13#8
    · rw [if_pos h₁, if_pos h₁]
      exact endField_sat h false
    · rw [if_neg h₁] at hsize ⊢
      rw [if_neg h₁]
      by_cases h₂ : c = 34#8
      · rw [if_pos h₂, if_pos h₂]
        exact ⟨rfl, h.setState _⟩
      · rw [if_neg h₂] at hsize ⊢
        rw [if_neg h₂]
        by_cases h₃ : c = d
        · rw [if_pos h₃, if_pos h₃]
          exact nextField_sat h
        · rw [if_neg h₃] at hsize ⊢
          rw [if_neg h₃]
          rw [hpush] at hsize
          exact inField_sat h hsize hfuel
  | inField =>
    dsimp only at hsize ⊢
    by_cases h₁ : c = 10#8 ∨ c = 13#8
    · rw [if_pos h₁, if_pos h₁]
      exact endField_sat h false
    · rw [if_neg h₁] at hsize ⊢
      rw [if_neg h₁]
      by_cases h₃ : c = d
      · rw [if_pos h₃, if_pos h₃]
        exact nextField_sat h
      · rw [if_neg h₃] at hsize ⊢
        rw [if_neg h₃]
        rw [hpush] at hsize
        rw [show State.inField = m.st from hst.resolve_right (by decide)]
        exact pushHere_sat h hsize hfuel
  | inQuoted =>
    dsimp only at hsize ⊢
    by_cases h₂ : c = 34#8
    · rw [if_pos h₂, if_pos h₂]
      exact ⟨rfl, h.setState _⟩
    · rw [if_neg h₂] at hsize ⊢
      rw [if_neg h₂]
      rw [hpush] at hsize
      rw [show State.inQuoted = m.st from hst.resolve_right (by decide)]
      exact pushHere_sat h hsize hfuel
  | quoteInQuoted =>
    dsimp only at hsize ⊢
    by_cases h₂ : c = 34#8
    · rw [if_pos h₂] at hsize ⊢
      rw [if_pos h₂]
      rw [hpush] at hsize
      refine sat_bind (pushByte_sat h hsize hfuel) ?_
      rintro cr' ⟨hsrc, -, hrep⟩
      exact ⟨hsrc, hrep _⟩
    · rw [if_neg h₂] at hsize ⊢
      rw [if_neg h₂]
      by_cases h₃ : c = d
      · rw [if_pos h₃, if_pos h₃]
        exact nextField_sat h
      · rw [if_neg h₃] at hsize ⊢
        rw [if_neg h₃]
        by_cases h₁ : c = 10#8 ∨ c = 13#8
        · rw [if_pos h₁, if_pos h₁]
          exact endField_sat h false
        · rw [if_neg h₁] at hsize ⊢
          rw [if_neg h₁]
          rw [hpush] at hsize
          exact inField_sat h hsize hfuel

/-- **A character.** -/
theorem step_sat (h : Rep d cr m) {c : BitVec 8} (hsize : (m.step d c).size ≤ 2 ^ 30)
    (hfuel : 2 ^ 31 ≤ fuel) :
    Sat (fun cr' => cr'.src = cr.src ∧ Rep d cr' (m.step d c)) (step A fuel cr (c.setWidth 32)) := by
  have hlf : (c.setWidth 32 = 10#32) = (c = 10#8) := propext (word_inj (c := 10#8))
  have hcr : (c.setWidth 32 = 13#32) = (c = 13#8) := propext (word_inj (c := 13#8))
  rw [step, h.state]
  rw [Mid.step] at hsize ⊢
  by_cases hst : m.st = .startRecord
  · rw [if_pos hst] at hsize ⊢
    rw [if_pos hst, if_neg (word_ne_eol c)]
    simp only [hlf, hcr, Bool.or_eq_true, decide_eq_true_eq]
    by_cases hnew : c = 10#8 ∨ c = 13#8
    · rw [if_pos hnew, if_pos hnew]
      exact ⟨rfl, h.setState _⟩
    · rw [if_neg hnew] at hsize ⊢
      rw [if_neg hnew]
      exact stepIn_sat h (.inr rfl) hsize hfuel
  · rw [if_neg hst] at hsize ⊢
    rw [if_neg hst]
    exact stepIn_sat h (.inl rfl) hsize hfuel

/-- **The line's end.** -/
theorem eol_sat (h : Rep d cr m) :
    Sat (fun cr' => cr'.src = cr.src ∧ Rep d cr' m.eol) (step A fuel cr (-1#32)) := by
  have hq : (-1#32 = 34#32) = False := by decide
  have hd : (-1#32 = cr.delim) = False := by
    rw [h.held.delim]
    exact eq_false (word_ne_eol d).symm
  rw [step, h.state]
  cases hst : m.st with
  | startRecord =>
    rw [if_pos rfl, if_pos rfl, Mid.eol, hst]
    exact ⟨rfl, h⟩
  | startField =>
    rw [if_neg (by decide), stepIn, Mid.eol, hst]
    exact endField_sat h true
  | inField =>
    rw [if_neg (by decide), stepIn, Mid.eol, hst]
    exact endField_sat h true
  | inQuoted =>
    rw [if_neg (by decide), stepIn, Mid.eol, hst]
    exact ⟨rfl, h⟩
  | quoteInQuoted =>
    rw [if_neg (by decide), stepIn, Mid.eol, hst]
    simp only [hq, hd, if_false]
    exact endField_sat h true
  | eatCrnl =>
    rw [if_neg (by decide), stepIn, Mid.eol, hst]
    exact ⟨rfl, h.setState _⟩

/-! ### The row -/

theorem field_slice (fs : List (List (BitVec 8))) {k : Nat} {f : List (BitVec 8)}
    (hf : fs[k]? = some f) :
    (fs.flatten.drop (fs.take k).flatten.length).take f.length = f
      ∧ (fs.take (k + 1)).flatten.length = (fs.take k).flatten.length + f.length := by
  have hk : k < fs.length := (List.getElem?_eq_some_iff.mp hf).1
  have hget : fs[k] = f := (List.getElem?_eq_some_iff.mp hf).2
  have hsplit : fs.flatten = (fs.take k).flatten ++ (f ++ (fs.drop (k + 1)).flatten) := by
    conv_lhs => rw [← List.take_append_drop k fs, List.drop_eq_getElem_cons hk, hget]
    rw [List.flatten_append, List.flatten_cons]
  constructor
  · rw [hsplit, List.drop_left, List.take_left]
  · rw [List.take_succ_eq_append_getElem hk, hget, List.flatten_append, List.flatten_singleton,
      List.length_append]

theorem finish_sat (h : Rep d cr m) (hcur : m.cur = []) (hsize : m.size ≤ 2 ^ 30) (hfuel : 2 ^ 31 ≤ fuel) :
    Sat (fun cr' => Holding d cr' ∧ cr'.src = cr.src ∧ cr'.fields = m.fields) (finish A fuel cr) := by
  have hspans := h.held.spans
  have hlen : cr.spans.elems.length = 2 * m.fields.length := by
    rw [h.elems, length_spansFrom]
  have hle := hspans.le
  have hlt := hspans.lt
  have hn : (cr.spans.len.sdiv 2#32).toNat = m.fields.length := by
    have h2 : (2#32).toNat = 2 := rfl
    rw [toNat_sdiv (by rw [hspans.toNat_len]; omega) (by decide), hspans.toNat_len, hlen, h2]
    omega
  have hbytes : cr.data.bytes = m.fields.flatten := by rw [h.bytes, hcur, List.append_nil]
  have hall : cr.data.bytes.length ≤ 2 ^ 30 := by
    rw [hbytes]
    exact Nat.le_trans (Nat.le_add_right _ _) hsize
  rw [finish]
  refine sat_bind (forLoop_range_sat (by omega) (Nat.zero_le _) (by omega)
    (fun k views => views.Ok ∧ views.elems.map
      (fun v => (cr.data.bytes.drop v.1.toNat).take v.2.toNat) = m.fields.take k) ?_ ?_) ?_
  · exact ⟨h.held.views.clear, rfl⟩
  · rintro k views - hk ⟨hok, hviews⟩
    rw [hn] at hk
    obtain ⟨f, hf⟩ : ∃ f, m.fields[k]? = some f := ⟨_, List.getElem?_eq_getElem hk⟩
    obtain ⟨hslice, hnext⟩ := field_slice m.fields hf
    obtain ⟨hs, he⟩ := getElem?_spansFrom m.fields 0 k hk
    have hk32 : (BitVec.ofNat 32 k).toNat = k := toNat_ofNat_of_lt (by omega)
    have h2 : (2#32).toNat = 2 := rfl
    have h2k : (2#32 * BitVec.ofNat 32 k).toNat = 2 * k := by
      rw [BitVec.toNat_mul, h2, hk32, Nat.mod_eq_of_lt (by omega)]
    have h2k1 : (2#32 * BitVec.ofNat 32 k + 1#32).toNat = 2 * k + 1 := by
      rw [toNat_succ (by omega), h2k]
    -- where the field ends is inside the row's bytes
    have hin : (m.fields.take (k + 1)).flatten.length ≤ cr.data.bytes.length := by
      rw [hbytes]
      conv_rhs => rw [← List.take_append_drop (k + 1) m.fields, List.flatten_append, List.length_append]
      exact Nat.le_add_right _ _
    have hsN : (BitVec.ofNat 32 (0 + (m.fields.take k).flatten.length)).toNat
        = (m.fields.take k).flatten.length := by
      rw [Nat.zero_add]
      exact toNat_ofNat_of_lt (by omega)
    have heN : (BitVec.ofNat 32 (0 + (m.fields.take (k + 1)).flatten.length)).toNat
        = (m.fields.take (k + 1)).flatten.length := by
      rw [Nat.zero_add]
      exact toNat_ofNat_of_lt (by omega)
    have hlenN : (BitVec.ofNat 32 (0 + (m.fields.take (k + 1)).flatten.length)
        - BitVec.ofNat 32 (0 + (m.fields.take k).flatten.length)).toNat = f.length := by
      rw [toNat_sub_of_le (by rw [hsN, heN]; omega), hsN, heN]
      omega
    rw [Vec.at_eq hspans (by rw [h2k, h.elems, hs]), done_bind,
      Vec.at_eq hspans (by rw [h2k1, h.elems, he]), done_bind,
      slice_eq (by omega) (by rw [hsN, hlenN]; omega), done_bind]
    refine (Vec.push_sat hok _).mono ?_
    rintro views' ⟨hok', helems'⟩
    refine ⟨hok', ?_⟩
    have hget : m.fields[k] = f := (List.getElem?_eq_some_iff.mp hf).2
    rw [helems', List.map_append, hviews, List.map_singleton]
    dsimp only
    rw [hsN, hlenN, hbytes, hslice, List.take_succ_eq_append_getElem hk, hget]
  · rintro views ⟨hok, hviews⟩
    rw [hn, List.take_length] at hviews
    exact ⟨⟨h.held.src, h.held.delim, h.held.data, hspans, hok⟩, rfl, hviews⟩

end Reader

/-! ### The size of a row -/

theorem Mid.size_save (m : Mid) (st : State) : (m.save st).size = m.size := by
  simp only [Mid.save, Mid.size, List.flatten_append, List.length_append, List.flatten_singleton,
    List.length_nil]
  omega

theorem Mid.size_push (m : Mid) (st : State) (c : BitVec 8) : (m.push st c).size = m.size + 1 := by
  simp only [Mid.push, Mid.size, List.length_append, List.length_singleton]
  omega

theorem Mid.size_stepIn (m : Mid) (st : State) (c : BitVec 8) : m.size ≤ (m.stepIn d st c).size := by
  rw [Mid.stepIn.eq_def]
  split
  all_goals (repeat' split)
  all_goals first
    | exact le_rfl
    | exact (Mid.size_save _ _).ge
    | exact (Nat.le_succ _).trans_eq (Mid.size_push _ _ _).symm

theorem Mid.size_step (m : Mid) (c : BitVec 8) : m.size ≤ (m.step d c).size := by
  rw [Mid.step]
  split
  · split
    · exact le_rfl
    · exact Mid.size_stepIn m _ c
  · exact Mid.size_stepIn m _ c

theorem Mid.size_eol (m : Mid) : m.eol.size = m.size := by
  rw [Mid.eol]
  split <;> first | exact Mid.size_save _ _ | rfl

/-- Between rows no field is begun. -/
def Mid.Between (m : Mid) : Prop := m.st = .startRecord ∨ m.st = .eatCrnl → m.cur = []

theorem Mid.between_save (m : Mid) (st : State) : (m.save st).Between := fun _ => rfl

theorem Mid.between_of_st {m : Mid} (h : m.st ≠ .startRecord) (h' : m.st ≠ .eatCrnl) : m.Between :=
  fun hc => hc.elim (absurd · h) (absurd · h')

theorem Mid.Between.stepIn {m : Mid} (h : m.Between) {st : State} (hst : st = m.st ∨ st = .startField)
    (c : BitVec 8) : (m.stepIn d st c).Between := by
  rw [Mid.stepIn.eq_def]
  split
  all_goals (repeat' split)
  all_goals first
    | exact Mid.between_save _ _
    | exact h
    | exact Mid.between_of_st nofun nofun

theorem Mid.Between.step {m : Mid} (h : m.Between) (c : BitVec 8) : (m.step d c).Between := by
  rw [Mid.step]
  split
  · split
    · rename_i hst _
      exact fun _ => h (.inl hst)
    · exact h.stepIn (.inr rfl) c
  · exact h.stepIn (.inl rfl) c

theorem Mid.Between.eol {m : Mid} (h : m.Between) : m.eol.Between := by
  rw [Mid.eol]
  split
  · exact Mid.between_save _ _
  · exact Mid.between_save _ _
  · exact Mid.between_save _ _
  · rename_i hst
    exact fun _ => h (.inr hst)
  · exact h
  · exact h

theorem Mid.size_of_cur {m : Mid} (h : m.cur = []) : m.size = m.fields.flatten.length := by
  rw [Mid.size, h, List.length_nil, Nat.add_zero]

theorem Mid.size_endPending (p : Bool) (m : Mid) : (if p = true then m.eol else m).size = m.size := by
  split
  · exact Mid.size_eol m
  · rfl

/-- A row has at least the bytes read of it. -/
theorem size_le_of_parse {row : List (List (BitVec 8))} {t : List (BitVec 8)} :
    ∀ (p : Bool) (m : Mid) (x : List (BitVec 8)), m.Between → parse d p m x = some (row, t) →
      m.size ≤ row.flatten.length := by
  intro p m x
  fun_induction parse d p m x with
  | case1 p m m' hst =>
    intro hm h
    cases h
    have hm' : m'.Between := by
      simp only [m']
      split
      · exact hm.eol
      · exact hm
    have hsize : m'.size = m.size := Mid.size_endPending p m
    rw [← hsize, Mid.size_of_cur (hm' (.inl hst.2))]
  | case2 p m m' _ _ =>
    intro hm h
    cases h
    have hsize : m'.size = m.size := Mid.size_endPending p m
    rw [← hsize, Mid.size, List.flatten_append, List.flatten_singleton, List.length_append]
  | case3 => exact fun _ h => nomatch h
  | case4 p m t' m' hst =>
    intro hm h
    cases h
    have hle := (Mid.size_step m 13#8 (d := d)).trans (Mid.size_step _ 10#8 (d := d))
    have hsize : m'.size = ((m.step d 13#8).step d 10#8).size := Mid.size_eol _
    rw [← hsize, Mid.size_of_cur (((hm.step 13#8).step 10#8).eol (.inl hst))] at hle
    exact hle
  | case5 p m t' m' _ ih =>
    intro hm h
    have hle := (Mid.size_step m 13#8 (d := d)).trans (Mid.size_step _ 10#8 (d := d))
    have hsize : m'.size = ((m.step d 13#8).step d 10#8).size := Mid.size_eol _
    exact (hle.trans hsize.ge).trans (ih ((hm.step 13#8).step 10#8).eol h)
  | case6 p m c t' _ _ m' hst =>
    intro hm h
    cases h
    have hle := Mid.size_step m c (d := d)
    have hsize : m'.size = (m.step d c).size := Mid.size_eol _
    rw [← hsize, Mid.size_of_cur ((hm.step c).eol (.inl hst))] at hle
    exact hle
  | case7 p m c t' _ _ m' _ ih =>
    intro hm h
    have hle := Mid.size_step m c (d := d)
    have hsize : m'.size = (m.step d c).size := Mid.size_eol _
    exact (hle.trans hsize.ge).trans (ih (hm.step c).eol h)
  | case8 p m c t' _ _ ih =>
    intro hm h
    exact (Mid.size_step m c).trans (ih (hm.step c) h)

/-! ### A line break -/

/-- The "\n" behind a "\r" is taken with it. -/
def takeLf (d c : BitVec 8) (m : Mid) (x : List (BitVec 8)) : Mid × List (BitVec 8) :=
  if c = 13#8 ∧ x.head? = some 10#8 then (m.step d 10#8, x.tail) else (m, x)

theorem parse_cons (p : Bool) (m : Mid) (c : BitVec 8) (x : List (BitVec 8)) :
    parse d p m (c :: x) = if c = 10#8 ∨ c = 13#8 then
        if (takeLf d c (m.step d c) x).1.eol.st = .startRecord
        then some ((takeLf d c (m.step d c) x).1.eol.fields, (takeLf d c (m.step d c) x).2)
        else parse d false (takeLf d c (m.step d c) x).1.eol (takeLf d c (m.step d c) x).2
      else parse d true (m.step d c) x := by
  by_cases hbreak : c = 10#8 ∨ c = 13#8
  · rw [if_pos hbreak, takeLf]
    by_cases hcrlf : c = 13#8 ∧ x.head? = some 10#8
    · rw [if_pos hcrlf]
      obtain ⟨rfl, hx⟩ := hcrlf
      obtain ⟨x, rfl⟩ := List.head?_eq_some_iff.mp hx
      exact parse_crlf
    · rw [if_neg hcrlf]
      exact parse_break hbreak fun hc hx => hcrlf ⟨hc, hx⟩
  · rw [if_neg hbreak]
    exact parse_plain (fun h => hbreak (.inl h)) fun h => hbreak (.inr h)

theorem takeLf_size (c : BitVec 8) (m : Mid) (x : List (BitVec 8)) :
    m.size ≤ (takeLf d c m x).1.size := by
  rw [takeLf]
  split
  · exact Mid.size_step m 10#8
  · exact le_rfl

theorem Mid.Between.takeLf {m : Mid} (h : m.Between) (c : BitVec 8) (x : List (BitVec 8)) :
    (takeLf d c m x).1.Between := by
  rw [StdCsv.takeLf]
  split
  · exact h.step 10#8
  · exact h

/-- The bytes read at a line break are no more than the row's. -/
theorem size_of_break {m : Mid} {row : List (List (BitVec 8))} {t x : List (BitVec 8)} (hm : m.Between)
    (h : (if m.eol.st = .startRecord then some (m.eol.fields, x) else parse d false m.eol x)
      = some (row, t)) : m.size ≤ row.flatten.length := by
  rw [← Mid.size_eol]
  by_cases hst : m.eol.st = .startRecord
  · rw [if_pos hst] at h
    cases h
    rw [Mid.size_of_cur (hm.eol (.inl hst))]
  · rw [if_neg hst] at h
    exact size_le_of_parse _ _ _ hm.eol h

/-! ### The next row -/

namespace Reader

variable {cr : Reader σ} {m : Mid} {row : List (List (BitVec 8))} {t x : List (BitVec 8)}

theorem readNext_sat {r : StdStream.Reader σ} (h : r.Ok) (hfuel : 2 ^ 31 ≤ fuel) :
    Sat (fun x => x.2.Ok ∧ ((r.rest = [] ∧ x.1 = -1#32 ∧ x.2.rest = [])
        ∨ ∃ c, r.rest = c :: x.2.rest ∧ x.1 = c.setWidth 32)) (r.readByte A fuel) := by
  refine (StdStream.Reader.readByte_sat (τ := Unit) h hfuel).mono ?_
  rintro ⟨c, r'⟩ ⟨hok, p, hp, htakes⟩
  dsimp only at hok hp htakes ⊢
  refine ⟨hok, ?_⟩
  generalize r'.rest = rest at hp htakes
  cases htakes with
  | noByte => exact .inl ⟨hp, rfl, rfl⟩
  | byte b => exact .inr ⟨b, hp, rfl⟩

theorem peekNext_sat {r : StdStream.Reader σ} (h : r.Ok) (hfuel : 2 ^ 31 ≤ fuel) :
    Sat (fun x => x.2.Ok ∧ x.2.rest = r.rest ∧ (x.1 = 10#32 ↔ r.rest.head? = some 10#8))
      (r.peekByte A fuel) := by
  refine (StdStream.Reader.peekByte_sat h hfuel).mono ?_
  rintro ⟨c, r'⟩ ⟨hok, hrest, hfirst⟩
  dsimp only at hok hrest hfirst ⊢
  refine ⟨hok, hrest, ?_⟩
  rw [← hrest]
  rcases hfirst with ⟨rfl, hnil⟩ | ⟨b, rfl, -, hcons⟩
  · rw [hnil]
    simp
  · rw [hcons, List.head?_cons, Option.some_inj]
    exact word_inj (c := 10#8)

theorem takeNewline_sat (h : Rep d cr m) (c : BitVec 8)
    (hsize : (takeLf d c m cr.src.rest).1.size ≤ 2 ^ 30) (hfuel : 2 ^ 31 ≤ fuel) :
    Sat (fun cr' => Rep d cr' (takeLf d c m cr.src.rest).1
        ∧ cr'.src.rest = (takeLf d c m cr.src.rest).2) (takeNewline A fuel cr (c.setWidth 32)) := by
  have hcr : (c.setWidth 32 = 13#32) = (c = 13#8) := propext (word_inj (c := 13#8))
  rw [takeNewline]
  rw [takeLf] at hsize ⊢
  simp only [hcr]
  by_cases hc : c = 13#8
  · rw [if_pos hc]
    refine sat_bind (peekNext_sat h.held.src hfuel) ?_
    rintro ⟨next, src⟩ ⟨hok, hrest, hnext⟩
    dsimp only at hok hrest hnext ⊢
    by_cases hlf : cr.src.rest.head? = some 10#8
    · rw [if_pos ⟨hc, hlf⟩] at hsize ⊢
      rw [if_pos (hnext.mpr hlf)]
      refine sat_bind (readNext_sat hok hfuel) ?_
      rintro ⟨c', src'⟩ ⟨hok', hread⟩
      dsimp only at hok' hread ⊢
      have htail : src'.rest = cr.src.rest.tail := by
        rcases hread with ⟨hnil, -, -⟩ | ⟨b, hcons, -⟩
        · rw [← hrest, hnil] at hlf
          cases hlf
        · rw [← hrest, hcons, List.tail_cons]
      refine (step_sat (h.setSrc hok') (c := 10#8) hsize hfuel).mono ?_
      rintro cr' ⟨hsrc, hrep⟩
      exact ⟨hrep, by rw [hsrc]; exact htail⟩
    · rw [if_neg fun hboth => hlf hboth.2, if_neg fun heq => hlf (hnext.mp heq)]
      exact ⟨h.setSrc hok, hrest⟩
  · rw [if_neg hc, if_neg fun hboth => hc hboth.1]
    exact ⟨h, rfl⟩

/-- The row has been read, and `t` is left. -/
structure RowRead (d : BitVec 8) (row : List (List (BitVec 8))) (t : List (BitVec 8))
    (x : Bool × Reader σ) : Prop where
  more : x.1 = true
  held : Holding d x.2
  fields : x.2.fields = row
  rest : x.2.src.rest = t

/-- The row and `t` are what is to come. -/
def Ahead (d : BitVec 8) (row : List (List (BitVec 8))) (t : List (BitVec 8))
    (x : Bool × Reader σ) : Prop :=
  ∃ m, Rep d x.2 m ∧ m.Between ∧ parse d x.1 m x.2.src.rest = some (row, t)

theorem afterByte_sat (h : Rep d cr m) (hm : m.Between) {c : BitVec 8}
    (hparse : (if c = 10#8 ∨ c = 13#8 then
        if m.eol.st = .startRecord then some (m.eol.fields, cr.src.rest)
        else parse d false m.eol cr.src.rest
      else parse d true m cr.src.rest) = some (row, t)) (hsize : row.flatten.length ≤ 2 ^ 30)
    (hfuel : 2 ^ 31 ≤ fuel) :
    Sat (Sum.elim (fun y => Ahead d row t y ∧ y.2.src.rest = cr.src.rest) (RowRead d row t))
      (afterByte A fuel cr (c.setWidth 32)) := by
  have hlf : (c.setWidth 32 = 10#32) = (c = 10#8) := propext (word_inj (c := 10#8))
  have hcr : (c.setWidth 32 = 13#32) = (c = 13#8) := propext (word_inj (c := 13#8))
  rw [afterByte]
  simp only [hlf, hcr, Bool.or_eq_true, decide_eq_true_eq]
  by_cases hbreak : c = 10#8 ∨ c = 13#8
  · rw [if_pos hbreak] at hparse ⊢
    have hmsize := size_of_break hm hparse
    refine sat_bind (eol_sat h) ?_
    rintro cr' ⟨hsrc, hrep⟩
    by_cases hst : m.eol.st = .startRecord
    · rw [if_pos hst] at hparse
      cases hparse
      rw [if_pos (hrep.state.trans hst)]
      refine sat_bind (finish_sat hrep (hm.eol (.inl hst)) ?_ hfuel) ?_
      · rw [Mid.size_eol]
        exact hmsize.trans hsize
      · rintro cr'' ⟨hheld, hsrc', hfields⟩
        exact ⟨rfl, hheld, hfields, by dsimp only; rw [hsrc', hsrc]⟩
    · rw [if_neg hst] at hparse
      rw [if_neg fun hc => hst (hrep.state.symm.trans hc)]
      refine ⟨⟨m.eol, hrep, hm.eol, ?_⟩, ?_⟩
      · dsimp only
        rw [hsrc]
        exact hparse
      · dsimp only
        rw [hsrc]
  · rw [if_neg hbreak] at hparse ⊢
    exact ⟨⟨m, h, hm, hparse⟩, rfl⟩

/-- **A character** of a row. -/
theorem onByte_sat (h : Rep d cr m) (hm : m.Between) {c : BitVec 8} {p : Bool}
    (hparse : parse d p m (c :: cr.src.rest) = some (row, t)) (hsize : row.flatten.length ≤ 2 ^ 30)
    (hfuel : 2 ^ 31 ≤ fuel) :
    Sat (Sum.elim (fun y => Ahead d row t y ∧ y.2.src.rest.length ≤ cr.src.rest.length) (RowRead d row t))
      (onByte A fuel cr (c.setWidth 32)) := by
  rw [parse_cons] at hparse
  have hlf : (takeLf d c (m.step d c) cr.src.rest).1.size ≤ 2 ^ 30 := by
    by_cases hbreak : c = 10#8 ∨ c = 13#8
    · rw [if_pos hbreak] at hparse
      exact (size_of_break ((hm.step c).takeLf c _) hparse).trans hsize
    · rw [if_neg hbreak] at hparse
      rw [takeLf, if_neg fun hc => hbreak (.inr hc.1)]
      exact (size_le_of_parse _ _ _ (hm.step c) hparse).trans hsize
  have hstep := (takeLf_size c (m.step d c) cr.src.rest).trans hlf
  rw [onByte]
  refine sat_bind (step_sat h hstep hfuel) ?_
  rintro cr₁ ⟨hsrc, hrep⟩
  rw [← hsrc] at hparse hlf ⊢
  refine sat_bind (takeNewline_sat hrep c hlf hfuel) ?_
  rintro cr₂ ⟨hrep₂, hrest₂⟩
  have hle : cr₂.src.rest.length ≤ cr₁.src.rest.length := by
    rw [hrest₂, takeLf]
    split
    · rw [List.length_tail]
      exact Nat.sub_le _ _
    · exact le_rfl
  have hparse' : (if c = 10#8 ∨ c = 13#8 then
      if (takeLf d c (m.step d c) cr₁.src.rest).1.eol.st = .startRecord
      then some ((takeLf d c (m.step d c) cr₁.src.rest).1.eol.fields, cr₂.src.rest)
      else parse d false (takeLf d c (m.step d c) cr₁.src.rest).1.eol cr₂.src.rest
    else parse d true (takeLf d c (m.step d c) cr₁.src.rest).1 cr₂.src.rest) = some (row, t) := by
    rw [hrest₂]
    by_cases hbreak : c = 10#8 ∨ c = 13#8
    · rw [if_pos hbreak] at hparse ⊢
      exact hparse
    · rw [if_neg hbreak] at hparse ⊢
      rw [takeLf, if_neg fun hc => hbreak (.inr hc.1)]
      exact hparse
  refine (afterByte_sat hrep₂ ((hm.step c).takeLf c _) hparse' hsize hfuel).mono ?_
  rintro (y | y) hy
  · exact ⟨hy.1, by rw [hy.2]; exact hle⟩
  · exact hy

theorem endPending_sat (h : Rep d cr m) (p : Bool) :
    Sat (fun cr' => cr'.src = cr.src ∧ Rep d cr' (if p then m.eol else m)) (endPending A fuel cr p) := by
  rw [endPending]
  cases p with
  | true => exact eol_sat h
  | false => exact ⟨rfl, h⟩

theorem fieldLen_pos (h : Rep d cr m) (hsize : m.size ≤ 2 ^ 30) :
    (0#32).slt cr.fieldLen = true ↔ m.cur ≠ [] := by
  have hlen : cr.data.len = BitVec.ofNat 32 (m.fields.flatten.length + m.cur.length) := by
    rw [Content.len, arrLen, h.bytes, List.length_append]
  rw [Mid.size] at hsize
  have hlenN : cr.data.len.toNat = m.fields.flatten.length + m.cur.length := by
    rw [hlen, toNat_ofNat_of_lt (by omega)]
  have hstartN : cr.fieldStart.toNat = m.fields.flatten.length := by
    rw [h.fieldStart, toNat_ofNat_of_lt (by omega)]
  have hfield : cr.fieldLen.toNat = m.cur.length := by
    rw [fieldLen, toNat_sub_of_le (by omega)]
    omega
  rw [zero_slt_iff (by omega), hfield]
  exact List.length_pos_iff

/-- **The end of the input**, when it ends a row. -/
theorem atEnd_sat (h : Rep d cr m) (hm : m.Between) {p : Bool} (hnil : cr.src.rest = [])
    (hparse : parse d p m [] = some (row, t)) (hsize : row.flatten.length ≤ 2 ^ 30)
    (hfuel : 2 ^ 31 ≤ fuel) : Sat (RowRead d row t) (atEnd A fuel cr p) := by
  have hmsize := (size_le_of_parse _ _ _ hm hparse).trans hsize
  have hm' : (if p = true then m.eol else m).Between := by
    split
    · exact hm.eol
    · exact hm
  rw [← Mid.size_endPending p m] at hmsize
  rw [parse] at hparse
  rw [atEnd]
  refine sat_bind (endPending_sat h p) ?_
  rintro cr' ⟨hsrc, hrep⟩
  generalize (if p = true then m.eol else m) = m' at hrep hparse hm' hmsize
  rw [hrep.state, if_congr (or_congr_left (fieldLen_pos hrep hmsize)) rfl rfl]
  by_cases hend : p = true ∧ m'.st = .startRecord
  · rw [if_pos hend] at hparse ⊢
    cases hparse
    refine sat_bind (finish_sat hrep (hm' (.inl hend.2)) hmsize hfuel) ?_
    rintro cr'' ⟨hheld, hsrc', hfields⟩
    exact ⟨rfl, hheld, hfields, by dsimp only; rw [hsrc', hsrc, hnil]⟩
  · rw [if_neg hend] at hparse ⊢
    by_cases hlast : m'.cur ≠ [] ∨ m'.st = .inQuoted
    · rw [if_pos hlast] at hparse ⊢
      cases hparse
      refine sat_bind (saveField_sat hrep) ?_
      rintro cr₁ ⟨hsrc₁, hrep₁⟩
      have hsame : { cr₁ with state := cr₁.state } = cr₁ := rfl
      have hsaved : (m'.save cr₁.state).size ≤ 2 ^ 30 := by rwa [Mid.size_save]
      refine sat_bind (finish_sat (hsame ▸ hrep₁ cr₁.state) rfl hsaved hfuel) ?_
      rintro cr₂ ⟨hheld, hsrc₂, hfields⟩
      exact ⟨rfl, hheld, hfields, by dsimp only; rw [hsrc₂, hsrc₁, hsrc, hnil]⟩
    · rw [if_neg hlast] at hparse
      cases hparse

/-- The end of the input, with no field begun. -/
theorem atEnd_none (h : Rep d cr m) (hcur : m.cur = []) (hst : m.st ≠ .inQuoted)
    (hsize : m.size ≤ 2 ^ 30) : Sat (fun y => y.1 = false) (atEnd A fuel cr false) := by
  rw [atEnd]
  refine sat_bind (endPending_sat h false) ?_
  rintro cr' ⟨-, hrep⟩
  rw [if_neg (by simp)] at hrep
  rw [if_neg (by simp), if_neg]
  · rfl
  · rw [fieldLen_pos hrep hsize, hrep.state]
    rintro (hne | hquoted)
    · exact hne hcur
    · exact hst hquoted

theorem rowRound_sat {x : Bool × Reader σ} (hx : Ahead d row t x) (hsize : row.flatten.length ≤ 2 ^ 30)
    (hfuel : 2 ^ 31 ≤ fuel) :
    Sat (Sum.elim (fun y => Ahead d row t y ∧ y.2.src.rest.length < x.2.src.rest.length) (RowRead d row t))
      (rowRound A fuel x) := by
  obtain ⟨p, cr⟩ := x
  obtain ⟨m, hrep, hm, hparse⟩ := hx
  dsimp only at hrep hparse ⊢
  rw [rowRound]
  refine sat_bind (readNext_sat hrep.held.src hfuel) ?_
  rintro ⟨c, src⟩ ⟨hok, hread⟩
  dsimp only at hok hread ⊢
  rcases hread with ⟨hnil, rfl, hnil'⟩ | ⟨b, hcons, rfl⟩
  · rw [if_pos (by decide)]
    rw [hnil] at hparse
    exact sat_bind (atEnd_sat (hrep.setSrc hok) hm hnil' hparse hsize hfuel) fun y hy => hy
  · have hb := StdStream.Reader.toNat_byte_lt b
    rw [if_neg (by rw [not_slt_zero (by omega)]; simp)]
    rw [hcons] at hparse
    refine (onByte_sat (hrep.setSrc hok) hm hparse hsize hfuel).mono ?_
    rintro (y | y) hy
    · refine ⟨hy.1, Nat.lt_of_le_of_lt hy.2 ?_⟩
      rw [hcons]
      exact Nat.lt_succ_self _
    · exact hy

/-- The reader as `next_row` starts with it. -/
theorem Rep.start {cr : Reader σ} (h : Holding d cr) :
    Rep d { cr with
      data := cr.data.clear
      spans := cr.spans.clear
      fieldStart := 0#32
      state := .startRecord } ⟨.startRecord, [], []⟩ :=
  ⟨⟨h.src, h.delim, h.data, h.spans.clear, h.views⟩, rfl, rfl, rfl, rfl⟩

/-- **`next_row` finds the row that the rest of the input starts with.** -/
theorem nextRow_sat (h : Holding d cr)
    (hparse : parse d false ⟨.startRecord, [], []⟩ cr.src.rest = some (row, t))
    (hsize : row.flatten.length ≤ 2 ^ 30) (hfuel : 2 ^ 31 ≤ fuel) (hrest : cr.src.rest.length < fuel) :
    Sat (RowRead d row t) (nextRow A fuel cr) := by
  rw [nextRow]
  exact iterate_sat (Ahead d row t) (RowRead d row t) (fun y => y.2.src.rest.length)
    (fun y hy => rowRound_sat hy hsize hfuel) fuel _
    ⟨_, Rep.start h, fun _ => rfl, hparse⟩ hrest

/-- **At the end there is no row.** -/
theorem nextRow_done (h : Holding d cr) (hnil : cr.src.rest = []) (hfuel : 2 ^ 31 ≤ fuel) :
    Sat (fun y => y.1 = false) (nextRow A fuel cr) := by
  obtain ⟨f, hf⟩ : ∃ f, fuel = f + 1 := ⟨fuel - 1, by omega⟩
  have hrep := Rep.start h
  rw [nextRow]
  conv => arg 2; arg 2; rw [hf]
  rw [iterate, rowRound]
  refine sat_bind (sat_bind (readNext_sat hrep.held.src hfuel) ?_) fun r hr => hr
  rintro ⟨c, src⟩ ⟨hok, hread⟩
  dsimp only at hok hread ⊢
  rcases hread with ⟨-, rfl, -⟩ | ⟨b, hcons, -⟩
  · rw [if_pos (by decide)]
    exact sat_bind (atEnd_none (hrep.setSrc hok) rfl (by decide) (Nat.zero_le _)) fun y hy => hy
  · rw [hnil] at hcons
    cases hcons

end Reader

end Aipl.StdCsv
