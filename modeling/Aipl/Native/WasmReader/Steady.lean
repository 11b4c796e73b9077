import Aipl.Lib.Reading.Ends
import Aipl.Native.WasmReader.Decode

/-! # Decoding a wasm module — every loop reads on, and what the ideal returns lies in the module

* `byte_live`, `byte_dead` — a byte is read, or the cursor stays and has failed.
* `steady_sections`, `steady_readBody` — a round that goes on has read a byte of the module.
* `Slice` — a span of the module's bytes, of a length that is not negative.
* `Placed` — every name, function body and data segment of a module is one.
* `gives_sections` — so the ideal's section loop returns.
-/

namespace Aipl.WasmReader

section

open Aipl.Lib Aipl.Lib.Outcome Aipl.Lib.Reading

variable {mem : BitVec 32 → BitVec 8} {b : Bytes} {room : Nat} {short : b.len.toNat < 2 ^ 31}

theorem ideal_bind {i : Input} {α β : Type} (p : Reading α) (f : α → Reading β) (c : Cursor) :
    (p >>= f).ideal i room c = p.ideal i room c >>= fun x => (f x.1).ideal i room x.2 := rfl

/-- The cursor may read a byte. -/
def Live (b : Bytes) (c : Cursor) : Prop := c.failed = false ∧ c.pos < b.len.toNat

theorem Fit.sle_iff {c : Cursor} (hc : Fit room c) (short : b.len.toNat < 2 ^ 31) :
    b.len.sle (BitVec.ofNat 32 c.pos) = true ↔ b.len.toNat ≤ c.pos := by
  have hshort := hc.short
  have hpos : (BitVec.ofNat 32 c.pos).toNat = c.pos := toNat_ofNat_of_lt (by omega)
  rw [Lib.sle_iff short (by omega), hpos]

theorem byte_live (mem : BitVec 32 → BitVec 8) (short : b.len.toNat < 2 ^ 31) {c : Cursor} (hc : Fit room c) (h : Live b c) :
    ∃ v, (byte b).ideal (input mem b short) room c = done (v, { c with pos := c.pos + 1 }) := by
  have hle := Fit.sle_iff hc short
  have hlt := h.2
  refine ⟨((input mem b short).byteAt (BitVec.ofNat 32 c.pos)).setWidth 32, ?_⟩
  simp only [byte, ideal_bind, ideal, done_bind]
  rw [h.1, Bool.false_or, if_neg (by rw [hle]; omega), ideal, if_pos (show c.pos < (input mem b short).len.toNat from h.2), h.1]

theorem byte_dead {c : Cursor} (hc : Fit room c) (h : ¬ Live b c) :
    (byte b).ideal (input mem b short) room c = done (0#32, { c with failed := true }) := by
  have hle := Fit.sle_iff hc short
  simp only [byte, ideal_bind, ideal, done_bind]
  by_cases hfailed : c.failed = true
  · rw [hfailed, Bool.true_or, if_pos rfl]
    rfl
  · rw [Bool.not_eq_true] at hfailed
    have hge : b.len.toNat ≤ c.pos := Nat.le_of_not_lt fun hlt => h ⟨hfailed, hlt⟩
    rw [hfailed, Bool.false_or, if_pos (hle.mpr hge)]
    rfl

/-- What follows a byte from a live cursor ends behind the byte. -/
theorem pos_lt_of_byte (hroom : room < 2 ^ 31 - 1) {α : Type} {f : BitVec 32 → Reading α} {c c' : Cursor} {a : α}
    (hc : Fit room c) (hlive : Live b c)
    (h : (byte b >>= f).ideal (input mem b short) room c = done (a, c')) : c.pos < c'.pos := by
  obtain ⟨⟨v, c₁⟩, hv, hf⟩ := bind_eq_done h
  have hfit := ideal_fits hroom hc hv
  have hrest := (ideal_fits hroom hfit.2 hf).1
  obtain ⟨v', hbyte⟩ := byte_live mem short hc hlive
  rw [hbyte] at hv
  cases hv
  exact hrest

theorem pos_lt_of_bind (hroom : room < 2 ^ 31 - 1) {i : Input} {α β : Type} {p : Reading α} {f : α → Reading β}
    {c c' : Cursor} {x : β} (hc : Fit room c) (hp : ∀ a c₁, p.ideal i room c = done (a, c₁) → c.pos < c₁.pos)
    (h : (p >>= f).ideal i room c = done (x, c')) : c.pos < c'.pos := by
  obtain ⟨⟨a, c₁⟩, ha, hf⟩ := bind_eq_done h
  exact (hp a c₁ ha).trans_le (ideal_fits hroom (ideal_fits hroom hc ha).2 hf).1

/-- A round that begins with a byte, and goes on only if there was one. -/
theorem reads_on (hroom : room < 2 ^ 31 - 1) {ρ σ : Type} {f : BitVec 32 → Reading (σ ⊕ ρ)}
    (hdead : ∀ c s' c', Fit room c → c.failed = true →
      (f 0#32).ideal (input mem b short) room c ≠ done (.inl s', c'))
    {c c' : Cursor} {s' : σ} (hc : Fit room c)
    (h : (byte b >>= f).ideal (input mem b short) room c = done (.inl s', c')) :
    c.pos < c'.pos ∧ c.pos < (input mem b short).len.toNat := by
  by_cases hlive : Live b c
  · exact ⟨pos_lt_of_byte hroom hc hlive h, hlive.2⟩
  · rw [ideal_bind, byte_dead hc hlive, done_bind] at h
    exact absurd h (hdead _ s' c' ⟨hc.short, hc.fits⟩ rfl)

@[simp] theorem steady_fail {i : Input} {msg : String} : Steady i room (fail msg) := trivial

@[simp] theorem steady_failIf {i : Input} {c : Prop} [Decidable c] {msg : String} :
    Steady i room (failIf c msg) := by
  simp [failIf]

@[simp] theorem steady_byte : Steady (input mem b short) room (byte b) := by
  simp [byte]

theorem steady_push {T : Type} {count : BitVec 32} {entry : Reading T}
    (h : Steady (input mem b short) room entry) : Steady (input mem b short) room (push count entry) := by
  simp [push, h]

theorem steady_valtype : Steady (input mem b short) room (valtype b) := by
  simp [valtype]

section Numbers

variable (hroom : room < 2 ^ 31 - 1)
include hroom

theorem steady_u32 : Steady (input mem b short) room (u32 b) := by
  refine fun s => ⟨?_, fun c s' c' hc h => reads_on hroom ?_ hc h⟩
  · simp [u32Round]
  · intro c s' c' _ _ h
    cases h

theorem steady_s32 : Steady (input mem b short) room (s32 b) := by
  refine ⟨fun s => ⟨?_, fun c s' c' hc h => reads_on hroom ?_ hc h⟩, fun _ => trivial⟩
  · simp [s32Round]
  · intro c s' c' _ _ h
    cases h

theorem steady_s64 : Steady (input mem b short) room (s64 b) := by
  refine ⟨fun s => ⟨?_, fun c s' c' hc h => reads_on hroom ?_ hc h⟩, fun _ => trivial⟩
  · simp [s64Round]
  · intro c s' c' _ _ h
    cases h

end Numbers

section Pieces

variable (hroom : room < 2 ^ 31 - 1)
include hroom

theorem steady_name : Steady (input mem b short) room (name b) := by
  simp [name, steady_u32 hroom]

theorem steady_readLines {w : Wasm} {end_ : BitVec 32} :
    Steady (input mem b short) room (readLines b w end_) := by
  simp [readLines, lineFile, lineFn, lineEntry, steady_u32 hroom, steady_s32 hroom, steady_name hroom]

theorem steady_limits : Steady (input mem b short) room (limits b) := by
  simp [limits, steady_u32 hroom]

theorem steady_constExpr : Steady (input mem b short) room (constExpr b) := by
  simp [constExpr, constValue, steady_s32 hroom, steady_s64 hroom]

omit hroom in
theorem ideal_u32_failed {c : Cursor} (hc : Fit room c) (h : c.failed = true) :
    (u32 b).ideal (input mem b short) room c = done (0#32, c) := by
  have hdead : ¬ Live b c := fun hlive => absurd h (by rw [hlive.1]; decide)
  have hbyte : (byte b).ideal (input mem b short) room c = done (0#32, c) := by
    rw [byte_dead hc hdead, ← h]
  rw [u32, ideal, loopIdeal, u32Round, ideal_bind, hbyte, done_bind]
  dsimp only
  rw [if_pos (by decide)]
  rfl

/-- A subsection that is not the last one begins with a byte of the module. -/
theorem steady_subsection {w : Wasm} {end_ : BitVec 32} :
    Steady (input mem b short) room (.loop (subsection b end_) w) := by
  refine fun w => ⟨?_, fun c w' c' hc h => ?_⟩
  · simp [subsection, fnName, steady_u32 hroom, steady_name hroom]
  · rw [subsection, ideal_bind, ideal, done_bind] at h
    dsimp only at h
    split at h
    · cases h
    · refine reads_on hroom ?_ hc h
      intro c s' c' hc hfailed h
      rw [ideal_bind, ideal_u32_failed hc hfailed, done_bind, ideal_bind, ideal, done_bind, ideal_bind, ideal,
        done_bind] at h
      simp only [hfailed, Bool.true_or, if_true] at h
      cases h

theorem steady_readCustom {w : Wasm} {end_ : BitVec 32} :
    Steady (input mem b short) room (readCustom mem b w end_) := by
  simp [readCustom, steady_name hroom, steady_readLines hroom, steady_subsection hroom]

theorem steady_section {id end_ : BitVec 32} {w : Wasm} :
    Steady (input mem b short) room (section_ mem b id end_ w) := by
  simp only [section_, steady_ite, steady_bind, steady_readCustom hroom, readTypes, funcType, readImports, import_,
    readFunctions, readTables, table, readMemories, readGlobals, global, readExports, export_, readElems, elem,
    readCode, range, readDatas, data, dataOffset, steady_u32 hroom, steady_name hroom, steady_limits hroom,
    steady_constExpr hroom, steady_valtype, steady_push, steady_byte, steady_fail, steady_failIf, steady_pos, steady_skip,
    steady_seek, steady_pure, steady_times, implies_true, and_self]

omit hroom in
theorem steady_differ : ∀ xs : List (BitVec 32), Steady (input mem b short) room (differ b xs)
  | [] => trivial
  | x :: xs => by simp [differ, steady_differ xs]

omit hroom in
/-- The guard of the section loop and of a body's loop: a cursor before an end of the module is live. -/
theorem live_of_guard {c : Cursor} {end_ : BitVec 32} (hc : Fit room c) (hend : end_.toInt ≤ b.len.toNat)
    (h : ((BitVec.ofNat 32 c.pos).slt end_ && !c.failed) = true) : Live b c := by
  have hshort := hc.short
  have hpos : (BitVec.ofNat 32 c.pos).toNat = c.pos := toNat_ofNat_of_lt (by omega)
  rw [Bool.and_eq_true, BitVec.slt_eq_decide, decide_eq_true_eq, toInt_eq_toNat (by omega), hpos,
    Bool.not_eq_true'] at h
  exact ⟨h.2, by omega⟩

theorem steady_sections : Steady (input mem b short) room (sections mem b) := by
  have hround : Steady (input mem b short) room (.loop (sectionRound mem b) emptyModule) := by
    refine fun w => ⟨?_, fun c w' c' hc h => ?_⟩
    · simp [sectionRound, sectionBody, steady_u32 hroom, steady_section hroom]
    · rw [sectionRound, ideal_bind, ideal, done_bind, ideal_bind, ideal, done_bind] at h
      dsimp only at h
      split at h
      · rename_i hguard
        have hlive : Live b c := live_of_guard hc (by rw [toInt_eq_toNat short]) hguard
        exact ⟨pos_lt_of_byte hroom hc hlive h, hlive.2⟩
      · cases h
  simp [sections, steady_differ, hround]

/-- A body that ends in the module. -/
theorem steady_readBody {start end_ : BitVec 32} (hend : end_.toInt ≤ b.len.toNat) :
    Steady (input mem b short) room (readBody b start end_) := by
  have hfloat : ∀ (n k : Nat) (bits : BitVec 64), Steady (input mem b short) room (floatBits b n k bits) := by
    intro n
    induction n with
    | zero => exact fun _ _ => trivial
    | succ n ih => exact fun k bits => by simp [floatBits, ih]
  have hround : ∀ codeStart, Steady (input mem b short) room (.loop (codeRound b codeStart end_) []) := by
    refine fun codeStart code => ⟨?_, fun c w' c' hc h => ?_⟩
    · simp [codeRound, readInstr, opcode, failOp, steady_u32 hroom, steady_s32 hroom, steady_s64 hroom, hfloat]
    · rw [codeRound, ideal_bind, ideal, done_bind, ideal_bind, ideal, done_bind] at h
      dsimp only at h
      split at h
      · rename_i hguard
        have hlive : Live b c := live_of_guard hc hend hguard
        refine ⟨pos_lt_of_bind hroom hc (fun ins c₁ hins => ?_) h, hlive.2⟩
        rw [readInstr, ideal_bind, ideal, done_bind] at hins
        exact pos_lt_of_bind hroom hc (fun _ _ hop => pos_lt_of_byte hroom hc hlive hop) hins
      · cases h
  simp [readBody, locals, steady_u32 hroom, steady_valtype, steady_push, hround]

end Pieces

end

/-! ## What is read lies in the module -/

section

open Aipl.Lib Aipl.Lib.Outcome Aipl.Lib.Reading

/-- A slice of the bytes. -/
def Slice (b s : Bytes) : Prop :=
  0 ≤ s.len.toInt ∧ ∃ start : Nat, s.addr = b.addr + BitVec.ofNat 32 start ∧ start + s.len.toNat ≤ b.len.toNat

/-- A name: a slice, or the empty name that a failed read gives. -/
def Named (b s : Bytes) : Prop := s = ⟨0#32, 0#32⟩ ∨ Slice b s

structure Placed (b : Bytes) (w : Wasm) : Prop where
  imports : ∀ m ∈ w.imports, Named b m.module ∧ Named b m.name
  exports : ∀ e ∈ w.exports, Named b e.name
  names : ∀ n ∈ w.names, Named b n.name
  lineFiles : ∀ f ∈ w.lineFiles, Named b f
  bodies : ∀ s ∈ w.bodies, Slice b s
  datas : ∀ d ∈ w.datas, Slice b d.bytes

theorem placed_emptyModule (b : Bytes) : Placed b emptyModule := by
  constructor <;> exact fun _ h => absurd h List.not_mem_nil

variable {mem : BitVec 32 → BitVec 8} {b : Bytes} {room : Nat} {short : b.len.toNat < 2 ^ 31}

/-- The check of a length, and the move by it: where both pass, the length's span is a slice. -/
theorem gives_slice {α : Type} {n : BitVec 32} {msg : String} {x : α} {g : Bytes → α} {Q : α → Prop} (hx : Q x)
    (hg : ∀ s, Slice b s → Q (g s)) : Gives (input mem b short) room
      (do
        let pos ← .pos
        if b.len.slt (pos + n) then do
          fail msg
          pure x
        else do
          .skip n
          pure (g ⟨b.addr + pos, n⟩)) Q := by
  intro c a c' hc h
  rw [ideal_bind, ideal, done_bind] at h
  dsimp only at h
  split at h
  · cases h
    exact hx
  · rename_i hle
    rw [ideal_bind, ideal] at h
    split at h
    · rename_i hlt
      cases h
      have hshort := hc.short
      have hpos : (BitVec.ofNat 32 c.pos).toNat = c.pos := toNat_ofNat_of_lt (by omega)
      have hsum : (BitVec.ofNat 32 c.pos + n).toNat = c.pos + n.toNat := by
        rw [toNat_add_of_lt (by omega), hpos]
      rw [slt_iff short (by omega), hsum] at hle
      refine hg _ ⟨?_, c.pos, rfl, ?_⟩
      · dsimp only
        rw [toInt_eq_toNat (by omega)]
        omega
      · dsimp only
        omega
    · cases h

section Readers

variable (hroom : room < 2 ^ 31 - 1)
include hroom

theorem gives_name : Gives (input mem b short) room (name b) (Named b) :=
  gives_then hroom fun _ => gives_slice (g := id) (.inl rfl) fun _ hs => .inr hs

theorem gives_push {T : Type} {count : BitVec 32} {entry : Reading T} {Q : T → Prop}
    (h : Gives (input mem b short) room entry Q) :
    Gives (input mem b short) room (push count entry) fun xs => ∀ x ∈ xs, Q x := by
  refine gives_bind hroom (gives_times hroom (Q := Q) fun _ => ?_) fun entries hentries => gives_pure hentries
  refine gives_bind hroom h fun x hx => gives_pure fun y hy => ?_
  cases hy
  exact hx

theorem gives_import : Gives (input mem b short) room (import_ b)
    fun m => Named b m.module ∧ Named b m.name := by
  refine gives_bind hroom (gives_name hroom) fun module hmodule => ?_
  refine gives_bind hroom (gives_name hroom) fun name hname => gives_then hroom fun kind => ?_
  refine gives_ite (fun _ => gives_then hroom fun _ => gives_pure ⟨hmodule, hname⟩) fun _ => ?_
  refine gives_ite (fun _ => gives_then hroom fun _ => gives_pure ⟨hmodule, hname⟩) fun _ => ?_
  exact gives_then hroom fun _ => gives_pure ⟨hmodule, hname⟩

theorem gives_export : Gives (input mem b short) room (export_ b) fun e => Named b e.name := by
  refine gives_bind hroom (gives_name hroom) fun name hname => gives_then hroom fun kind => ?_
  exact gives_then hroom fun _ => gives_then hroom fun _ => gives_pure hname

theorem gives_range : Gives (input mem b short) room (range b ()) fun next => ∀ x ∈ next, Slice b x.1 := by
  refine gives_then hroom fun size => gives_slice (g := fun s => some (s, ())) (fun x hx => by cases hx)
    fun s hs x hx => ?_
  cases hx
  exact hs

theorem gives_data : Gives (input mem b short) room (data b ()) fun next => ∀ x ∈ next, Slice b x.1.bytes := by
  refine gives_then hroom fun flag => gives_then hroom fun offset => gives_then hroom fun n => ?_
  refine gives_slice (g := fun s => some (Data.mk (flag = 1#32) offset s, ())) (fun x hx => by cases hx)
    fun s hs x hx => ?_
  cases hx
  exact hs

theorem gives_readLines {w : Wasm} {end_ : BitVec 32} (hw : Placed b w) :
    Gives (input mem b short) room (readLines b w end_) (Placed b) := by
  have hnone : ∀ f ∈ ([] : List Bytes), Named b f := fun _ h => absurd h List.not_mem_nil
  refine gives_then hroom fun files => gives_bind hroom (gives_times hroom (Q := Named b) fun _ => ?_) ?_
  · refine gives_then hroom fun failed => gives_then hroom fun pos => ?_
    refine gives_ite (fun _ => gives_pure fun x hx => by cases hx) fun _ => ?_
    refine gives_bind hroom (gives_name hroom) fun file hfile => gives_pure fun x hx => ?_
    cases hx
    exact hfile
  · rintro ⟨lineFiles, left⟩ hfiles
    refine gives_then hroom fun fns => gives_then hroom fun lineFns => gives_then hroom fun failed =>
      gives_then hroom fun pos => ?_
    refine gives_ite (fun _ => gives_then hroom fun _ => gives_pure ?_) fun _ => gives_pure ?_
    · exact { hw with lineFiles := hnone }
    · exact { hw with lineFiles := List.forall_mem_append.mpr ⟨hw.lineFiles, hfiles⟩ }

theorem gives_subsection {w : Wasm} {end_ : BitVec 32} (hw : Placed b w) :
    Gives (input mem b short) room (subsection b end_ w) (Sum.elim (Placed b) (Placed b)) := by
  have hnone : ∀ n ∈ ([] : List FnName), Named b n.name := fun _ h => absurd h List.not_mem_nil
  refine gives_then hroom fun pos => gives_ite (fun _ => gives_pure hw) fun _ => ?_
  refine gives_then hroom fun sub => gives_then hroom fun size => gives_then hroom fun pos =>
    gives_then hroom fun failed => ?_
  refine gives_ite (fun _ => gives_pure { hw with names := hnone }) fun _ => ?_
  refine gives_ite (fun _ => gives_then hroom fun count => ?_) fun _ => gives_then hroom fun _ => gives_pure hw
  refine gives_bind hroom (gives_times hroom (Q := fun n : FnName => Named b n.name) fun _ => ?_) ?_
  · refine gives_then hroom fun index => gives_bind hroom (gives_name hroom) fun name hname => ?_
    refine gives_then hroom fun failed => gives_then hroom fun pos => ?_
    refine gives_ite (fun _ => gives_pure fun x hx => by cases hx) fun _ => gives_pure fun x hx => ?_
    cases hx
    exact hname
  · rintro ⟨names, left⟩ hnames
    refine gives_ite (fun _ => gives_pure { hw with names := hnone }) fun _ => gives_then hroom fun _ => ?_
    exact gives_pure { hw with names := List.forall_mem_append.mpr ⟨hw.names, hnames⟩ }

theorem gives_readCustom {w : Wasm} {end_ : BitVec 32} (hw : Placed b w) :
    Gives (input mem b short) room (readCustom mem b w end_) (Placed b) := by
  refine gives_then hroom fun title => gives_then hroom fun failed => ?_
  refine gives_ite (fun _ => gives_pure hw) fun _ => ?_
  refine gives_ite (fun _ => gives_readLines hroom hw) fun _ => ?_
  exact gives_ite (fun _ => gives_loop hroom (fun _ hw => gives_subsection hroom hw) hw) fun _ => gives_pure hw

theorem gives_section {id end_ : BitVec 32} {w : Wasm} (hw : Placed b w) :
    Gives (input mem b short) room (section_ mem b id end_ w) (Placed b) := by
  have hother : ∀ {α : Type} {p : Reading α} {f : α → Wasm}, (∀ a, Placed b (f a)) →
      Gives (input mem b short) room (p >>= fun a => pure (f a)) (Placed b) :=
    fun hf => gives_then hroom fun a => gives_pure (hf a)
  refine gives_ite (fun _ => gives_bind hroom (gives_readCustom hroom hw) fun w hw => gives_then hroom fun _ =>
    gives_pure hw) fun _ => ?_
  refine gives_ite (fun _ => gives_then hroom fun _ => hother fun _ => { hw with }) fun _ => ?_
  refine gives_ite (fun _ => gives_then hroom fun count => gives_bind hroom (gives_push hroom (gives_import hroom))
    fun ms hms => gives_pure { hw with imports := List.forall_mem_append.mpr ⟨hw.imports, hms⟩ }) fun _ => ?_
  refine gives_ite (fun _ => gives_then hroom fun _ => hother fun _ => { hw with }) fun _ => ?_
  refine gives_ite (fun _ => gives_then hroom fun _ => hother fun _ => { hw with }) fun _ => ?_
  refine gives_ite (fun _ => gives_then hroom fun _ => hother fun _ => { hw with }) fun _ => ?_
  refine gives_ite (fun _ => gives_then hroom fun _ => hother fun _ => { hw with }) fun _ => ?_
  refine gives_ite (fun _ => gives_then hroom fun count => gives_bind hroom (gives_push hroom (gives_export hroom))
    fun es hes => gives_pure { hw with exports := List.forall_mem_append.mpr ⟨hw.exports, hes⟩ }) fun _ => ?_
  refine gives_ite (fun _ => hother fun _ => { hw with }) fun _ => ?_
  refine gives_ite (fun _ => gives_then hroom fun _ => hother fun _ => { hw with }) fun _ => ?_
  refine gives_ite (fun _ => gives_then hroom fun count => gives_bind hroom
    (gives_times hroom fun _ => gives_range hroom) fun ss hss =>
      gives_pure { hw with bodies := List.forall_mem_append.mpr ⟨hw.bodies, hss⟩ }) fun _ => ?_
  refine gives_ite (fun _ => gives_then hroom fun count => gives_bind hroom
    (gives_times hroom (Q := fun d : Data => Slice b d.bytes) fun _ => gives_data hroom) fun ds hds =>
      gives_pure { hw with datas := List.forall_mem_append.mpr ⟨hw.datas, hds⟩ }) fun _ => ?_
  refine gives_ite (fun _ => hother fun _ => { hw with }) fun _ => ?_
  exact gives_then hroom fun _ => gives_pure hw

/-- **What the section loop returns lies in the module.** -/
theorem gives_sections : Gives (input mem b short) room (sections mem b) (Placed b) := by
  refine gives_then hroom fun _ => gives_then hroom fun _ => gives_then hroom fun _ => gives_then hroom fun _ => ?_
  refine gives_loop hroom (fun w hw => ?_) (placed_emptyModule b)
  refine gives_then hroom fun pos => gives_then hroom fun failed => gives_ite (fun _ => ?_) fun _ => gives_pure hw
  refine gives_then hroom fun id => gives_then hroom fun size => gives_then hroom fun pos => ?_
  refine gives_ite (fun _ => gives_then hroom fun _ => gives_pure hw) fun _ => ?_
  refine gives_bind hroom (gives_section hroom hw) fun w hw => ?_
  exact gives_then hroom fun _ => gives_then hroom fun _ => gives_then hroom fun _ => gives_pure hw

end Readers

end

end Aipl.WasmReader
