import Aipl.Compiler.Lines.Readers

/-! # The line table round-trips

* `readSections_eq`, `withoutFrom_eq` — a module is gone through, section after section.
* `tableOf_funcs`, `resolve_entryOf` — what is found for a function, with its files.
* `find_eq` — looking a position up.
* `lines_roundTrip` — all of it.
-/

namespace Aipl.Compiler.Lines

open Aipl.Lib Aipl.Lib.Leb

variable {wasm rest : Bytes} {p at_ : Nat} {lossy : Bytes → String}

/-! ### Sections -/

theorem readU_u32 {n : Nat} (v : U32 n) (h : At wasm p (v.bytes ++ rest)) : readU wasm p = some (n, p + v.bytes.length) := by
  have hshort := v.short
  rw [readU_leb h v.isLeb (by omega), v.value]

theorem leb_u32 {n : Nat} (v : U32 n) (h : At wasm p (v.bytes ++ rest)) : leb wasm p = some (n, p + v.bytes.length) := by
  have hshort := v.short
  rw [leb_leb h v.isLeb (by omega), v.value]

theorem At.getElem? {x : BitVec 8} (h : At wasm p (x :: rest)) : wasm[p]? = some x := by
  have hhead := congrArg (fun l : Bytes => l[0]?) h
  simpa using hhead

theorem At.lt {x : BitVec 8} (h : At wasm p (x :: rest)) : p < wasm.length := (List.getElem?_eq_some_iff.mp h.getElem?).1

theorem readBodies_eq {sec : Bytes} : ∀ (bodies : List Body) (p : Nat) (acc : List Nat),
    At sec p (bodies.flatMap fun b => b.size.bytes ++ b.bytes) →
      readBodies sec at_ bodies.length p acc = some (acc ++ bodyStarts (at_ + p) bodies)
  | [], _, acc, _ => by simp [readBodies, bodyStarts]
  | b :: bodies, p, acc, h => by
      rw [List.flatMap_cons, List.append_assoc] at h
      have hrest := readBodies_eq bodies _ (acc ++ [at_ + (p + b.size.bytes.length)]) h.next.next
      rw [List.length_cons, readBodies, readU_u32 b.size h, Option.bind_eq_bind, Option.bind_some]
      dsimp only
      rw [hrest, bodyStarts, List.append_assoc, List.singleton_append, Nat.add_assoc at_, ← Nat.add_assoc at_ _ b.bytes.length]

/-- The last line table there is. -/
def lastTable (table : Option Bytes) (s : Section) : Option Bytes :=
  match s.content with
  | .custom name _ data => if name = asBytes "aipl.lines" then some data else table
  | _ => table

theorem Section.length_bytes (s : Section) : s.bytes.length = 1 + s.size.bytes.length + s.content.bytes.length := by
  rw [Section.bytes, List.length_cons, List.length_append]
  omega

/-- What is in front of a section's contents. -/
structure Opens (wasm : Bytes) (at_ : Nat) (s : Section) (rest : Bytes) : Prop where
  lt : at_ < wasm.length
  id : wasm[at_]? = some s.content.id
  size : At wasm (at_ + 1) (s.size.bytes ++ (s.content.bytes ++ rest))
  content : At wasm (at_ + 1 + s.size.bytes.length) (s.content.bytes ++ rest)
  rest : At wasm (at_ + 1 + s.size.bytes.length + s.content.bytes.length) rest
  le : at_ + 1 + s.size.bytes.length + s.content.bytes.length ≤ wasm.length

theorem opens {s : Section} (h : At wasm at_ (s.bytes ++ rest)) : Opens wasm at_ s rest := by
  rw [Section.bytes, List.cons_append, List.append_assoc] at h
  have hsize : At wasm (at_ + 1) (s.size.bytes ++ (s.content.bytes ++ rest)) :=
    At.next (l := [s.content.id]) (by rw [List.singleton_append]; exact h)
  have hlen := congrArg List.length h
  rw [List.length_drop, List.length_cons, List.length_append, List.length_append] at hlen
  exact ⟨h.lt, h.getElem?, hsize, hsize.next, hsize.next.next, by omega⟩

/-- **The reader** goes through the sections. -/
theorem readSections_eq : ∀ (sections : List Section) (rounds at_ : Nat) (bodies : List Nat) (table : Option Bytes),
    At wasm at_ (sections.flatMap Section.bytes) → sections.length < rounds →
      readSections wasm rounds at_ bodies table = some (bodies ++ starts at_ sections, sections.foldl lastTable table)
  | [], rounds + 1, at_, bodies, table, h, _ => by
      have hlen := congrArg List.length h
      rw [List.length_drop, List.flatMap_nil, List.length_nil] at hlen
      rw [readSections, if_neg (by omega), starts, List.append_nil, List.foldl_nil]
  | s :: sections, rounds + 1, at_, bodies, table, h, hrounds => by
      rw [List.flatMap_cons] at h
      rw [List.length_cons] at hrounds
      have ho := opens h
      have hsec := get_eq ho.content (by have := ho.le; omega)
      have hend : at_ + 1 + s.size.bytes.length + s.content.bytes.length = at_ + s.bytes.length := by
        rw [s.length_bytes]
        omega
      have hgo := fun bodies table => readSections_eq sections rounds _ bodies table ho.rest (by omega)
      simp only [readSections, Option.bind_eq_bind]
      rw [if_pos ho.lt, ho.id, Option.bind_some, readU_u32 s.size ho.size, Option.bind_some]
      dsimp only
      rw [hsec, Option.bind_some, List.foldl_cons]
      have hread : ∀ bytes, At bytes 0 bytes := fun _ => List.drop_zero
      obtain ⟨content, size⟩ := s
      cases content with
      | code bs count =>
        have hcount : At (count.bytes ++ bs.flatMap fun b => b.size.bytes ++ b.bytes) 0 _ := hread _
        rw [if_pos (show (Content.code bs count).id = 10#8 from rfl)]
        simp only [Content.bytes] at hgo hend ⊢
        rw [readU_u32 count hcount, Option.bind_some]
        dsimp only
        rw [readBodies_eq bs _ _ hcount.next, Option.bind_some, hgo, starts, List.append_assoc, hend, Nat.zero_add]
        rfl
      | custom name nameSize data =>
        have hname : At (nameSize.bytes ++ (name ++ data)) 0 _ := hread _
        have hid : (Content.custom name nameSize data).id ≠ 10#8 := show (0#8 : BitVec 8) ≠ 10#8 by decide
        rw [if_neg hid, if_pos (show (Content.custom name nameSize data).id = 0#8 from rfl)]
        simp only [Content.bytes] at hgo hend ⊢
        rw [readU_u32 nameSize hname, Option.bind_some]
        dsimp only
        rw [get_eq hname.next (by rw [List.length_append]; omega), Option.bind_some, hgo, starts, hend]
        have hdata : (nameSize.bytes ++ (name ++ data)).drop (0 + nameSize.bytes.length + name.length) = data := hname.next.next
        rw [hdata, lastTable]
        rfl
      | plain id hcustom hcode bytes =>
        rw [if_neg (show (Content.plain id hcustom hcode bytes).id ≠ 10#8 from hcode), if_neg (show (Content.plain id hcustom hcode bytes).id ≠ 0#8 from hcustom),
          hgo, starts, hend]
        rfl

/-- What `without_lines` looks at of a section. -/
theorem isLines_read {s : Section} (h : At wasm at_ (s.content.bytes ++ rest)) :
    (if s.content.id = 0#8 then (leb wasm at_).bind fun x => (get wasm x.2 (x.2 + x.1)).bind fun name => pure (decide (name = asBytes "aipl.lines"))
      else pure false : Option Bool) = some s.isLines := by
  obtain ⟨content, size⟩ := s
  cases content with
  | code => rfl
  | plain id hcustom hcode bytes =>
    rw [if_neg (show (Content.plain id hcustom hcode bytes).id ≠ 0#8 from hcustom)]
    rfl
  | custom name nameSize data =>
    simp only [Content.bytes, List.append_assoc] at h
    have hlen := congrArg List.length h
    have hpos := List.length_pos_iff.mpr nameSize.isLeb.ne_nil
    rw [List.length_drop, List.length_append] at hlen
    rw [if_pos (show (Content.custom name nameSize data).id = 0#8 from rfl), leb_u32 nameSize h, Option.bind_some]
    dsimp only
    rw [get_eq h.next (by omega), Option.bind_some]
    rfl

/-- **The section left out**, and nothing else. -/
theorem withoutFrom_eq : ∀ (sections : List Section) (rounds at_ : Nat) (out : Bytes),
    At wasm at_ (sections.flatMap Section.bytes) → sections.length < rounds →
      withoutFrom wasm rounds at_ out = some (out ++ (sections.filter fun s => !s.isLines).flatMap Section.bytes)
  | [], rounds + 1, at_, out, h, _ => by
      have hlen := congrArg List.length h
      rw [List.length_drop, List.flatMap_nil, List.length_nil] at hlen
      rw [withoutFrom, if_neg (by omega), List.filter_nil, List.flatMap_nil, List.append_nil]
  | s :: sections, rounds + 1, at_, out, h, hrounds => by
      rw [List.flatMap_cons] at h
      rw [List.length_cons] at hrounds
      have ho := opens h
      have hend : at_ + 1 + s.size.bytes.length + s.content.bytes.length = at_ + s.bytes.length := by
        rw [s.length_bytes]
        omega
      have hsection := get_eq h (by have := ho.lt; omega)
      have hgo := fun out => withoutFrom_eq sections rounds _ out ho.rest (by omega)
      have hlines := isLines_read ho.content
      simp only [withoutFrom, Option.bind_eq_bind]
      rw [if_pos ho.lt, ho.id, Option.bind_some, leb_u32 s.size ho.size, Option.bind_some]
      dsimp only
      rw [hlines, Option.bind_some, List.filter_cons]
      cases s.isLines with
      | true =>
        simp only [Bool.not_true, Bool.false_eq_true, if_false]
        exact hgo out
      | false =>
        simp only [Bool.not_false, if_true]
        rw [hend, hsection, Option.bind_some, ← hend]
        refine (hgo (out ++ s.bytes)).trans ?_
        rw [List.flatMap_cons, List.append_assoc]

/-! ### What the table says -/

variable {files : List String} {lines : List FnLines} {bodies : List Nat} {imported : BitVec 32} {t : LineTable}

theorem mem_addFiles {f : String} : ∀ (l : List (BitVec 32 × Pos)) (files : List String), (f ∈ files ∨ ∃ e ∈ l, e.2.file = f) → f ∈ l.foldl addFile files
  | [], files, h => by
      rcases h with h | ⟨e, he, -⟩
      · exact h
      · cases he
  | e :: l, files, h => by
      have hadd : ∀ g, g ∈ files ∨ g = e.2.file → g ∈ addFile files e := fun g hg => by
        rw [addFile]
        split
        · rename_i hmem
          rcases hg with hg | rfl
          · exact hg
          · exact List.contains_iff_mem.mp hmem
        · rw [List.mem_append, List.mem_singleton]
          exact hg
      refine mem_addFiles l (addFile files e) ?_
      rcases h with h | ⟨x, hx, rfl⟩
      · exact .inl (hadd f (.inl h))
      · rcases List.mem_cons.mp hx with rfl | hx
        · exact .inl (hadd _ (.inr rfl))
        · exact .inr ⟨x, hx, rfl⟩

/-- The files have all that positions are in. -/
theorem mem_fileNames {fl : FnLines} {e : BitVec 32 × Pos} (hfl : fl ∈ lines) (he : e ∈ fl.2) : e.2.file ∈ fileNames lines := by
  have hfold : ∀ (ls : List FnLines) (files : List String), e.2.file ∈ files ∨ fl ∈ ls →
      e.2.file ∈ ls.foldl (fun files l => l.2.foldl addFile files) files := fun ls => by
    induction ls with
    | nil =>
      intro files h
      rcases h with h | h
      · exact h
      · cases h
    | cons l ls ih =>
      intro files h
      refine ih (l.2.foldl addFile files) ?_
      rcases h with h | h
      · exact .inl (mem_addFiles l.2 files (.inl h))
      · rcases List.mem_cons.mp h with rfl | h
        · exact .inl (mem_addFiles fl.2 files (.inr ⟨e, he, rfl⟩))
        · exact .inr h
  exact hfold lines [] (.inr hfl)

/-- An entry with its file's name. -/
def LineTable.position (t : LineTable) (e : LineEntry) : Option (BitVec 32 × Pos) :=
  (t.files[e.2.1.toNat]?).map fun file => (e.1, ⟨file, e.2.2.1, e.2.2.2⟩)

theorem file_entryOf {e : BitVec 32 × Pos} (hmem : e.2.file ∈ files) (hlen : files.length < 2 ^ 32) :
    files[(entryOf files e).2.1.toNat]? = some e.2.file := by
  have hlt := List.idxOf_lt_length_iff.mpr hmem
  have hidx : (BitVec.ofNat 32 (files.idxOf e.2.file)).toNat = files.idxOf e.2.file := Nat.mod_eq_of_lt (by omega)
  rw [entryOf, hidx, List.getElem?_eq_getElem hlt, List.getElem_idxOf hlt]

theorem funcs_other {g : BitVec 32} : ∀ (fs : List FnLines) (funcs : BitVec 32 → Option (Nat × List LineEntry)), g ∉ fs.map Prod.fst →
    fs.foldl (funcsOf files bodies imported) funcs g = funcs g
  | [], _, _ => rfl
  | f :: fs, funcs, h => by
      rw [List.map_cons, List.mem_cons, not_or] at h
      rw [List.foldl_cons, funcs_other fs _ h.2, funcsOf, Function.update_of_ne h.1]

theorem funcs_self {f : FnLines} : ∀ (fs : List FnLines) (funcs : BitVec 32 → Option (Nat × List LineEntry)), (fs.map Prod.fst).Nodup → f ∈ fs →
    fs.foldl (funcsOf files bodies imported) funcs f.1 = (bodies[(f.1 - imported).toNat]?).map fun start => (start, f.2.map (entryOf files))
  | [], _, _, h => by cases h
  | first :: fs, funcs, hnodup, h => by
      rw [List.map_cons, List.nodup_cons] at hnodup
      rw [List.foldl_cons]
      rcases List.mem_cons.mp h with rfl | h
      · rw [funcs_other fs _ hnodup.1, funcsOf, Function.update_self]
      · exact funcs_self fs _ hnodup.2 h

theorem takeWhile_eq_filter {α : Type} {pred : α → Bool} : ∀ {l : List α}, l.Pairwise (fun a b => pred b = true → pred a = true) → l.takeWhile pred = l.filter pred
  | [], _ => rfl
  | a :: l, h => by
      rw [List.pairwise_cons] at h
      rw [List.takeWhile_cons, List.filter_cons]
      cases ha : pred a with
      | true =>
        rw [takeWhile_eq_filter h.2]
        rfl
      | false =>
        have hnone : l.filter pred = [] := List.filter_eq_nil_iff.mpr fun b hb hpred => by
          rw [h.1 b hb hpred] at ha
          cases ha
        rw [hnone]
        rfl

/-- "file:line:col". -/
def Pos.shown (p : Pos) : String := p.file ++ ":" ++ toString p.line.toNat ++ ":" ++ toString p.col.toNat

/-- **Looking a position up** gives the last entry at or before it. -/
theorem find_eq {func : BitVec 32} {start offset : Nat} {l : List (BitVec 32 × Pos)} (hfunc : t.funcs func = some (start, l.map (entryOf t.files)))
    (hfiles : ∀ e ∈ l, e.2.file ∈ t.files) (hlen : t.files.length < 2 ^ 32) (hsorted : l.Pairwise fun e e' => e.1 ≤ e'.1)
    (hoffset : offset < 2 ^ 32) :
    t.find func (start + offset) = ((l.filter fun e => decide (e.1.toNat ≤ offset)).getLast?).map fun e => e.2.shown := by
  have hat : (BitVec.ofNat 32 (start + offset - start)).toNat = offset := by
    rw [Nat.add_sub_cancel_left]
    exact Nat.mod_eq_of_lt hoffset
  have hprefix : (l.filter fun e => decide (e.1.toNat ≤ offset)) <+: l := by
    rw [← takeWhile_eq_filter]
    · exact List.takeWhile_prefix _
    · refine hsorted.imp fun {e e'} hle hle' => ?_
      rw [decide_eq_true_eq] at hle' ⊢
      exact (BitVec.le_def.mp hle).trans hle'
  have hpoint : partitionPoint (l.map (entryOf t.files)) (fun e => decide (e.1 ≤ BitVec.ofNat 32 (start + offset - start))) =
      (l.filter fun e => decide (e.1.toNat ≤ offset)).length := by
    have hpred : ((fun e : LineEntry => decide (e.1 ≤ BitVec.ofNat 32 (start + offset - start))) ∘ entryOf t.files) =
        fun e => decide (e.1.toNat ≤ offset) := by
      funext e
      simp only [Function.comp, entryOf, BitVec.le_def, hat]
    rw [partitionPoint, List.takeWhile_map, List.length_map, hpred, takeWhile_eq_filter]
    refine hsorted.imp fun {e e'} hle hle' => ?_
    rw [decide_eq_true_eq] at hle' ⊢
    exact (BitVec.le_def.mp hle).trans hle'
  rw [LineTable.find, hfunc, Option.bind_eq_bind, Option.bind_some]
  dsimp only
  rw [if_pos (Nat.le_add_right _ _), hpoint]
  generalize (l.filter fun e => decide (e.1.toNat ≤ offset)) = m at hprefix
  obtain ⟨after, rfl⟩ := hprefix
  rw [List.getLast?_eq_getElem?]
  by_cases hm : 1 ≤ m.length
  · have hlt : m.length - 1 < m.length := by omega
    rw [if_pos hm, List.getElem?_map, List.getElem?_append_left hlt, List.getElem?_eq_getElem hlt]
    simp only [Option.map_some, Option.bind_eq_bind, Option.bind_some]
    have hmem : m[m.length - 1] ∈ m ++ after := List.mem_append_left _ (List.getElem_mem hlt)
    have hfile := file_entryOf (hfiles _ hmem) hlen
    rw [entryOf] at hfile ⊢
    dsimp only at hfile ⊢
    rw [hfile, Option.bind_some]
    rfl
  · rw [if_neg hm, List.getElem?_eq_none (by omega)]
    rfl

/-! ### The round trip -/

theorem lastTable_other : ∀ (sections : List Section) (table : Option Bytes), (∀ s ∈ sections, s.isLines = false) → sections.foldl lastTable table = table
  | [], _, _ => rfl
  | s :: sections, table, h => by
      have hs := h s List.mem_cons_self
      have hlast : lastTable table s = table := by
        rw [Section.isLines] at hs
        rw [lastTable]
        split
        · rename_i name _ _ heq
          rw [heq] at hs
          exact if_neg (of_decide_eq_false hs)
        · rfl
      rw [List.foldl_cons, hlast, lastTable_other sections table fun s' h' => h s' (List.mem_cons_of_mem _ h')]

/-- The section of the line table, with the sizes that it has. -/
def linesSection (lines : List FnLines) (nameSize : U32 (asBytes "aipl.lines").length)
    (size : U32 (nameSize.bytes ++ (asBytes "aipl.lines" ++ encodeLines lines)).length) : Section :=
  ⟨.custom (asBytes "aipl.lines") nameSize (encodeLines lines), size⟩

variable {header : Bytes} {before after : List Section} {nameSize : U32 (asBytes "aipl.lines").length}
  {size : U32 (nameSize.bytes ++ (asBytes "aipl.lines" ++ encodeLines lines)).length}

theorem at_sections (sections : List Section) (hheader : header.length = 8) :
    At (moduleBytes header sections) 8 (sections.flatMap Section.bytes) := List.drop_left' hheader

variable (header) in
theorem length_sections (sections : List Section) : sections.length ≤ (moduleBytes header sections).length := by
  have hle := length_le_flatMap (g := Section.bytes) (fun s => by rw [s.length_bytes]; omega) sections
  rw [moduleBytes, List.length_append]
  omega

/-- **The line table round-trips**: each function's positions are read again, with their files; a position is looked
up; and without the section the module is as it was. -/
theorem lines_roundTrip (lossy : Bytes → String) (hheader : header.length = 8) (hbefore : ∀ s ∈ before, s.isLines = false)
    (hafter : ∀ s ∈ after, s.isLines = false) (hindex : (lines.map Prod.fst).Nodup)
    (hmodule : ∀ f ∈ lines, f.2 ≠ [] →
      imported ≤ f.1 ∧ (f.1 - imported).toNat < (starts 8 (before ++ linesSection lines nameSize size :: after)).length)
    (hsorted : ∀ f ∈ lines, f.2.Pairwise fun e e' => e.1 ≤ e'.1) :
    (∃ t, tryRead lossy (moduleBytes header (before ++ linesSection lines nameSize size :: after)) imported = some t ∧
      (∀ f ∈ lines, (t.funcs f.1).map (fun x => x.2.map t.position) = if f.2 = [] then none else some (f.2.map some)) ∧
      (∀ g ∉ lines.map Prod.fst, t.funcs g = none) ∧
      ∀ f ∈ lines, ∀ start, (starts 8 (before ++ linesSection lines nameSize size :: after))[(f.1 - imported).toNat]? = some start →
        ∀ offset < 2 ^ 32, t.find f.1 (start + offset) = ((f.2.filter fun e => decide (e.1.toNat ≤ offset)).getLast?).map fun e => e.2.shown) ∧
    withoutLines (moduleBytes header (before ++ linesSection lines nameSize size :: after)) = some (moduleBytes header (before ++ after)) := by
  have hat := at_sections (before ++ linesSection lines nameSize size :: after) hheader
  have hrounds := length_sections header (before ++ linesSection lines nameSize size :: after)
  constructor
  · have hlen : (encodeLines lines).length < 2 ^ 32 := by
      have hlt := size.lt
      rw [List.length_append, List.length_append] at hlt
      omega
    have hfiles := length_fileNames_lt hlen
    have hread := readSections_eq _ _ 8 [] none hat (Nat.lt_succ_of_le hrounds)
    have htable : (before ++ linesSection lines nameSize size :: after).foldl lastTable none = some (encodeLines lines) := by
      rw [List.foldl_append, lastTable_other before none hbefore, List.foldl_cons, lastTable_other after _ hafter, lastTable, linesSection]
      exact if_pos rfl
    rw [htable, List.nil_append] at hread
    have hfns : ∀ f ∈ withLines lines, f ∈ lines ∧ f.2 ≠ [] := fun f hf => by
      rw [withLines, List.mem_filter] at hf
      exact ⟨hf.1, by simpa using hf.2⟩
    have hnodup : ((withLines lines).map Prod.fst).Nodup := hindex.sublist (List.Sublist.map _ List.filter_sublist)
    have hnone : ∀ g, (∀ f ∈ lines, f.1 = g → f.2 = []) →
        (tableOf lines (starts 8 (before ++ linesSection lines nameSize size :: after)) imported).funcs g = none := fun g hg => by
      refine funcs_other _ _ fun hmem => ?_
      obtain ⟨f, hf, rfl⟩ := List.mem_map.mp hmem
      exact (hfns f hf).2 (hg f (hfns f hf).1 rfl)
    have hself : ∀ f ∈ lines, f.2 ≠ [] → ∀ start, (starts 8 (before ++ linesSection lines nameSize size :: after))[(f.1 - imported).toNat]? = some start →
        (tableOf lines (starts 8 (before ++ linesSection lines nameSize size :: after)) imported).funcs f.1 =
          some (start, f.2.map (entryOf (fileNames lines))) := fun f hf hne start hstart => by
      have hmem : f ∈ withLines lines := List.mem_filter.mpr ⟨hf, by simpa using hne⟩
      refine (funcs_self _ _ hnodup hmem).trans ?_
      rw [hstart, Option.map_some]
    have hempty : ∀ f ∈ lines, f.2 = [] → ∀ f' ∈ lines, f'.1 = f.1 → f'.2 = [] := fun f hf hf2 f' hf' heq => by
      rw [List.inj_on_of_nodup_map hindex hf' hf heq, hf2]
    refine ⟨_, readTable_eq hlen (fun f hf => hmodule f (hfns f hf).1 (hfns f hf).2) hread, fun f hf => ?_, fun g hg => ?_, fun f hf start hstart offset hoffset => ?_⟩
    · by_cases hne : f.2 = []
      · rw [if_pos hne, hnone f.1 (hempty f hf hne), Option.map_none]
      · obtain ⟨_, hlt⟩ := hmodule f hf hne
        rw [if_neg hne, hself f hf hne _ (List.getElem?_eq_getElem hlt), Option.map_some, List.map_map]
        refine congrArg some (List.map_congr_left fun e he => ?_)
        have hfile := file_entryOf (mem_fileNames hf he) hfiles
        exact congrArg (Option.map fun file : String => (e.1, (⟨file, e.2.line, e.2.col⟩ : Pos))) hfile
    · exact hnone g fun f hf heq => absurd (List.mem_map.mpr ⟨f, hf, heq⟩) hg
    · by_cases hne : f.2 = []
      · rw [LineTable.find, hnone f.1 (hempty f hf hne), hne]
        rfl
      · exact find_eq (hself f hf hne start hstart) (fun e he => mem_fileNames hf he) hfiles (hsorted f hf) hoffset
  · have hstart : At (moduleBytes header (before ++ linesSection lines nameSize size :: after)) 0
        (header ++ (before ++ linesSection lines nameSize size :: after).flatMap Section.bytes) := by rw [At, List.drop_zero, moduleBytes]
    have hheader' := get_eq hstart (Nat.zero_le _)
    rw [hheader] at hheader'
    rw [withoutLines, Option.bind_eq_bind, hheader', Option.bind_some, withoutFrom_eq _ _ 8 header hat (Nat.lt_succ_of_le hrounds),
      List.filter_append, List.filter_cons]
    have hkeep : ∀ l : List Section, (∀ s ∈ l, s.isLines = false) → (l.filter fun s => !s.isLines) = l := fun l hl =>
      List.filter_eq_self.mpr fun s hs => by rw [hl s hs, Bool.not_false]
    have hlines : (linesSection lines nameSize size).isLines = true := by
      rw [Section.isLines, linesSection]
      exact decide_eq_true rfl
    rw [hkeep before hbefore, hkeep after hafter, hlines]
    rfl

/-- The shortest way to have a number. -/
def U32.shortest {n : Nat} (h : n < 2 ^ 32) : U32 n where
  bytes := encodeNat n
  isLeb := isLeb_encodeNat n
  short := length_encodeNat_le 4 n (by omega)
  value := unsigned_encodeNat n
  lt := h

/-- Line 3 and then line 2, in the first function. -/
def backwards : List FnLines := [(0#32, [(1#32, ⟨"a", 3#32, 5#32⟩), (4#32, ⟨"a", 2#32, 1#32⟩)])]

theorem backwards_short : (encodeLines backwards).length < 2 ^ 16 := by
  have hu := u_short
  have hs : ∀ n : Int, -(2 ^ 40) ≤ n → n < 2 ^ 40 → (s n).length ≤ 6 := fun n hlo hhi => length_encodeInt_le 5 n (by omega) (by omega)
  have h3 := hs 3 (by decide) (by decide)
  have h2 := hs (-1) (by decide) (by decide)
  have hfile : (asBytes "a").length = 1 := rfl
  have hlines : encodeLines backwards = u 1#32 ++ ((u 1#32 ++ asBytes "a") ++ []) ++ (u 1#32 ++ ((u 0#32 ++ u 2#32 ++
      (u 1#32 ++ u 0#32 ++ s 3 ++ u 5#32 ++ (u 3#32 ++ u 0#32 ++ s (-1) ++ u 1#32 ++ []))) ++ [])) := rfl
  rw [hlines]
  simp only [List.length_append, List.length_nil, hfile]
  have h0 := hu 0#32
  have h1 := hu 1#32
  have h2' := hu 2#32
  have h3' := hu 3#32
  have h5 := hu 5#32
  omega

/-- A body of two bytes. -/
def oneBody : Section where
  content := .code [⟨[0#8, 11#8], .shortest (by decide)⟩] (.shortest (by decide))
  size := .shortest (by
    have h := length_encodeNat_le 4 1 (by decide)
    have h' := length_encodeNat_le 4 2 (by decide)
    simp only [Content.bytes, U32.shortest, List.flatMap_cons, List.flatMap_nil, List.length_append, List.length_cons, List.length_nil, Nat.zero_add,
      Nat.reduceAdd]
    omega)

theorem backwards_size : ((U32.shortest (show (asBytes "aipl.lines").length < 2 ^ 32 by decide)).bytes ++
    (asBytes "aipl.lines" ++ encodeLines backwards)).length < 2 ^ 32 := by
  have h := (U32.shortest (show (asBytes "aipl.lines").length < 2 ^ 32 by decide)).short
  have hname : (asBytes "aipl.lines").length = 10 := by decide
  have hlines := backwards_short
  rw [List.length_append, List.length_append]
  omega

/-- Two positions in a module of one function. -/
theorem backwards_removed : withoutLines (moduleBytes (List.replicate 8 0#8) ([oneBody] ++
    linesSection backwards (.shortest (by decide)) (.shortest backwards_size) :: [])) = some (moduleBytes (List.replicate 8 0#8) ([oneBody] ++ [])) := by
  have hstarts : ∀ l, 0 < (starts 8 (oneBody :: l)).length := fun l => by
    rw [starts, List.length_append]
    exact Nat.add_pos_left Nat.one_pos _
  refine (@lines_roundTrip _ 0#32 _ _ _ _ _ (fun _ => "") (by decide) (by simp [oneBody, Section.isLines]) (by simp) (by decide)
    (fun f hf _ => ?_) (fun f hf => ?_)).2
  · obtain rfl := List.mem_singleton.mp hf
    exact ⟨by decide, hstarts _⟩
  · obtain rfl := List.mem_singleton.mp hf
    decide

end Aipl.Compiler.Lines
