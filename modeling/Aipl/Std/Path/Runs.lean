import Aipl.Lib.Paths
import Aipl.Std.Path.Model
import Aipl.Std.Url.Queries
import Aipl.Std.Url.Resolve
import Mathlib.Data.List.DropRight

/-! # Paths are normalised

* `backLoop_eq`, `onLoop_eq` — what the scans find.
* `addPart_endsOr`, `partLoop_endsOr` — the vec holds the parts of the way walked so far.
* `normalize_endsOr` — the shortest path to where the path leads.
* `split_ends` — a path taken apart and put together.
* `normalize_canonical` — the forms, and that they are the only ones.
-/

namespace Aipl.StdPath

open Aipl.Lib Aipl.Lib.Outcome Aipl.Lib.Paths Aipl.Lib.Utf8 Aipl.Std Aipl.StdBytes
open Aipl.StdBuf (Content)
open Aipl.StdUrl (Bytes fromBytes fromBytes_eq)

variable {σ : Type} {A : Allocator σ} {fuel : Nat} {p b part : Bytes} {C : Prop} {slash : Bool}

/-! ### The scans -/

theorem slash_iff (c : BitVec 8) : c.toNat = 47 ↔ c = 47#8 :=
  ⟨fun h => BitVec.eq_of_toNat_eq h, fun h => by rw [h]; rfl⟩

/-- A slash, or what is none. -/
def Kind (slash : Bool) (c : BitVec 8) : Bool := decide (decide (c = 47#8) = slash)

theorem kind_iff {c : BitVec 8} : Kind slash c = true ↔ decide (c = 47#8) = slash := decide_eq_true_iff

theorem kind_true (c : BitVec 8) : Kind true c = decide (c = 47#8) := by
  simp [Kind]

theorem kind_false (c : BitVec 8) : Kind false c = decide (c ≠ 47#8) := by
  simp [Kind]

theorem backLoop_eq (b : Bytes) (slash : Bool) : ∀ (k m : Nat), k ≤ b.length → k < m →
    iterate (backRound b slash) m k = done ((b.take k).rdropWhile (Kind slash)).length
  | 0, m + 1, _, _ => rfl
  | k + 1, m + 1, hk, hm => by
      obtain ⟨c, r, hdrop⟩ := exists_cons (show k < b.length by omega)
      have htake : b.take (k + 1) = b.take k ++ [c] := by
        rw [List.take_add_one, getElem?_of_drop hdrop]
        rfl
      rw [iterate, backRound, if_pos (Nat.succ_pos k), Nat.add_sub_cancel, byteAt_drop hdrop, done_bind, htake]
      simp only [slash_iff]
      by_cases hc : decide (c = 47#8) = slash
      · rw [if_pos hc, List.rdropWhile_concat_pos _ _ _ (kind_iff.mpr hc)]
        exact backLoop_eq b slash k m (by omega) (by omega)
      · rw [if_neg hc, List.rdropWhile_concat_neg _ _ _ fun h => hc (kind_iff.mp h)]
        simp [Nat.min_eq_left (show k ≤ b.length by omega)]

theorem onLoop_eq (b : Bytes) (slash : Bool) : ∀ (n i m : Nat), b.length = i + n → n < m →
    iterate (onRound b slash) m i = done (i + ((b.drop i).takeWhile (Kind slash)).length)
  | 0, i, m + 1, hi, _ => by
      rw [iterate, onRound, if_neg (by omega), List.drop_eq_nil_of_le (by omega)]
      rfl
  | n + 1, i, m + 1, hi, hm => by
      obtain ⟨c, r, hdrop⟩ := exists_cons (show i < b.length by omega)
      rw [iterate, onRound, if_pos (by omega), byteAt_drop hdrop, done_bind, hdrop]
      simp only [slash_iff]
      by_cases hc : decide (c = 47#8) = slash
      · have hrest := onLoop_eq b slash n (i + 1) m (by omega) (by omega)
        rw [drop_succ hdrop] at hrest
        rw [if_pos hc, List.takeWhile_cons_of_pos (kind_iff.mpr hc), List.length_cons]
        refine hrest.trans ?_
        rw [Nat.add_assoc, Nat.add_comm 1]
      · rw [if_neg hc, List.takeWhile_cons_of_neg fun h => hc (kind_iff.mp h)]
        rfl

/-! ### The parts -/

/-- Where the path leads. -/
abbrev placeOf (p : Bytes) : Place (BitVec 8) := place 47#8 46#8 p

/-- The vec holds the parts of a way. -/
structure Holding (x : Place (BitVec 8)) (parts : Vec σ Bytes) : Prop where
  ok : parts.Ok
  elems : parts.elems = x.parts 46#8
  valid : x.Valid 47#8 46#8

variable {x : Place (BitVec 8)} {parts : Vec σ Bytes} {rooted : Bool}

/-- The last part is taken if it is a name. -/
theorem takesLast_eq (h : Holding x parts) : takesLast parts = done (decide (x.names ≠ [])) := by
  have hlen := h.ok.toNat_len
  have hle := h.ok.le
  have hlt := h.ok.lt
  rw [takesLast]
  rcases List.eq_nil_or_concat' (x.parts 46#8) with hnil | ⟨l, last, hlast⟩
  · have hnames : x.names = [] := (List.append_eq_nil_iff.mp hnil).2
    rw [h.elems, hnil, List.length_nil] at hlen
    rw [if_neg (by rw [zero_slt_iff (by omega)]; omega), hnames]
    rfl
  · have hlength : parts.elems.length = l.length + 1 := by
      rw [h.elems, hlast, List.length_append, List.length_singleton]
    have hsub : (parts.len - 1#32).toNat = l.length := by
      rw [toNat_sub_of_le (by simp only [BitVec.toNat_ofNat]; omega), hlen]
      simp only [BitVec.toNat_ofNat]
      omega
    have hget : parts.elems[(parts.len - 1#32).toNat]? = some last := by
      rw [hsub, h.elems, hlast, List.getElem?_append_right (le_refl _), Nat.sub_self]
      rfl
    rw [if_pos ((zero_slt_iff (by omega)).mpr (by omega)), Vec.at_eq h.ok hget, done_bind, pure_eq]
    congr 1
    refine decide_eq_decide.mpr ⟨fun hne hnames => hne ?_, fun hne heq => ?_⟩
    · -- no name: the last part is one of the two-dot parts
      rw [Place.parts, hnames, List.append_nil] at hlast
      exact List.eq_of_mem_replicate (hlast ▸ List.mem_append_right l (List.mem_singleton_self last))
    · obtain ⟨names, name, hnames⟩ := (List.eq_nil_or_concat' x.names).resolve_left hne
      rw [Place.parts, hnames, ← List.append_assoc] at hlast
      have hname : name = last := (List.append_inj' hlast rfl).2 |> List.singleton_inj.mp
      exact (h.valid.names name (hnames ▸ List.mem_append_right names (List.mem_singleton_self name))).ne_dots (hname.trans heq)

theorem push_holding (h : Holding x parts) (hmem : C ∨ Plentiful A ∧ parts.elems.length < 2 ^ 26) {y : Place (BitVec 8)}
    (hy : y.Valid 47#8 46#8) (hparts : y.parts 46#8 = x.parts 46#8 ++ [part]) :
    EndsOr C (Holding y) (parts.push A view part) := by
  have hsize : view.size.toInt = 16 := by decide
  refine (Vec.push_endsOr h.ok part (hmem.imp_right fun hm => ⟨hm.1, ?_, fun _ => ⟨?_, by omega⟩⟩)).mono
    fun parts' ⟨hok, helems, _⟩ => ?_
  · rw [hsize]
    decide
  · rw [hsize]
    omega
  · exact ⟨hok, by rw [helems, h.elems, hparts], hy⟩

/-- **A part** moves the way the vec holds one part further. -/
theorem addPart_endsOr (h : Holding x parts) (hpart : 47#8 ∉ part) (hrooted : rooted = decide (x.root ≠ 0))
    (hmem : C ∨ Plentiful A ∧ parts.elems.length < 2 ^ 26) :
    EndsOr C (Holding (enter 46#8 x part)) (addPart A rooted parts part) := by
  have hvalid := enter_valid h.valid hpart
  rw [enter] at hvalid ⊢
  rw [addPart]
  by_cases hempty : part = [] ∨ part = [46#8]
  · rw [if_pos hempty, if_pos (by rwa [List.length_eq_zero_iff])]
    exact h
  · have hsome : ¬ (part.length = 0 ∨ part = [46#8]) := by rwa [List.length_eq_zero_iff]
    rw [if_neg hempty] at hvalid ⊢
    rw [if_neg hsome]
    by_cases hdots : part = [46#8, 46#8]
    · rw [if_pos hdots] at hvalid ⊢
      rw [if_pos hdots, takesLast_eq h, done_bind]
      by_cases hnames : x.names = []
      · rw [if_neg (not_not_intro hnames)] at hvalid ⊢
        rw [decide_eq_false (not_not_intro hnames), if_neg Bool.false_ne_true]
        by_cases hroot : x.root = 0
        · rw [if_neg (not_not_intro hroot)] at hvalid ⊢
          rw [hrooted, decide_eq_false (not_not_intro hroot), if_neg Bool.false_ne_true]
          refine push_holding h hmem hvalid ?_
          rw [hdots, Place.parts, Place.parts, hnames, List.append_nil, List.append_nil]
          exact List.replicate_succ'
        · rw [if_pos hroot] at hvalid ⊢
          rw [hrooted, decide_eq_true hroot, if_pos rfl]
          exact h
      · rw [if_pos hnames] at hvalid ⊢
        rw [decide_eq_true hnames, if_pos rfl]
        obtain ⟨names, name, hlast⟩ := (List.eq_nil_or_concat' x.names).resolve_left hnames
        have helems : parts.elems = (List.replicate x.ups [46#8, 46#8] ++ names) ++ [name] := by
          rw [h.elems, Place.parts, hlast, List.append_assoc]
        have hok := h.ok
        have hle := hok.le
        rw [Vec.pop_eq hok helems, done_bind]
        refine ⟨⟨hok.pos, ?_, hok.lt⟩, ?_, hvalid⟩
        · rw [helems, List.length_append] at hle
          dsimp only
          omega
        · dsimp only [Place.parts]
          rw [hlast, List.dropLast_concat]
    · rw [if_neg hdots] at hvalid ⊢
      rw [if_neg hdots]
      refine push_holding h hmem hvalid ?_
      rw [Place.parts, Place.parts, List.append_assoc]

/-! ### The loop -/

/-- Up to the place `i`, the vec holds the parts of the way, and what is left of the path leads on. -/
structure Walked (p : Bytes) (root : Nat) (s : Nat × Vec σ Bytes) (x : Place (BitVec 8)) : Prop where
  holding : Holding x s.2
  root : x.root = root
  length : s.2.elems.length ≤ s.1
  le : s.1 ≤ p.length + 1
  leads : ((p.drop s.1).splitOn 47#8).foldl (enter 46#8) x = placeOf p

/-- A part, and what is after it. -/
theorem part_split (b : Bytes) : 47#8 ∉ b.takeWhile (Kind false) ∧
    (b.takeWhile (Kind false) = b ∨ ∃ r, b = b.takeWhile (Kind false) ++ 47#8 :: r) := by
  refine ⟨fun hmem => ?_, ?_⟩
  · have hkind := List.mem_takeWhile_imp hmem
    rw [kind_false] at hkind
    simp at hkind
  · cases hrest : b.dropWhile (Kind false) with
    | nil =>
      left
      conv_rhs => rw [← List.takeWhile_append_dropWhile (p := Kind false) (l := b), hrest, List.append_nil]
    | cons c r =>
      right
      have hc : c = 47#8 := by
        have hnot := List.head_dropWhile_not (Kind false) (by rw [hrest]; exact List.cons_ne_nil _ _)
        simp only [hrest, List.head_cons, kind_false] at hnot
        simpa using hnot
      refine ⟨r, ?_⟩
      rw [← hc, ← hrest, List.takeWhile_append_dropWhile]

variable {root : Nat} {s : Nat × Vec σ Bytes}

theorem partRound_endsOr (h : Walked p root s x) (hrooted : rooted = decide (root ≠ 0))
    (hmem : C ∨ Plentiful A ∧ p.length < 2 ^ 26) (hfuel : p.length < fuel) :
    EndsOr C (Sum.elim (fun s' => (∃ x', Walked p root s' x') ∧ p.length + 1 - s'.1 < p.length + 1 - s.1) (Holding (placeOf p)))
      (partRound A fuel p rooted s) := by
  obtain ⟨i, parts⟩ := s
  obtain ⟨hholding, hroot, hlength, hle, hleads⟩ := h
  dsimp only at hholding hlength hle hleads ⊢
  rw [partRound]
  by_cases hi : i < p.length
  · obtain ⟨hmem47, hsplit⟩ := part_split (p.drop i)
    have hseg : ((p.drop i).takeWhile (Kind false)).length ≤ p.length - i := by
      rw [← List.length_drop]
      exact (List.takeWhile_prefix _).length_le
    have hslice : slice p i (i + ((p.drop i).takeWhile (Kind false)).length - i) = done ((p.drop i).takeWhile (Kind false)) := by
      rw [Nat.add_sub_cancel_left, slice_eq (by omega)]
      exact congrArg done (List.prefix_iff_eq_take.mp (List.takeWhile_prefix _)).symm
    rw [if_pos hi, onLoop_eq p false (p.length - i) i fuel (by omega) (by omega), done_bind, hslice, done_bind]
    refine endsOr_bind (addPart_endsOr hholding hmem47 (by rw [hrooted, hroot]) (hmem.imp_right fun hm => ⟨hm.1, by omega⟩))
      fun parts' hparts' => ?_
    have hgrown := length_parts_enter_le 46#8 x ((p.drop i).takeWhile (Kind false))
    rw [← hparts'.elems, ← hholding.elems] at hgrown
    refine ⟨⟨enter 46#8 x ((p.drop i).takeWhile (Kind false)), hparts', (enter_root _ _).trans hroot, ?_, ?_, ?_⟩, ?_⟩
    · dsimp only
      omega
    · dsimp only
      omega
    · dsimp only
      rcases hsplit with hall | ⟨r, hr⟩
      · -- the last part
        have hlast : p.drop (i + ((p.drop i).takeWhile (Kind false)).length + 1) = [] := by
          refine List.drop_eq_nil_of_le ?_
          rw [hall, List.length_drop]
          omega
        rw [hall] at hmem47 ⊢
        rw [List.splitOn_eq_singleton hmem47] at hleads
        rw [hall] at hlast
        rw [hlast, List.splitOn_nil, List.foldl_cons, enter_nil]
        exact hleads
      · have hdrop : p.drop (i + ((p.drop i).takeWhile (Kind false)).length + 1) = r := by
          have hd : (p.drop i).drop ((p.drop i).takeWhile (Kind false)).length = 47#8 :: r := by
            generalize (p.drop i).takeWhile (Kind false) = seg at hr ⊢
            rw [hr]
            exact List.drop_left
          rw [List.drop_drop] at hd
          exact drop_succ hd
        rw [hdrop]
        rw [hr, List.splitOn_append_cons_self_of_not_mem hmem47] at hleads
        exact hleads
    · dsimp only
      omega
  · rw [if_neg hi]
    rw [List.drop_eq_nil_of_le (by omega), List.splitOn_nil, List.foldl_cons, enter_nil] at hleads
    rw [← show x = placeOf p from hleads]
    exact hholding

/-- **After the loop** the vec holds the parts of the way to where the path leads. -/
theorem partLoop_endsOr (h : Walked p root s x) (hrooted : rooted = decide (root ≠ 0))
    (hmem : C ∨ Plentiful A ∧ p.length < 2 ^ 26) (hfuel : p.length + 1 < fuel) :
    EndsOr C (Holding (placeOf p)) (iterate (partRound A fuel p rooted) fuel s) := by
  refine iterate_endsOr (fun s => ∃ x, Walked p root s x) _ (fun s => p.length + 1 - s.1) ?_ fuel s ⟨x, h⟩ (by omega)
  rintro s' ⟨x', h'⟩
  exact partRound_endsOr h' hrooted hmem (by omega)

/-! ### The text -/

theorem splitOn_isUtf8 : ∀ {p : Bytes}, IsUtf8 p → ∀ part ∈ p.splitOn 47#8, IsUtf8 part := by
  intro p
  induction hn : p.length using Nat.strong_induction_on generalizing p with
  | _ n ih =>
    intro hp part hmem
    obtain ⟨hseg, hall | ⟨r, hr⟩⟩ := part_split p
    · rw [hall] at hseg
      rw [List.splitOn_eq_singleton hseg, List.mem_singleton] at hmem
      rwa [hmem]
    · rw [hr] at hp
      obtain ⟨hfirst, hrest⟩ := (isUtf8_at (by decide)).mp hp
      rw [hr, List.splitOn_append_cons_self_of_not_mem hseg] at hmem
      rcases List.mem_cons.mp hmem with rfl | hmem
      · exact hfirst
      · have hlen := congrArg List.length hr
        rw [List.length_append, List.length_cons] at hlen
        exact ih r.length (by omega) rfl hrest part hmem

theorem intercalate_isUtf8 {l : List Bytes} (h : ∀ part ∈ l, IsUtf8 part) : IsUtf8 ([47#8].intercalate l) := by
  induction l with
  | nil => exact isUtf8_nil
  | cons part l ih =>
    have hfirst := h part List.mem_cons_self
    have hrest := ih fun part' hmem => h part' (List.mem_cons_of_mem _ hmem)
    cases l with
    | nil => rwa [List.intercalate_singleton]
    | cons part' l =>
      rw [List.intercalate_cons_cons, List.append_assoc]
      exact (isUtf8_at (by decide)).mpr ⟨hfirst, hrest⟩

/-- The way to where a text leads is text. -/
theorem way_isUtf8 (hp : IsUtf8 p) :
    IsUtf8 (List.replicate (placeOf p).root 47#8 ++ [47#8].intercalate ((placeOf p).parts 46#8)) := by
  refine IsUtf8.append (StdUrl.isUtf8_ascii fun c hc => ?_) (intercalate_isUtf8 fun part hmem => ?_)
  · rw [List.eq_of_mem_replicate hc]
    decide
  · rcases List.mem_append.mp hmem with hmem | hmem
    · rw [List.eq_of_mem_replicate hmem]
      exact StdUrl.isUtf8_ascii (by decide)
    · refine splitOn_isUtf8 hp part ((mem_names_walk hmem).resolve_left List.not_mem_nil)

theorem rootOf_eq (n : Nat) : rootOf n = List.replicate (rootWidth n) 47#8 := by
  rw [rootOf, rootWidth]
  split
  · rfl
  · split
    · rfl
    · rfl

theorem intercalate_take_succ {l : List Bytes} {k : Nat} (hk : l[k]? = some part) :
    [47#8].intercalate (l.take (k + 1)) = [47#8].intercalate (l.take k) ++ ((if 0 < k then [47#8] else []) ++ part) := by
  induction l generalizing k with
  | nil => cases hk
  | cons first l ih =>
    cases k with
    | zero =>
      obtain rfl : first = part := Option.some.inj hk
      simp
    | succ k =>
      have hrest := ih (k := k) hk
      cases l with
      | nil => cases hk
      | cons second l =>
        rw [List.take_succ_cons, List.take_succ_cons, List.take_succ_cons, List.intercalate_cons_cons, ← List.take_succ_cons, hrest,
          if_pos (Nat.succ_pos k)]
        cases k with
        | zero => simp
        | succ k =>
          rw [List.take_succ_cons, List.intercalate_cons_cons, if_pos (Nat.succ_pos k)]
          simp only [List.append_assoc]

theorem length_intercalate_take_le (l : List Bytes) (k : Nat) :
    ([47#8].intercalate (l.take k)).length ≤ ([47#8].intercalate l).length := by
  by_cases hnil : l.take k = []
  · rw [hnil, List.intercalate_nil]
    exact Nat.zero_le _
  · have hl : l ≠ [] := fun h => hnil (by rw [h, List.take_nil])
    have htake := length_intercalate 47#8 _ hnil
    have hall := length_intercalate 47#8 _ hl
    have hsplit := weight_append (l.take k) (l.drop k)
    rw [List.take_append_drop] at hsplit
    omega

/-- The parts go out. -/
theorem pushParts_endsOr (h : parts.Ok) {o : Content σ} {out : Bytes} {N : Nat} (hbytes : o.bytes = out)
    (hN : out.length + ([47#8].intercalate parts.elems).length ≤ N) (hspace : o.Space C (N - out.length)) (hfuel : 2 ^ 31 ≤ fuel) :
    EndsOr C (fun o' => o'.bytes = out ++ [47#8].intercalate parts.elems)
      (foldAll (pushPart A fuel parts) o (List.range parts.len.toNat)) := by
  have hlen := h.toNat_len
  have hle := h.le
  have hlt := h.lt
  rw [hlen]
  refine (foldAll_range_endsOr (fun k o' => o'.bytes = out ++ [47#8].intercalate (parts.elems.take k) ∧
    o'.Space C (N - o'.bytes.length)) ?_ parts.elems.length ?_).mono fun o' ho' => ?_
  · rw [List.take_zero, List.intercalate_nil, List.append_nil, hbytes]
    exact ⟨rfl, hspace⟩
  · rintro k o' hk ⟨hbytes', hspace'⟩
    obtain ⟨part, hpart⟩ : ∃ part, parts.elems[k]? = some part := ⟨_, List.getElem?_eq_getElem hk⟩
    have hnext := intercalate_take_succ hpart
    have hmost := length_intercalate_take_le parts.elems (k + 1)
    have hk32 : (BitVec.ofNat 32 k).toNat = k := Nat.mod_eq_of_lt (by omega)
    have hroom : o'.bytes.length + ((if 0 < k then [47#8] else []) ++ part).length ≤ N := by
      rw [hnext, List.length_append] at hmost
      rw [hbytes', List.length_append]
      omega
    rw [List.length_append] at hroom
    have hslash : EndsOr C (fun o₁ => o₁.bytes = o'.bytes ++ (if 0 < k then [47#8] else []) ∧ o₁.Space C (N - o₁.bytes.length))
        (if 0 < k then o'.pushByte A fuel 47#32 else done o') := by
      by_cases hpos : 0 < k
      · rw [if_pos hpos] at hroom ⊢
        rw [if_pos hpos]
        rw [List.length_singleton] at hroom
        rw [show N - o'.bytes.length = N - (o'.bytes.length + 1) + 1 by omega] at hspace'
        refine (Content.pushByte_space hspace' hfuel 47#32).mono fun o₁ ⟨hbytes₁, hspace₁⟩ => ⟨hbytes₁, ?_⟩
        rw [hbytes₁, List.length_append]
        exact hspace₁
      · rw [if_neg hpos, if_neg hpos, List.append_nil]
        exact ⟨rfl, hspace'⟩
    rw [pushPart]
    refine endsOr_bind hslash fun o₁ ⟨hbytes₁, hspace₁⟩ => ?_
    rw [Vec.at_eq h (by rw [hk32]; exact hpart), done_bind]
    have hlen₁ := congrArg List.length hbytes₁
    rw [List.length_append] at hlen₁
    rw [show N - o₁.bytes.length = part.length + (N - (o₁.bytes.length + part.length)) by omega] at hspace₁
    refine (Content.pushBytes_space hspace₁ hfuel).mono fun o₂ ⟨hbytes₂, hspace₂⟩ => ⟨?_, ?_⟩
    · rw [hbytes₂, hbytes₁, hbytes', hnext]
      simp only [List.append_assoc]
    · rw [hbytes₂, List.length_append]
      exact hspace₂
  · rw [List.take_length] at ho'
    exact ho'.1

/-! ### `normalize` -/

/-- The shortest path to where a path leads. -/
noncomputable abbrev shortest (p : Bytes) : Bytes := render 47#8 46#8 (placeOf p)

theorem lead_eq (p : Bytes) : (p.takeWhile (Kind true)).length = lead 47#8 p := by
  rw [lead, show Kind true = fun c => decide (c = 47#8) from funext kind_true]

theorem drop_lead (p : Bytes) : p = List.replicate (lead 47#8 p) 47#8 ++ p.drop (lead 47#8 p) := by
  have hall : p.takeWhile (· = 47#8) = List.replicate (lead 47#8 p) 47#8 :=
    List.eq_replicate_iff.mpr ⟨rfl, fun c hc => by simpa using List.mem_takeWhile_imp hc⟩
  have htake : p.take (lead 47#8 p) = p.takeWhile (· = 47#8) := (List.prefix_iff_eq_take.mp (List.takeWhile_prefix _)).symm
  rw [← hall, ← htake, List.take_append_drop]

/-- **Normalising** gives the shortest path to where the path leads. -/
theorem normalize_endsOr (heap : σ) (hp : IsUtf8 p) (hlen : p.length + 8 < 2 ^ 31) (hmem : C ∨ Plentiful A ∧ p.length < 2 ^ 26)
    (hfuel : 2 ^ 31 ≤ fuel) : EndsOr C (· = shortest p) (normalize A fuel heap p) := by
  rw [normalize]
  by_cases hnil : p.length = 0
  · rw [if_pos hnil]
    obtain rfl := List.eq_nil_of_length_eq_zero hnil
    simp [shortest, placeOf, Paths.place, render, enter, rootWidth, lead, Place.parts]
  · rw [if_neg hnil, onLoop_eq p true p.length 0 fuel (by omega) (by omega), done_bind, List.drop_zero, lead_eq, Nat.zero_add]
    have hsixteen : view.size.toInt = 16 := by decide
    have height : (8#32).toInt = 8 := by decide
    refine endsOr_bind (Vec.make_endsOr (hmem.imp_right fun h => ⟨h.1, by rw [hsixteen]; decide, by rw [height]; decide, ?_⟩))
      ?_
    · rw [hsixteen, height]
      decide
    rintro parts ⟨hok, hnone, -⟩
    have hleadLe : lead 47#8 p ≤ p.length := (List.takeWhile_prefix _).length_le
    have hwalked : Walked p (rootWidth (lead 47#8 p)) (lead 47#8 p, parts) ⟨rootWidth (lead 47#8 p), 0, []⟩ := by
      refine ⟨⟨hok, hnone, (rootWidth_le _).1, fun _ => rfl, fun _ h => absurd h List.not_mem_nil⟩, rfl, ?_, ?_, ?_⟩
      · dsimp only
        rw [hnone]
        exact Nat.zero_le _
      · dsimp only
        omega
      · dsimp only
        rw [placeOf, Paths.place]
        conv_rhs => rw [drop_lead p, walk_replicate]
        rw [← drop_lead p]
    have hrooted : decide (0 < (rootOf (lead 47#8 p)).length) = decide (rootWidth (lead 47#8 p) ≠ 0) := by
      rw [rootOf_eq, List.length_replicate]
      exact decide_eq_decide.mpr Nat.pos_iff_ne_zero
    refine endsOr_bind (partLoop_endsOr hwalked hrooted hmem (by omega)) fun parts' hparts' => ?_
    have hcap : (BitVec.ofNat 32 (p.length + 2)).toNat = p.length + 2 := Nat.mod_eq_of_lt (by omega)
    refine endsOr_bind (Content.make_endsOr (hmem.imp_right fun h => ⟨h.1, by rw [toInt_eq_toNat (by omega), hcap]; omega⟩))
      ?_
    rintro o ⟨hempty, hcapEq⟩
    have hroot := place_root 47#8 46#8 p
    have hway : (List.replicate (placeOf p).root 47#8 ++ [47#8].intercalate ((placeOf p).parts 46#8)).length ≤ p.length :=
      length_way_le p
    rw [List.length_append, hroot, ← rootOf_eq] at hway
    have hroom : p.length + 2 ≤ o.cap.toNat ∧ o.cap.toNat < 2 ^ 31 := by
      have hslt := slt_iff (x := BitVec.ofNat 32 (p.length + 2)) (y := 16#32) (by omega) (by decide)
      rw [hcapEq]
      split
      · rename_i hsmall
        rw [hslt, hcap] at hsmall
        exact ⟨by simp only [BitVec.toNat_ofNat] at hsmall ⊢; omega, by decide⟩
      · rw [hcap]
        omega
    have hspace : o.Space C ((rootOf (lead 47#8 p)).length + (p.length - (rootOf (lead 47#8 p)).length)) := by
      refine .inr ⟨?_, hroom.2⟩
      rw [hempty, List.length_nil]
      omega
    refine endsOr_bind (Content.pushBytes_space hspace hfuel) ?_
    rintro o₁ ⟨hbytes₁, hspace₁⟩
    rw [hempty, List.nil_append] at hbytes₁
    refine endsOr_bind (pushParts_endsOr hparts'.ok hbytes₁ (by rw [hparts'.elems]; exact hway) hspace₁ hfuel) fun o₂ hbytes₂ => ?_
    rw [hparts'.elems, rootOf_eq, ← hroot] at hbytes₂
    rw [rootOf_eq, ← hroot, ← List.length_append, ← hbytes₂] at hway
    have hzero : o₂.len = 0#32 ↔ (placeOf p).root = 0 ∧ (placeOf p).parts 46#8 = [] := by
      rw [← way_eq_nil_iff hparts'.valid, ← hbytes₂, ← List.length_eq_zero_iff, ← Content.toNat_len (by omega)]
      exact ⟨fun h => by rw [h]; rfl, fun h => BitVec.eq_of_toNat_eq h⟩
    have hstr : EndsOr C (· = shortest p) (if o₂.len = 0#32 then done [46#8] else fromBytes fuel o₂.bytes) := by
      rw [shortest, render]
      by_cases hhere : (placeOf p).root = 0 ∧ (placeOf p).parts 46#8 = []
      · rw [if_pos (hzero.mpr hhere), if_pos hhere]
        rfl
      · rw [if_neg fun h => hhere (hzero.mp h), if_neg hhere, fromBytes_eq (by rw [hbytes₂]; exact way_isUtf8 hp) (by omega) (by omega)]
        exact hbytes₂
    refine endsOr_bind hstr fun s hs => ?_
    refine endsOr_bind (Content.free_endsOr (hmem.imp_right fun h => h.1)) fun heap₁ _ => ?_
    exact endsOr_bind (Vec.free_endsOr (hmem.imp_right fun h => h.1)) fun heap₂ _ => hs

/-! ### A path taken apart -/

theorem isAbsolute_eq (p : Bytes) : isAbsolute p = done (decide (lead 47#8 p ≠ 0)) := by
  cases p with
  | nil => rfl
  | cons c r =>
    rw [isAbsolute, if_pos (by simp), byteAt_drop (show (c :: r).drop 0 = c :: r from rfl), done_bind, pure_eq]
    congr 1
    refine decide_eq_decide.mpr ?_
    by_cases hc : c = 47#8
    · simp [hc, lead]
    · simp [hc, lead, slash_iff]

theorem piece_eq {i k : Nat} (hik : i ≤ k) (hk : k ≤ p.length) (hpart : (p.drop i).take (k - i) = part) (hutf8 : IsUtf8 part)
    (hlen : p.length + 8 < 2 ^ 31) (hfuel : 2 ^ 31 ≤ fuel) : piece fuel p i k = done part := by
  have hle := congrArg List.length hpart
  rw [List.length_take, List.length_drop] at hle
  rw [piece, slice_eq (by omega), done_bind, hpart]
  exact fromBytes_eq hutf8 (by omega) (by omega)

theorem afterSlash_none (h : 47#8 ∉ p) (hfuel : p.length < fuel) : afterSlash fuel p = done 0 := by
  rw [afterSlash, backLoop_eq p false p.length fuel le_rfl hfuel, List.take_length, show Kind false = fun c => decide (c ≠ 47#8) from
    funext kind_false, StdUrl.rdropWhile_of_not_mem h]
  rfl

theorem afterSlash_last {a name : Bytes} (hname : 47#8 ∉ name) (hfuel : (a ++ 47#8 :: name).length < fuel) :
    afterSlash fuel (a ++ 47#8 :: name) = done (a.length + 1) := by
  rw [afterSlash, backLoop_eq _ false _ fuel le_rfl hfuel, List.take_length, show Kind false = fun c => decide (c ≠ 47#8) from
    funext kind_false, StdUrl.rdropWhile_append hname, List.length_append, List.length_singleton]

/-- The loop that looks for what is no slash. -/
theorem allSlashes_ends {i : Nat} (hi : i ≤ p.length) : Ends (fun all => all = true ↔ ∀ c ∈ p.take i, c = 47#8)
    (foldAll (fun all k => do
      let c ← byteAt p k
      pure (if c ≠ 47 then false else all)) true (List.range i)) := by
  refine foldAll_range_ends (fun k all => all = true ↔ ∀ c ∈ p.take k, c = 47#8) (by simp) i fun k all hk hall => ?_
  obtain ⟨c, r, hdrop⟩ := exists_cons (show k < p.length by omega)
  rw [byteAt_drop hdrop, done_bind, pure_eq, ends_done, List.take_add_one, getElem?_of_drop hdrop, Option.toList_some]
  by_cases hc : c = 47#8
  · rw [if_neg (not_not_intro ((slash_iff c).mpr hc)), hall]
    simp [hc, or_imp]
  · rw [if_pos fun h => hc ((slash_iff c).mp h)]
    simp [hc]

/-- The slashes that end a text, and what is before them. -/
theorem ending_slashes (l : Bytes) : (∃ n, l = l.rdropWhile (Kind true) ++ List.replicate n 47#8) ∧
    ∀ x c, l.rdropWhile (Kind true) = x ++ [c] → c ≠ 47#8 := by
  induction l using List.reverseRecOn with
  | nil => exact ⟨⟨0, rfl⟩, fun x c h => by simp at h⟩
  | append_singleton l d ih =>
    by_cases hd : d = 47#8
    · obtain ⟨⟨n, hn⟩, hlast⟩ := ih
      have hdrop : (l ++ [d]).rdropWhile (Kind true) = l.rdropWhile (Kind true) :=
        List.rdropWhile_concat_pos _ _ _ (by rw [kind_true]; exact decide_eq_true hd)
      rw [hdrop]
      refine ⟨⟨n + 1, ?_⟩, hlast⟩
      rw [List.replicate_succ', ← List.append_assoc, ← hn, hd]
    · have hdrop : (l ++ [d]).rdropWhile (Kind true) = l ++ [d] :=
        List.rdropWhile_concat_neg _ _ _ (by rw [kind_true]; simpa using hd)
      rw [hdrop]
      refine ⟨⟨0, (List.append_nil _).symm⟩, fun x c h => ?_⟩
      have heq : d = c := List.singleton_inj.mp (List.append_inj' h rfl).2
      rwa [← heq]

theorem endsOpen_concat (x : Bytes) (c : BitVec 8) : endsOpen (x ++ [c]) = done (decide (c = 47#8)) := by
  have hlen : (x ++ [c]).length = x.length + 1 := by rw [List.length_append, List.length_singleton]
  have hdrop : (x ++ [c]).drop x.length = [c] := List.drop_left
  rw [endsOpen, if_neg (by omega), hlen, Nat.add_sub_cancel, byteAt_drop hdrop, done_bind, pure_eq]
  simp only [slash_iff]

theorem lead_of_not_mem (h : 47#8 ∉ p) : lead 47#8 p = 0 := by
  cases p with
  | nil => rfl
  | cons c r =>
    rw [List.mem_cons, not_or] at h
    simp [lead, Ne.symm h.1]

/-- **A path taken apart and put together** leads where it led. -/
theorem split_ends (hp : IsUtf8 p) (hlen : p.length + 8 < 2 ^ 31) (hfuel : 2 ^ 31 ≤ fuel) :
    Ends (fun j => placeOf j = placeOf p ∧ IsUtf8 j ∧ j.length ≤ p.length)
      (do
        let a ← parent fuel p
        let b ← fileName fuel p
        join a b) := by
  rcases StdUrl.last_segment p with hnone | ⟨a, name, rfl, hname⟩
  · have hparent : parent fuel p = done [] := by
      rw [parent, afterSlash_none hnone (by omega), done_bind]
      exact piece_eq le_rfl (Nat.zero_le _) rfl isUtf8_nil hlen hfuel
    have hfile : fileName fuel p = done p := by
      rw [fileName, afterSlash_none hnone (by omega), done_bind]
      exact piece_eq (Nat.zero_le _) le_rfl (by simp) hp hlen hfuel
    rw [hparent, done_bind, hfile, done_bind, join, isAbsolute_eq, lead_of_not_mem hnone, done_bind]
    exact ⟨rfl, hp, le_rfl⟩
  · obtain ⟨ha, hnameUtf8⟩ := (isUtf8_at (by decide)).mp hp
    have hlength : (a ++ 47#8 :: name).length = a.length + 1 + name.length := by
      rw [List.length_append, List.length_cons]
      omega
    have htake : (a ++ 47#8 :: name).take (a.length + 1) = a ++ [47#8] := by
      rw [List.take_append, List.take_of_length_le (by omega), Nat.add_sub_cancel_left]
      rfl
    have hfile : fileName fuel (a ++ 47#8 :: name) = done name := by
      rw [fileName, afterSlash_last hname (by omega), done_bind]
      refine piece_eq (by omega) le_rfl ?_ hnameUtf8 hlen hfuel
      rw [List.take_of_length_le (by rw [List.length_drop]), ← List.drop_drop, List.drop_left]
      rfl
    obtain ⟨all, hall, hiff⟩ := (allSlashes_ends (p := a ++ 47#8 :: name) (i := a.length + 1) (by omega)).exists
    rw [htake] at hiff
    rw [parent, afterSlash_last hname (by omega), done_bind, hall, done_bind, hfile]
    cases all with
    | true =>
      have hparent : piece fuel (a ++ 47#8 :: name) 0 (a.length + 1) = done (a ++ [47#8]) :=
        piece_eq (Nat.zero_le _) (by omega) htake ((isUtf8_at (by decide)).mpr ⟨ha, isUtf8_nil⟩) hlen hfuel
      rw [if_pos rfl, pure_eq, done_bind, hparent, done_bind, done_bind, join, isAbsolute_eq, lead_of_not_mem hname, done_bind]
      rw [endsOpen_concat]
      have heq : (a ++ [47#8]) ++ name = a ++ 47#8 :: name := by rw [List.append_assoc]; rfl
      exact ⟨congrArg placeOf heq, by rw [← heq] at hp; exact hp, (congrArg List.length heq).le⟩
    | false =>
      have hsome : ¬ ∀ c ∈ a ++ [47#8], c = 47#8 := fun h => Bool.false_ne_true (hiff.mpr h)
      obtain ⟨⟨n, hn⟩, hlast⟩ := ending_slashes (a ++ [47#8])
      rw [if_neg Bool.false_ne_true, backLoop_eq _ true _ _ (by omega) (by omega), htake, done_bind]
      generalize (a ++ [47#8]).rdropWhile (Kind true) = a' at hn hlast ⊢
      rcases List.eq_nil_or_concat' a' with rfl | ⟨x, c, rfl⟩
      · exact absurd (fun c hc => by rw [hn, List.nil_append] at hc; exact List.eq_of_mem_replicate hc) hsome
      · have hc := hlast x c rfl
        obtain ⟨k, rfl⟩ : ∃ k, n = k + 1 := by
          cases n with
          | zero =>
            rw [List.replicate_zero, List.append_nil] at hn
            exact absurd (List.singleton_inj.mp (List.append_inj' hn rfl).2).symm hc
          | succ k => exact ⟨k, rfl⟩
        have hsplit : a ++ 47#8 :: name = (x ++ [c]) ++ 47#8 :: (List.replicate k 47#8 ++ name) := by
          rw [← List.singleton_append, ← List.append_assoc, hn, List.replicate_succ]
          simp only [List.append_assoc, List.cons_append]
        have hparent : piece fuel (a ++ 47#8 :: name) 0 (x ++ [c]).length = done (x ++ [c]) := by
          refine piece_eq (Nat.zero_le _) ?_ ?_ ?_ hlen hfuel
          · rw [hsplit]
            exact (List.prefix_append _ _).length_le
          · rw [List.drop_zero, Nat.sub_zero, hsplit, List.take_left]
          · rw [hsplit] at hp
            exact ((isUtf8_at (by decide)).mp hp).1
        have hutf8 : IsUtf8 (x ++ [c]) := by
          rw [hsplit] at hp
          exact ((isUtf8_at (by decide)).mp hp).1
        rw [hparent, done_bind, done_bind, join, isAbsolute_eq, lead_of_not_mem hname, done_bind, if_neg (by simp), endsOpen_concat, done_bind,
          decide_eq_false hc, if_neg Bool.false_ne_true]
        have heq : ((x ++ [c]) ++ [47#8]) ++ name = (x ++ [c]) ++ 47#8 :: name := by rw [List.append_assoc]; rfl
        refine ⟨?_, ?_, ?_⟩
        · rw [heq, hsplit]
          exact (place_separators k ⟨c, by simp, hc⟩ name).symm
        · rw [heq]
          exact (isUtf8_at (by decide)).mpr ⟨hutf8, hnameUtf8⟩
        · rw [heq, hsplit]
          simp

/-! ### The form -/

/-- **A normalised path**: of the canonical paths, the one that leads where the path leads. -/
structure Normal (p q : Bytes) : Prop where
  canonical : Canonical 47#8 46#8 q
  place : placeOf q = placeOf p
  unique : ∀ q', Canonical 47#8 46#8 q' → placeOf q' = placeOf p → q' = q
  absolute : isAbsolute q = isAbsolute p

theorem rootWidth_ne_zero (n : Nat) : rootWidth n ≠ 0 ↔ n ≠ 0 := by
  rw [rootWidth]
  split
  · omega
  · split
    · omega
    · omega

theorem normal_shortest (p : Bytes) : Normal p (shortest p) := by
  have hvalid : (placeOf p).Valid 47#8 46#8 := place_valid p
  have hplace : placeOf (shortest p) = placeOf p := place_render (by decide) hvalid
  refine ⟨canonical_render hvalid, hplace, fun q' hq' hplace' => ?_, ?_⟩
  · rw [hq'.eq_render (by decide), show place 47#8 46#8 q' = placeOf p from hplace']
  · have hroot := congrArg Place.root hplace
    rw [placeOf, place_root, place_root] at hroot
    rw [isAbsolute_eq, isAbsolute_eq]
    congr 1
    refine decide_eq_decide.mpr ?_
    rw [← rootWidth_ne_zero, hroot, rootWidth_ne_zero]

/-- There may be too little memory for the parts of the path. -/
def Scarce (A : Allocator σ) (p : Bytes) : Prop := ¬ Plentiful A ∨ 2 ^ 26 ≤ p.length

theorem scarce_or {q : Bytes} (hle : q.length ≤ max p.length 1) : Scarce A p ∨ Plentiful A ∧ q.length < 2 ^ 26 := by
  by_cases hA : Plentiful A
  · rcases Nat.lt_or_ge p.length (2 ^ 26) with hlt | hge
    · exact .inr ⟨hA, by omega⟩
    · exact .inl (.inr hge)
  · exact .inl (.inl hA)

/-- **Normalising is canonical.**  It ends, but for want of memory, with the one canonical path that leads where the
path leads; normalising that changes nothing; and the parent and the file name of a path, joined, are normalised to
the same path. -/
theorem normalize_canonical (A : Allocator σ) (heap : σ) (hp : IsUtf8 p) (hlen : p.length + 8 < 2 ^ 31) (hfuel : 2 ^ 31 ≤ fuel) :
    EndsOr (Scarce A p) (fun q => Normal p q ∧ ∀ heap', EndsOr (Scarce A p) (· = q) (normalize A fuel heap' q))
      (normalize A fuel heap p) ∧
    Ends (fun j => ∀ heap', EndsOr (Scarce A p) (fun q => EndsOr (Scarce A p) (· = q) (normalize A fuel heap p)) (normalize A fuel heap' j))
      (do
        let a ← parent fuel p
        let b ← fileName fuel p
        join a b) := by
  have hself := normalize_endsOr heap hp hlen (scarce_or (A := A) (p := p) (by omega)) hfuel
  constructor
  · refine hself.mono fun q hq => ⟨hq ▸ normal_shortest p, fun heap' => ?_⟩
    have hle : q.length ≤ max p.length 1 := hq ▸ length_render_place_le p
    have hutf8 : IsUtf8 q := by
      rw [hq, shortest, render]
      split
      · exact StdUrl.isUtf8_ascii (by decide)
      · exact way_isUtf8 hp
    refine (normalize_endsOr heap' hutf8 (by omega) (scarce_or hle) hfuel).mono fun q' hq' => ?_
    rw [hq', hq, shortest, show placeOf (shortest p) = placeOf p from (normal_shortest p).place]
  · refine (split_ends hp hlen hfuel).mono ?_
    rintro j ⟨hplace, hutf8, hle⟩ heap'
    refine (normalize_endsOr heap' hutf8 (by omega) (scarce_or (by omega)) hfuel).mono fun q hq => ?_
    refine hself.mono fun q' hq' => ?_
    rw [hq', hq, shortest, shortest, hplace]

/-- "a//./b/../../../c". -/
def upAndOver : Bytes := [97#8, 47#8, 47#8, 46#8, 47#8, 98#8, 47#8, 46#8, 46#8, 47#8, 46#8, 46#8, 47#8, 46#8, 46#8, 47#8, 99#8]

/-- It is normalised to "../c". -/
theorem normalize_upAndOver :
    Ends (· = [46#8, 46#8, 47#8, 99#8]) (normalize Allocator.ample (2 ^ 31) () upAndOver) := by
  have hutf8 : IsUtf8 upAndOver := StdUrl.isUtf8_ascii (by decide)
  have hnormal := (normalize_canonical Allocator.ample () hutf8 (by decide) (le_refl (2 ^ 31))).1
  have hample : Plentiful Allocator.ample := ⟨fun _ _ => rfl, fun _ _ => rfl⟩
  have hmemory : ¬ Scarce Allocator.ample upAndOver := fun h => h.elim (fun h => h hample) (by decide)
  refine endsOr_false.mp ?_
  rw [eq_false hmemory] at hnormal
  refine hnormal.mono fun q ⟨hq, _⟩ => (hq.unique _ ?_ ?_).symm
  · exact .inr ⟨0, 1, [[99#8]], by simp, by simp, by decide, by decide, fun part h => by
      rw [List.mem_singleton] at h
      subst h
      exact ⟨by decide, by decide, by decide, by decide⟩⟩
  · rfl

end Aipl.StdPath
