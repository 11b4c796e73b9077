import Aipl.Std.Stream.Reads

/-! # Runs of a reader

A run starts with a reader of the bytes `t`, made from a source that delivers them in some pieces, and is
made of reads in any order, with the allocator used by others in between.

* `reads_exact` — the reads take the bytes of `t` in order, each once, and what each returns is told by
  the bytes it takes; the lines of `next_line` alone are those of `text.lines`.
* `not_every_line_ends` — a fill that asks for room no doubling reaches never ends.
-/

namespace Aipl.StdStream

open Aipl.Lib Aipl.Lib.Outcome Aipl.Std
open Aipl.StdBuf (u8 Content)

/-! ### The lines of a text -/

/-- The lines of a text: each ends at a "\n", which it leaves out with a "\r" before it; bytes behind
the last "\n" are a line as they are. -/
inductive Lines : List (BitVec 8) → List (List (BitVec 8)) → Prop where
  | nil : Lines [] []
  | last {l : List (BitVec 8)} (h : 10#8 ∉ l) (hne : l ≠ []) : Lines l [l]
  | cons {l t : List (BitVec 8)} {ls : List (List (BitVec 8))} (h : 10#8 ∉ l) (ht : Lines t ls) :
      Lines (l ++ [10#8] ++ t) (dropCr l :: ls)

theorem split_unique {l l' t t' : List (BitVec 8)} (h : 10#8 ∉ l) (h' : 10#8 ∉ l')
    (heq : l ++ [10#8] ++ t = l' ++ [10#8] ++ t') : l = l' ∧ t = t' := by
  induction l generalizing l' with
  | nil =>
    cases l' with
    | nil => simpa using heq
    | cons b l' =>
      injection heq with hb
      subst hb
      exact absurd List.mem_cons_self h'
  | cons a l ih =>
    cases l' with
    | nil =>
      injection heq with hb
      subst hb
      exact absurd List.mem_cons_self h
    | cons b l' =>
      injection heq with hab heq
      obtain ⟨rfl, rfl⟩ := ih (List.not_mem_of_not_mem_cons h) (List.not_mem_of_not_mem_cons h') heq
      exact ⟨by rw [hab], rfl⟩

theorem Lines.unique {t : List (BitVec 8)} {ls ls' : List (List (BitVec 8))} (h : Lines t ls)
    (h' : Lines t ls') : ls = ls' := by
  induction h generalizing ls' with
  | nil =>
    generalize ht : ([] : List (BitVec 8)) = t at h'
    cases h' with
    | nil => rfl
    | last _ hne => exact absurd ht.symm hne
    | cons => simp at ht
  | last hno hne =>
    cases h' with
    | nil => exact absurd rfl hne
    | last => rfl
    | cons => exact absurd (by simp) hno
  | cons hno _ ih =>
    generalize ht : _ ++ [10#8] ++ _ = t at h'
    cases h' with
    | nil => simp at ht
    | last hno' => exact absurd (by simp [← ht]) hno'
    | cons hno' ht' =>
      obtain ⟨rfl, rfl⟩ := split_unique hno hno' ht
      rw [ih ht']

theorem lines_nil {ls : List (List (BitVec 8))} (h : Lines [] ls) : ls = [] := h.unique .nil

variable {fuel : Nat}

theorem breakAt_ends {b : List (BitVec 8)} {i s : BitVec 32} (hb : b.length < 2 ^ 31)
    (hsi : s.toNat ≤ i.toNat) (hi : i.toNat < b.length) (out : List (List (BitVec 8))) :
    Ends (fun x => x = (i + 1#32, out ++ [dropCr (between b s.toNat i.toNat)])) (breakAt b i s out) := by
  have hslt := slt_iff (x := s) (y := i) (by omega) (by omega)
  rw [breakAt]
  refine ends_bind (Q := fun before =>
    s.toNat < i.toNat → before = (b.getD (i.toNat - 1) 0#8).setWidth 32) ?_ ?_
  · rw [byteBefore]
    by_cases hlt : s.toNat < i.toNat
    · have hget : b[i.toNat - 1]? = some (b.getD (i.toNat - 1) 0#8) := by
        rw [List.getD_eq_getElem?_getD, List.getElem?_eq_getElem (by omega), Option.getD_some]
      rw [if_pos (hslt.mpr hlt), byteAt_eq hb (by rw [Reader.toNat_prev (by omega), hget])]
      exact fun _ => rfl
    · rw [if_neg fun h => hlt (hslt.mp h)]
      exact fun h => absurd h hlt
  · intro before hbefore
    have hstopN := Reader.toNat_stop b (s := s) (i := i) (by omega) (by omega) (p := before = 13#32)
      fun hlt => by
        rw [hbefore hlt]
        refine ⟨fun h => ?_, fun h => by rw [h]; rfl⟩
        have hw := congrArg (BitVec.setWidth 8) h
        rwa [setWidth_setWidth_byte] at hw
    obtain ⟨e, he⟩ : ∃ e, (if s.slt i ∧ before = 13#32 then i - 1#32 else i) = e := ⟨_, rfl⟩
    rw [he] at hstopN ⊢
    have hse : s.toNat ≤ e.toNat ∧ e.toNat ≤ i.toNat := by
      rw [hstopN]
      split <;> omega
    have hview : (e - s).toNat = e.toNat - s.toNat := toNat_sub_of_le hse.1
    dsimp only
    rw [slice_eq hb (by omega), done_bind, pure_eq, ends_done, Reader.dropCr_between hsi (by omega),
      ← hstopN]
    dsimp only
    rw [hview]
    rfl

/-- **`text.lines`** returns the lines. -/
theorem textLines_ends {b : List (BitVec 8)} (hb : b.length < 2 ^ 31) (hfuel : 2 ^ 31 ≤ fuel) :
    Ends (Lines b) (textLines fuel b) := by
  have hn := toNat_arrLen (show b.length < 2 ^ 32 by omega)
  rw [textLines]
  refine ends_bind (forLoop_range_ends (by omega) (Nat.zero_le _) (by omega)
    (fun k x => x.1.toNat ≤ k ∧ 10#8 ∉ between b x.1.toNat k ∧
      ∀ ls, Lines (b.drop x.1.toNat) ls → Lines b (x.2 ++ ls)) ?_ ?_) ?_
  · exact ⟨le_rfl, by simp, fun ls h => h⟩
  · rintro k ⟨s, out⟩ - hk ⟨hsk, hno, hout⟩
    dsimp only at hsk hno hout ⊢
    have hk32 : (BitVec.ofNat 32 k).toNat = k := toNat_ofNat_of_lt (by omega)
    obtain ⟨c, hc⟩ : ∃ c, b[k]? = some c := ⟨_, List.getElem?_eq_getElem (by omega)⟩
    rw [byteAt_eq hb (by rw [hk32, hc]), done_bind]
    by_cases hten : c = 10#8
    · subst hten
      rw [if_pos (by decide)]
      refine (breakAt_ends hb (by omega) (by omega) out).mono ?_
      rintro _ rfl
      have hk1 : (BitVec.ofNat 32 k + 1#32).toNat = k + 1 := by
        rw [toNat_succ (by omega), hk32]
      dsimp only
      rw [hk1, hk32]
      refine ⟨le_rfl, by simp, fun ls hls => ?_⟩
      rw [List.append_assoc]
      refine hout _ ?_
      rw [drop_eq_between, ← between_append hsk (show k ≤ b.length by omega),
        ← between_append (Nat.le_succ k) (show k + 1 ≤ b.length by omega), between_one hc,
        ← drop_eq_between, ← List.append_assoc]
      exact .cons hno hls
    · have hne : c.setWidth 32 ≠ 10#32 := by
        intro h
        have hw := congrArg (BitVec.setWidth 8) h
        rw [setWidth_setWidth_byte] at hw
        exact hten hw
      rw [if_neg hne]
      refine ⟨Nat.le_succ_of_le hsk, ?_, hout⟩
      rw [← between_append hsk (Nat.le_succ _), between_one hc, List.mem_append, List.mem_singleton]
      exact fun h => h.elim hno fun h => hten h.symm
  · rintro ⟨s, out⟩ ⟨hsn, hno, hout⟩
    dsimp only at hsn hno hout ⊢
    by_cases hlt : s.toNat < b.length
    · rw [if_pos ((slt_iff (by omega) (by omega)).mpr (by omega))]
      have hview : (arrLen b - s).toNat = b.length - s.toNat := by
        rw [toNat_sub_of_le hsn, hn]
      rw [slice_eq hb (by omega), done_bind, pure_eq, ends_done]
      dsimp only
      rw [hview, List.take_of_length_le (by rw [List.length_drop])]
      rw [hn, ← drop_eq_between] at hno
      refine hout _ (.last hno fun hnil => ?_)
      have := List.drop_eq_nil_iff.mp hnil
      omega
    · rw [if_neg fun h => hlt (by rw [slt_iff (by omega) (by omega)] at h; omega), pure_eq, ends_done]
      have hnil : b.drop s.toNat = [] := List.drop_eq_nil_iff.mpr (by omega)
      have hend := hout [] (by rw [hnil]; exact .nil)
      rwa [List.append_nil] at hend

/-! ### Runs -/

variable {σ τ : Type} {A : Allocator σ} {B : Allocator τ}

/-- A reader as it is made, of a source that delivers the bytes `t`. -/
inductive Started (A : Allocator σ) (t : List (BitVec 8)) : Reader σ → Prop where
  | owned {heap : σ} {src : Source} {r : Reader σ} (hsrc : src.Ok) (hleft : src.left = t)
      (hr : ownedReader A heap src = done r) : Started A t r
  | bytes {heap : σ} {r : Reader σ} (ht : t.length < 2 ^ 31) (hr : ofBytes heap t = done r) :
      Started A t r

/-- The readers that reads reach, with the operations and what they returned. -/
inductive Reach (A : Allocator σ) (B : Allocator τ) (t : List (BitVec 8)) :
    Reader σ → List (Op τ × Result τ) → Prop where
  | start {r : Reader σ} (h : Started A t r) : Reach A B t r []
  | op {r r' : Reader σ} {trace : List (Op τ × Result τ)} {op : Op τ} {result : Result τ} {fuel : Nat}
      (h : Reach A B t r trace) (hop : op.Fits A fuel r) (hfuel : 2 ^ 31 + r.src.left.length ≤ fuel)
      (hr : op.run A B fuel r = done (result, r')) : Reach A B t r' (trace ++ [(op, result)])
  | elsewhere {r : Reader σ} {trace : List (Op τ × Result τ)} (h : Reach A B t r trace) (heap : σ) :
      Reach A B t { r with heap } trace

/-- **The bytes the operations of a run took**, with `rest` left behind them. -/
inductive Taken : List (Op τ × Result τ) → List (List (BitVec 8)) → List (BitVec 8) → Prop where
  | nil {rest : List (BitVec 8)} : Taken [] [] rest
  | snoc {trace : List (Op τ × Result τ)} {cs : List (List (BitVec 8))} {c rest : List (BitVec 8)}
      {op : Op τ} {result : Result τ} (h : Taken trace cs (c ++ rest)) (htakes : Takes op result c rest) :
      Taken (trace ++ [(op, result)]) (cs ++ [c]) rest

/-- The lines a run moved to. -/
def shown (trace : List (Op τ × Result τ)) : List (List (BitVec 8)) :=
  trace.filterMap fun x => match x.2 with
    | .line l => l
    | _ => none

theorem makeReader_ok {heap : σ} {src : Source} {win : List (BitVec 8)} {end_ : BitVec 32}
    {atEnd : Bool} {r : Reader σ} (hr : makeReader heap src win end_ atEnd = done r)
    (hend : end_.toNat ≤ win.length) (hsize : win.length < 2 ^ 31) (hsrc : src.Ok)
    (hgrown : atEnd = false → win.length = 8192) (hdone : atEnd = true → src.left = []) :
    r.Ok ∧ r.rest = win.take end_.toNat ++ src.left := by
  rw [makeReader, slice_eq hsize (Nat.zero_le _), done_bind] at hr
  cases hr
  refine ⟨⟨⟨Nat.zero_le _, hend, hsize⟩, hsrc, fun h => ⟨0, Nat.zero_le _, hgrown h⟩, hdone⟩, rfl⟩

theorem Started.ok {t : List (BitVec 8)} {r : Reader σ} (h : Started A t r) : r.Ok ∧ r.rest = t := by
  cases h with
  | @owned heap src _ hsrc hleft hr =>
    rw [ownedReader] at hr
    obtain ⟨⟨store, heap'⟩, harray, hr⟩ := bind_eq_done hr
    obtain ⟨hstore, -, -⟩ := (sat_array (A := A)).of_eq_done harray
    have hlen : store.length = 8192 := by
      dsimp only at hstore
      rw [hstore, List.length_replicate]
      rfl
    obtain ⟨hok, hrest⟩ := makeReader_ok hr (Nat.zero_le _) (by omega) hsrc (fun _ => hlen)
      (fun h => Bool.noConfusion h)
    exact ⟨hok, hrest.trans hleft⟩
  | @bytes heap _ ht hr =>
    have hlen := toNat_arrLen (show t.length < 2 ^ 32 by omega)
    rw [ofBytes, zero_sle (by omega)] at hr
    obtain ⟨hok, hrest⟩ := makeReader_ok hr hlen.le ht trivial (fun h => Bool.noConfusion h) (fun _ => rfl)
    refine ⟨hok, hrest.trans ?_⟩
    rw [hlen, List.take_length]
    exact List.append_nil t

theorem Reader.Ok.elsewhere {r : Reader σ} (h : r.Ok) (heap : σ) : Reader.Ok { r with heap } :=
  ⟨⟨h.bounds.start_le, h.bounds.end_le, h.bounds.size⟩, h.src, h.grown, h.done⟩

theorem taken_of_reach {t : List (BitVec 8)} {r : Reader σ} {trace : List (Op τ × Result τ)}
    (h : Reach A B t r trace) :
    r.Ok ∧ ∃ cs, Taken trace cs r.rest ∧ t = cs.flatten ++ r.rest := by
  induction h with
  | start h =>
    obtain ⟨hok, hrest⟩ := h.ok
    exact ⟨hok, [], .nil, hrest.symm⟩
  | op _ hop hfuel hr ih =>
    obtain ⟨hok, cs, htaken, ht⟩ := ih
    obtain ⟨hok', c, hc, htakes⟩ := (run_sat hok hop hfuel).of_eq_done hr
    rw [hc] at htaken ht
    refine ⟨hok', cs ++ [c], .snoc htaken htakes, ?_⟩
    rw [ht, List.flatten_append, List.flatten_singleton, List.append_assoc]
  | elsewhere _ heap ih =>
    obtain ⟨hok, hrest⟩ := ih
    exact ⟨hok.elsewhere heap, hrest⟩

/-- The lines shown are the first of the text's, and those of what is left the others. -/
theorem Taken.lines {trace : List (Op τ × Result τ)} {cs : List (List (BitVec 8))}
    {rest : List (BitVec 8)} (h : Taken trace cs rest) (hall : ∀ x ∈ trace, x.1 = .nextLine)
    {ls : List (List (BitVec 8))} (hls : Lines rest ls) :
    Lines (cs.flatten ++ rest) (shown trace ++ ls) := by
  induction h generalizing ls with
  | nil => exact hls
  | @snoc trace cs c rest op result h htakes ih =>
    have hall' : ∀ x ∈ trace, x.1 = .nextLine := fun x hx => hall x (List.mem_append_left _ hx)
    have hop : op = .nextLine := hall (op, result) (by simp)
    have hshown : shown (trace ++ [(op, result)]) = shown trace ++ shown [(op, result)] :=
      List.filterMap_append
    rw [List.flatten_append, List.flatten_singleton, List.append_assoc, hshown, List.append_assoc]
    subst hop
    refine ih hall' ?_
    cases htakes with
    | line hno => exact .cons hno hls
    | lastLine hno hne =>
      rw [lines_nil hls, List.append_nil]
      exact .last hno hne
    | noLine => exact hls

/-- After "no more lines", nothing is left. -/
theorem Taken.done {trace : List (Op τ × Result τ)} {cs : List (List (BitVec 8))}
    {rest : List (BitVec 8)} (h : Taken trace cs rest)
    (hdone : (Op.nextLine, Result.line none) ∈ trace) : rest = [] := by
  induction h with
  | nil => cases hdone
  | @snoc trace cs c rest op result h htakes ih =>
    rcases List.mem_append.mp hdone with hmem | hmem
    · exact (List.append_eq_nil_iff.mp (ih hmem)).2
    · cases List.mem_singleton.mp hmem
      cases htakes with
      | noLine => rfl

/-- **A reader does not see how its bytes arrived.**  Reads take the bytes of `t` in order, each once,
and what each returns is told by the bytes it takes; every further read that fits ends; and the lines
of `next_line` alone, up to its `false`, are those of `text.lines`. -/
theorem reads_exact {t : List (BitVec 8)} {r : Reader σ} {trace : List (Op τ × Result τ)}
    (h : Reach A B t r trace) :
    (∃ cs, Taken trace cs r.rest ∧ t = cs.flatten ++ r.rest) ∧
    (∀ (op : Op τ) (fuel : Nat), op.Fits A fuel r → 2 ^ 31 + r.src.left.length ≤ fuel →
      op.run A B fuel r ≠ outOfFuel) ∧
    ((∀ x ∈ trace, x.1 = .nextLine) → (.nextLine, .line none) ∈ trace → t.length < 2 ^ 31 →
      ∀ fuel, 2 ^ 31 ≤ fuel → textLines fuel t = done (shown trace)) := by
  obtain ⟨hok, cs, htaken, ht⟩ := taken_of_reach h
  refine ⟨⟨cs, htaken, ht⟩, fun op fuel hop hfuel => (run_sat hok hop hfuel).ne_outOfFuel, ?_⟩
  intro hall hdone hlt fuel hfuel
  obtain ⟨ls, hrun, hls⟩ := (textLines_ends hlt hfuel).exists
  have hnil := htaken.done hdone
  have hshown := htaken.lines hall (by rw [hnil]; exact .nil)
  rw [← ht, List.append_nil] at hshown
  rw [hrun, hls.unique hshown]

/-! ### Reads that fit, and one that does not -/

/-- The lines of a short enough input always fit. -/
theorem fits_of_rest {r : Reader σ} (h : r.Ok) (hle : r.rest.length + 4096 ≤ 2 ^ 30)
    (hfuel : 2 ^ 31 ≤ fuel) {r₁ : Reader σ} (hr₁ : Reader.Asked A fuel r r₁) : r₁.Fits := by
  have hfits : ∀ {r : Reader σ}, r.rest.length + 4096 ≤ 2 ^ 30 → r.Fits := by
    intro r hle
    refine .inr ?_
    rw [Reader.rest, List.length_append] at hle
    rw [Reader.need]
    cases hsrc : r.src with
    | fd s =>
      dsimp only
      omega
    | memory =>
      dsimp only
      omega
    | custom s =>
      dsimp only
      rw [hsrc, Source.left, Source.pieces] at hle
      cases hp : s.pieces with
      | nil =>
        rw [List.headD_nil, List.length_nil]
        omega
      | cons p ps =>
        rw [hp, List.flatten_cons, List.length_append] at hle
        rw [List.headD_cons]
        omega
  induction hr₁ with
  | here => exact hfits hle
  | more _ hr _ ih =>
    obtain ⟨p, hfilled⟩ := (Reader.fill_sat h (hfits hle) hfuel).of_eq_done hr
    exact ih hfilled.ok (by rw [hfilled.rest]; exact hle)

/-- An allocator that always has memory. -/
def granting : Allocator Unit := ⟨fun _ _ => some (), fun _ _ => some ()⟩

/-- "a\r\nb", of which the "\n" arrives behind the "\r". -/
def twoPieces : Source := .custom ⟨[[97#8, 13#8], [10#8, 98#8]], false⟩

/-- Its lines, read in the order they come. -/
theorem reads_exact_pieces : ∃ r trace, Reach granting granting [97#8, 13#8, 10#8, 98#8] r trace ∧
    shown trace = [[97#8], [98#8]] ∧
    textLines (2 ^ 31) [97#8, 13#8, 10#8, 98#8] = done (shown trace) := by
  have hrun : (do
      let r ← ownedReader granting () twoPieces
      let (x₁, r) ← (Op.nextLine (τ := Unit)).run granting granting (2 ^ 31 + 4) r
      let (x₂, r) ← (Op.nextLine (τ := Unit)).run granting granting (2 ^ 31 + 4) r
      let (x₃, _) ← (Op.nextLine (τ := Unit)).run granting granting (2 ^ 31 + 4) r
      pure [x₁, x₂, x₃]) = done [.line (some [97#8]), .line (some [98#8]), .line none] := by
    decide +kernel
  obtain ⟨r₀, h₀, hrun⟩ := bind_eq_done hrun
  obtain ⟨⟨x₁, r₁⟩, h₁, hrun⟩ := bind_eq_done hrun
  obtain ⟨⟨x₂, r₂⟩, h₂, hrun⟩ := bind_eq_done hrun
  obtain ⟨⟨x₃, r₃⟩, h₃, hrun⟩ := bind_eq_done hrun
  cases hrun
  have hfits : ∀ {r : Reader Unit} {trace : List (Op Unit × Result Unit)},
      Reach granting granting [97#8, 13#8, 10#8, 98#8] r trace →
        (Op.nextLine (τ := Unit)).Fits granting (2 ^ 31 + 4) r ∧ r.src.left.length ≤ 4 := by
    intro r trace h
    obtain ⟨hok, cs, -, ht⟩ := taken_of_reach h
    have hlen := congrArg List.length ht
    rw [List.length_append] at hlen
    have hrest : r.rest.length ≤ 4 := by
      rw [← Nat.add_sub_cancel_left (n := cs.flatten.length) (m := r.rest.length), ← hlen]
      exact Nat.sub_le _ _
    refine ⟨fun r₁ hr₁ => fits_of_rest hok (by omega) (by decide) hr₁, ?_⟩
    rw [Reader.rest, List.length_append] at hrest
    omega
  have hsrc : twoPieces.Ok := by
    rw [twoPieces, Source.Ok]
    decide
  have hreach₀ : Reach granting granting [97#8, 13#8, 10#8, 98#8] r₀ ([] : List (Op Unit × Result Unit)) :=
    .start (.owned hsrc rfl h₀)
  have hreach₁ := Reach.op hreach₀ (hfits hreach₀).1 (Nat.add_le_add_left (hfits hreach₀).2 _) h₁
  have hreach₂ := Reach.op hreach₁ (hfits hreach₁).1 (Nat.add_le_add_left (hfits hreach₁).2 _) h₂
  have hreach₃ := Reach.op hreach₂ (hfits hreach₂).1 (Nat.add_le_add_left (hfits hreach₂).2 _) h₃
  refine ⟨r₃, _, hreach₃, rfl, ?_⟩
  exact (reads_exact hreach₃).2.2 (by simp) (by simp) (by decide) _ le_rfl

/-- One byte, and then those that a fill function appends at once. -/
def thenPiece (big : List (BitVec 8)) : Source := .custom ⟨[[97#8], big], false⟩

theorem ownedReader_new {heap : σ} {src : Source} {r : Reader σ}
    (hr : ownedReader A heap src = done r) : r.src = src ∧ r.atEnd = false ∧ r.start = r.end_ := by
  rw [ownedReader] at hr
  obtain ⟨⟨store, heap'⟩, -, hr⟩ := bind_eq_done hr
  dsimp only at hr
  rw [makeReader] at hr
  obtain ⟨view, -, hr⟩ := bind_eq_done hr
  cases hr
  exact ⟨rfl, rfl, rfl⟩

/-- Asked for room behind one byte for 2^30 more, the reader doubles its window to -2^31 and then to 0,
for ever. -/
theorem thenPiece_diverges {big : List (BitVec 8)} (hlen : big.length = 2 ^ 30) {r₀ r₁ : Reader σ}
    {c : BitVec 32} {heap : σ} (h₀ : ownedReader A heap (thenPiece big) = done r₀)
    (h₁ : r₀.peekByte A (2 ^ 32) = done (c, r₁)) :
    Reach A B (thenPiece big).left r₁ [(.peekByte, .byte c)] ∧
      ∀ fuel, 2 ^ 31 ≤ fuel → r₁.nextLine A fuel = outOfFuel := by
  have hne : big ≠ [] := by
    rintro rfl
    cases hlen
  have hok : (thenPiece big).Ok := by
    rintro p hp
    rcases List.mem_cons.mp hp with rfl | hp
    · exact ⟨by decide, by decide⟩
    · obtain rfl := List.mem_singleton.mp hp
      exact ⟨hne, hlen.le⟩
  obtain ⟨hsrc, hopen, hempty⟩ := ownedReader_new h₀
  have hreach₀ : Reach A B (thenPiece big).left r₀ [] := .start (.owned hok rfl h₀)
  have hok₀ := (taken_of_reach hreach₀).1
  have hnil := hok₀.bounds.unread_eq_nil.mp hempty
  have hfuel : 2 ^ 31 + r₀.src.left.length ≤ 2 ^ 32 := by
    rw [hsrc, thenPiece, Source.left, Source.pieces]
    simp only [List.flatten_cons, List.flatten_nil, List.append_nil, List.length_append,
      List.length_singleton, hlen]
    decide
  have hpeek : (Op.peekByte (τ := τ)).run A B (2 ^ 32) r₀ = done (.byte c, r₁) := by
    rw [Op.run, h₁]
    rfl
  have hreach₁ : Reach A B (thenPiece big).left r₁ [(.peekByte, .byte c)] :=
    .op hreach₀ (show Op.Fits A (2 ^ 32) r₀ .peekByte from trivial) hfuel hpeek
  refine ⟨hreach₁, fun fuel hfuel => ?_⟩
  have hok₁ := (taken_of_reach hreach₁).1
  have hfill : ∃ more, r₀.fill A (2 ^ 32) = done (more, r₁) := by
    rw [Reader.peekByte] at h₁
    obtain ⟨⟨more, r⟩, hfillEmpty, h₁⟩ := bind_eq_done h₁
    rw [Reader.fillEmpty, if_pos hempty] at hfillEmpty
    refine ⟨more, ?_⟩
    rw [hfillEmpty]
    cases more with
    | true =>
      obtain ⟨c', -, h₁⟩ := bind_eq_done h₁
      cases h₁
      rfl
    | false =>
      cases h₁
      rfl
  -- the window holds the first piece, and the second comes next
  obtain ⟨more, hfill⟩ := hfill
  obtain ⟨hsrc₁, hunread₁⟩ := Reader.fill_piece hok₀ hopen (hok₀.fits_of_empty hnil) hsrc rfl
    (by decide) hfill
  rw [hnil, List.nil_append] at hunread₁
  have hneed : r₁.need = 2 ^ 30 := by
    rw [Reader.need, hsrc₁]
    exact hlen
  have hopen₁ : r₁.atEnd = false := by
    cases hend : r₁.atEnd with
    | false => rfl
    | true =>
      have hleft := hok₁.done hend
      rw [hsrc₁, Source.left, Source.pieces] at hleft
      simp [hne] at hleft
  refine Reader.nextLine_diverges hok₁ hopen₁ (by rw [hunread₁]; decide) (fun hfits => ?_)
    (by rw [hunread₁, hneed]; decide) hfuel
  have hle := hfits.resolve_left (by simp [hopen₁])
  rw [hunread₁, hneed] at hle
  exact absurd hle (by decide)

/-- Not every line of every input is found. -/
theorem not_every_line_ends :
    ¬ ∀ (t : List (BitVec 8)) (r : Reader Unit) (trace : List (Op Unit × Result Unit)),
      Reach granting granting t r trace → ∀ op : Op Unit,
        ∃ bound, ∀ fuel, bound ≤ fuel → op.run granting granting fuel r ≠ outOfFuel := by
  intro hall
  have hrun : (do
      let r ← ownedReader granting () (thenPiece (List.replicate (2 ^ 30) 97#8))
      let (c, _) ← r.peekByte granting (2 ^ 32)
      pure c) = done 97#32 := by
    decide +kernel
  obtain ⟨r₀, h₀, hrun⟩ := bind_eq_done hrun
  obtain ⟨⟨c, r₁⟩, h₁, -⟩ := bind_eq_done hrun
  obtain ⟨hreach, hnever⟩ := thenPiece_diverges (B := granting) List.length_replicate h₀ h₁
  obtain ⟨bound, hbound⟩ := hall _ r₁ _ hreach .nextLine
  refine hbound (max bound (2 ^ 31)) (le_max_left _ _) ?_
  rw [Op.run, hnever _ (le_max_right _ _)]
  rfl

end Aipl.StdStream
