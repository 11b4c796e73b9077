import Aipl.Std.Url.Model

/-! # Query strings

* `Pairs` — the names and values of a query string.
* `queryPairsInto_reads` — these are read, and the views are theirs.
* `queries_invert` — what is built of names and values is read as these.
-/

namespace Aipl.StdUrl

open Aipl.Lib Aipl.Lib.Outcome Aipl.Lib.Utf8 Aipl.StdBuf Aipl.StdBytes Aipl.StdEncode
open Aipl.Std (Allocator)

/-- `p` is the text of a name and, after the first `=`, of a value, which is empty where there is no `=`. -/
def Sides (p name value : Bytes) : Prop := 61#8 ∉ name ∧ (p = name ++ 61#8 :: value ∨ (p = name ∧ value = []))

/-- `p` stands for the name `n` and the value `v`. -/
def Part (p n v : Bytes) : Prop :=
  ∃ name value, Sides p name value ∧ (Escaped true name n ∧ IsUtf8 n) ∧ Escaped true value v ∧ IsUtf8 v

/-- `t` stands for names and values in turn: its parts are between `&`s, and empty ones stand for nothing. -/
inductive Pairs : Bytes → List Bytes → Prop
  | nil : Pairs [] []
  | skip {t : Bytes} {l : List Bytes} (h : Pairs t l) : Pairs (38#8 :: t) l
  | last {p n v : Bytes} (hp : p ≠ []) (hno : 38#8 ∉ p) (hpart : Part p n v) : Pairs p [n, v]
  | more {p n v t : Bytes} {l : List Bytes} (hp : p ≠ []) (hno : 38#8 ∉ p) (hpart : Part p n v) (h : Pairs t l) :
      Pairs (p ++ 38#8 :: t) (n :: v :: l)

variable {p n v t q name value name' value' n' v' : Bytes} {l l' pairs : List Bytes} {fuel i : Nat} {σ : Type}
  {A : Allocator σ}

/-! ### One way to read a query -/

theorem Sides.unique (h : Sides p name value) (h' : Sides p name' value') : name = name' ∧ value = value' := by
  obtain ⟨hno, h⟩ := h
  obtain ⟨hno', h'⟩ := h'
  have hsplit : ∀ {name value : Bytes}, (p = name ++ 61#8 :: value ∨ (p = name ∧ value = [])) →
      ∃ tail, p = name ++ tail ∧ (∀ c r, tail = c :: r → c = 61#8) ∧ (tail = 61#8 :: value ∨ (tail = [] ∧ value = [])) := by
    rintro name value (h | ⟨h, rfl⟩)
    · exact ⟨_, h, fun c r heq => (List.cons.inj heq).1.symm, .inl rfl⟩
    · exact ⟨[], by rw [List.append_nil, h], by simp, .inr ⟨rfl, rfl⟩⟩
  obtain ⟨tail, heq, htail, hvalue⟩ := hsplit h
  obtain ⟨tail', heq', htail', hvalue'⟩ := hsplit h'
  obtain ⟨rfl, rfl⟩ := cut_unique (heq.symm.trans heq') (P := fun c => c = 61#8) (fun c hc h => hno (h ▸ hc))
    (fun c hc h => hno' (h ▸ hc)) htail htail'
  refine ⟨rfl, ?_⟩
  rcases hvalue with rfl | ⟨rfl, rfl⟩
  · rcases hvalue' with h | ⟨h, -⟩
    · exact (List.cons.inj h).2
    · cases h
  · rcases hvalue' with h | ⟨-, rfl⟩
    · cases h
    · rfl

theorem Part.unique (h : Part p n v) (h' : Part p n' v') : n = n' ∧ v = v' := by
  obtain ⟨name, value, hsides, ⟨hn, -⟩, hv, -⟩ := h
  obtain ⟨name', value', hsides', ⟨hn', -⟩, hv', -⟩ := h'
  obtain ⟨rfl, rfl⟩ := hsides.unique hsides'
  exact ⟨hn.unique hn', hv.unique hv'⟩

theorem Pairs.eq_nil (h : Pairs [] l) : l = [] := by
  generalize hu : ([] : Bytes) = u at h
  cases h with
  | nil => rfl
  | skip _ => cases hu
  | last hp _ _ => exact absurd hu.symm hp
  | more _ _ _ _ => simp at hu

theorem pairs_cons_iff : Pairs (38#8 :: t) l ↔ Pairs t l := by
  refine ⟨fun h => ?_, .skip⟩
  generalize hu : 38#8 :: t = u at h
  cases h with
  | nil => cases hu
  | skip h =>
    obtain ⟨-, rfl⟩ := List.cons.inj hu
    exact h
  | last hp hno hpart => exact absurd (hu ▸ List.mem_cons_self) hno
  | @more p _ _ _ _ hp hno hpart h =>
    obtain ⟨c, r, rfl⟩ := List.exists_cons_of_ne_nil hp
    obtain ⟨rfl, -⟩ := List.cons.inj hu
    exact absurd List.mem_cons_self hno

/-- The first part of a query, and the rest. -/
theorem pairs_append_iff (hp : p ≠ []) (hno : 38#8 ∉ p) (ht : ∀ c r, t = c :: r → c = 38#8) :
    Pairs (p ++ t) l ↔ ∃ n v l', Part p n v ∧ Pairs t l' ∧ l = n :: v :: l' := by
  have hcut : ∀ {p' t' : Bytes}, p ++ t = p' ++ t' → 38#8 ∉ p' → (∀ c r, t' = c :: r → c = 38#8) → p = p' ∧ t = t' := by
    intro p' t' heq hno' ht'
    exact cut_unique heq (P := fun c => c = 38#8) (fun c hc h => hno (h ▸ hc)) (fun c hc h => hno' (h ▸ hc)) ht ht'
  constructor
  · intro h
    generalize hu : p ++ t = u at h
    cases h with
    | nil => exact absurd (List.append_eq_nil_iff.mp hu).1 hp
    | skip h =>
      obtain ⟨c, r, rfl⟩ := List.exists_cons_of_ne_nil hp
      obtain ⟨rfl, -⟩ := List.cons.inj hu
      exact absurd List.mem_cons_self hno
    | last hp' hno' hpart =>
      obtain ⟨rfl, rfl⟩ := hcut (hu.trans (List.append_nil _).symm) hno' (by simp)
      exact ⟨_, _, [], hpart, .nil, rfl⟩
    | more hp' hno' hpart h =>
      obtain ⟨rfl, rfl⟩ := hcut hu hno' fun c r heq => (List.cons.inj heq).1.symm
      exact ⟨_, _, _, hpart, .skip h, rfl⟩
  · rintro ⟨n, v, l', hpart, h, rfl⟩
    cases t with
    | nil =>
      rw [h.eq_nil, List.append_nil]
      exact .last hp hno hpart
    | cons c r =>
      obtain rfl := ht c r rfl
      exact .more hp hno hpart (pairs_cons_iff.mp h)

theorem Pairs.unique (h : Pairs t l) (h' : Pairs t l') : l = l' := by
  induction h generalizing l' with
  | nil => exact h'.eq_nil.symm
  | skip _ ih => exact ih (pairs_cons_iff.mp h')
  | @last p _ _ hp hno hpart =>
    rw [← List.append_nil p, pairs_append_iff hp hno (by simp)] at h'
    obtain ⟨n, v, l', hpart', h', rfl⟩ := h'
    obtain ⟨rfl, rfl⟩ := hpart.unique hpart'
    rw [h'.eq_nil]
  | more hp hno hpart _ ih =>
    rw [pairs_append_iff hp hno fun c r heq => (List.cons.inj heq).1.symm] at h'
    obtain ⟨n, v, l', hpart', h', rfl⟩ := h'
    obtain ⟨rfl, rfl⟩ := hpart.unique hpart'
    rw [ih (pairs_cons_iff.mp h')]

/-! ### Reading -/

/-- **One side** of a part: what it stands for is appended, and where that is in the buffer. -/
theorem querySide_reads (A : Allocator σ) (from_ : Nat) {to_ : Nat} (hto : to_ ≤ q.length) (hq : q.length + 8 < 2 ^ 31) (hfuel : q.length < fuel) :
    (∃ l, Escaped true ((q.drop from_).take (to_ - from_)) l ∧ IsUtf8 l ∧ ∀ o : Content σ, querySide A fuel q o from_ to_ =
      pushAll A fuel o l >>= fun o' => pure (o', .ok (o.bytes.length, o.bytes.length + l.length))) ∨
    ((∀ l, ¬ (Escaped true ((q.drop from_).take (to_ - from_)) l ∧ IsUtf8 l)) ∧ ∃ l e, e.at_ ≤ q.length ∧
      ∀ o : Content σ, querySide A fuel q o from_ to_ = pushAll A fuel o l >>= fun o' => pure (o', .error e)) := by
  classical
  -- the check of what has been appended
  have hcheck : ∀ (l : Bytes) (o o' : Content σ), l.length ≤ q.length → o'.bytes = o.bytes ++ l →
      (do
        let part ← slice o'.bytes o.bytes.length (o'.bytes.length - o.bytes.length)
        if ← StdUtf8.validUtf8 fuel part then pure (o', .ok (o.bytes.length, o'.bytes.length))
        else pure (o', .error ⟨from_, "a part that is not UTF-8"⟩) : Outcome (Content σ × Except Error (Nat × Nat))) =
      if IsUtf8 l then pure (o', .ok (o.bytes.length, o.bytes.length + l.length))
        else pure (o', .error ⟨from_, "a part that is not UTF-8"⟩) := by
    intro l o o' hle hbytes
    have hlen : o'.bytes.length = o.bytes.length + l.length := by rw [hbytes, List.length_append]
    have hpart : (o'.bytes.drop o.bytes.length).take (o'.bytes.length - o.bytes.length) = l := by
      rw [hlen, Nat.add_sub_cancel_left, hbytes, List.drop_left, List.take_length]
    have hends : Ends (fun ok => ok = true ↔ IsUtf8 l) (StdUtf8.validUtf8 fuel l) :=
      StdUtf8.validUtf8_ends (by omega) (by omega)
    obtain ⟨valid, hvalid, hiff⟩ := hends.exists
    rw [slice_eq (by omega), hpart, done_bind, hvalid, done_bind, hlen]
    exact if_congr hiff rfl rfl
  by_cases hlt : from_ < to_
  · have hview := view_eq hlt.le hto
    have hlen : ((q.drop from_).take (to_ - from_)).length = to_ - from_ := by
      rw [List.length_take, List.length_drop]
      omega
    have hfuel' : ((q.drop from_).take (to_ - from_)).length < fuel := by omega
    rcases percentDecodeTo_decodes A ((q.drop from_).take (to_ - from_)) true hfuel' with
      ⟨l, hl, haccepts⟩ | ⟨hnone, j, hj, hrefuses⟩
    · have hle := hl.length_le
      have hrun : ∀ o : Content σ, querySide A fuel q o from_ to_ = pushAll A fuel o l >>= fun o' =>
          if IsUtf8 l then pure (o', .ok (o.bytes.length, o.bytes.length + l.length))
            else pure (o', .error ⟨from_, "a part that is not UTF-8"⟩) := by
        intro o
        have hdecode := haccepts.eq o
        rw [querySide]
        dsimp only
        rw [if_pos hlt, hview, done_bind, hdecode, bind_assoc, bind_assoc]
        refine pushAll_bind_congr fun o' hbytes => ?_
        exact hcheck l o o' (by omega) hbytes
      by_cases hutf8 : IsUtf8 l
      · refine .inl ⟨l, hl, hutf8, fun o => ?_⟩
        rw [hrun]
        simp only [if_pos hutf8]
      · refine .inr ⟨fun l' ⟨hl', hutf8'⟩ => hutf8 (hl.unique hl' ▸ hutf8'), l, ⟨from_, "a part that is not UTF-8"⟩,
          by dsimp only; omega, fun o => ?_⟩
        rw [hrun]
        simp only [if_neg hutf8]
    · refine .inr ⟨fun l ⟨hl, _⟩ => hnone l hl, [], ⟨from_ + j, "a % without two hex digits"⟩, by dsimp only; omega, fun o => ?_⟩
      have hdecode := hrefuses o
      dsimp only at hdecode
      rw [querySide]
      dsimp only
      rw [if_pos hlt, hview, done_bind, hdecode]
      rfl
  · refine .inl ⟨[], ?_, isUtf8_nil, fun o => ?_⟩
    · rw [Nat.sub_eq_zero_of_le (by omega), List.take_zero]
      exact .nil
    · have h := hcheck [] o o (Nat.zero_le _) (List.append_nil _).symm
      rw [querySide]
      dsimp only
      rw [if_neg hlt, pure_eq, done_bind]
      rw [if_pos isUtf8_nil] at h
      exact h

/-- The spans of byte strings that follow each other in the buffer. -/
def spansFrom : Nat → List Bytes → List (Nat × Nat)
  | _, [] => []
  | start, v :: vs => (start, start + v.length) :: spansFrom (start + v.length) vs

/-- A run that reads `t`, from any state and the buffer in it: what it stands for is appended, or an error in `q` is
returned. -/
def Reads {α β : Type} (A : Allocator σ) (fuel : Nat) (t q : Bytes) (buf : α → Content σ)
    (run : α → Outcome (Content σ × Except Error β)) (value : α → List Bytes → β) : Prop :=
  (∃ l, Pairs t l ∧ ∀ a, run a = pushAll A fuel (buf a) l.flatten >>= fun o' => pure (o', .ok (value a l))) ∨
    ((∀ l, ¬ Pairs t l) ∧ ∃ l e, e.at_ ≤ q.length ∧ ∀ a, run a = pushAll A fuel (buf a) l >>= fun o' => pure (o', .error e))

/-- What a round does with a part that is not empty, and is cut at `eqAt`. -/
def bothSides (A : Allocator σ) (fuel : Nat) (q : Bytes) (i eqAt end_ : Nat) (o : Content σ) (spans : List (Nat × Nat)) :
    Outcome (Content σ × Nat × List (Nat × Nat) ⊕ Content σ × Except Error (List (Nat × Nat))) := do
  let (o, name) ← querySide A fuel q o i eqAt
  match name with
  | .error e => pure (.inr (o, .error e))
  | .ok name => do
    let (o, value) ← querySide A fuel q o (eqAt + 1) end_
    match value with
    | .error e => pure (.inr (o, .error e))
    | .ok value => pure (.inl (o, end_ + 1, spans ++ [name, value]))

/-- **A part** of the query, at its beginning. -/
theorem queryRound_reads (A : Allocator σ) {end_ : Nat} (hq : q.length + 8 < 2 ^ 31) (hfuel : q.length < fuel)
    (hi : i < q.length) (hend : Cut q i q.length [38] end_) (hlt : i < end_) :
    (∃ n v, Part ((q.drop i).take (end_ - i)) n v ∧ ∀ (o : Content σ) (spans : List (Nat × Nat)),
      queryRound A fuel q (o, i, spans) = pushAll A fuel o (n ++ v) >>= fun o' =>
        pure (.inl (o', end_ + 1, spans ++ spansFrom o.bytes.length [n, v]))) ∨
    ((∀ n v, ¬ Part ((q.drop i).take (end_ - i)) n v) ∧ ∃ l e, e.at_ ≤ q.length ∧ ∀ (o : Content σ) (spans : List (Nat × Nat)),
      queryRound A fuel q (o, i, spans) = pushAll A fuel o l >>= fun o' => pure (.inr (o', .error e))) := by
  have hle := hend.le_to
  obtain ⟨e, hfind, hcut⟩ := findAny_eq (b := q) [61] hlt.le hle
  obtain ⟨end', hfind', hcut'⟩ := findAny_eq (b := q) [38] hi.le le_rfl
  obtain rfl := hend.unique hcut'
  -- the two sides of the part
  have hsides : Sides ((q.drop i).take (end_ - i)) ((q.drop i).take (e - i)) ((q.drop (e + 1)).take (end_ - (e + 1))) := by
    refine ⟨fun hmem => hcut.none _ hmem (by simp), ?_⟩
    have hsplit : (q.drop i).take (end_ - i) = (q.drop i).take (e - i) ++ (q.drop e).take (end_ - e) := by
      have hle' := hcut.le
      have hle'' := hcut.le_to
      rw [show end_ - i = (e - i) + (end_ - e) by omega, List.take_add, List.drop_drop, Nat.add_sub_cancel' hle']
    rcases Nat.lt_or_ge e end_ with hlt' | hge
    · obtain ⟨c, r, hdrop, hc⟩ := hcut.found hlt'
      obtain rfl : c = 61#8 := BitVec.eq_of_toNat_eq (List.mem_singleton.mp hc)
      refine .inl ?_
      rw [hsplit, hdrop, drop_succ hdrop, show end_ - e = end_ - (e + 1) + 1 by omega, List.take_succ_cons]
    · refine .inr ⟨?_, ?_⟩
      · rw [hsplit, Nat.sub_eq_zero_of_le hge, List.take_zero, List.append_nil]
      · rw [Nat.sub_eq_zero_of_le (by omega), List.take_zero]
  have hle' := hcut.le_to
  have hround : ∀ (o : Content σ) (spans : List (Nat × Nat)), queryRound A fuel q (o, i, spans) = bothSides A fuel q i e end_ o spans := by
    intro o spans
    rw [queryRound]
    dsimp only
    rw [if_pos hi, hfind', done_bind, if_pos hlt, hfind]
    rfl
  rcases querySide_reads A i (show e ≤ q.length by omega) hq hfuel with
    ⟨n, hn, hnutf8, hname⟩ | ⟨hnone, l, err, herr, hname⟩
  · rcases querySide_reads A (e + 1) hle hq hfuel with
      ⟨v, hv, hvutf8, hvalue⟩ | ⟨hnone, l, err, herr, hvalue⟩
    · refine .inl ⟨n, v, ⟨_, _, hsides, ⟨hn, hnutf8⟩, hv, hvutf8⟩, fun o spans => ?_⟩
      rw [hround, bothSides, hname, bind_assoc, pushAll_append, bind_assoc]
      refine pushAll_bind_congr fun o' hbytes => ?_
      rw [pure_eq, done_bind]
      dsimp only
      rw [hvalue, bind_assoc, hbytes, List.length_append]
      rfl
    · refine .inr ⟨fun n' v' hpart => ?_, n ++ l, err, herr, fun o spans => ?_⟩
      · obtain ⟨name, value, hsides', -, hv⟩ := hpart
        obtain ⟨-, rfl⟩ := hsides.unique hsides'
        exact hnone v' hv
      · rw [hround, bothSides, hname, bind_assoc, pushAll_append, bind_assoc]
        refine pushAll_bind_congr fun o' _ => ?_
        rw [pure_eq, done_bind]
        dsimp only
        rw [hvalue, bind_assoc]
        rfl
  · refine .inr ⟨fun n' v' hpart => ?_, l, err, herr, fun o spans => ?_⟩
    · obtain ⟨name, value, hsides', hn, -⟩ := hpart
      obtain ⟨rfl, -⟩ := hsides.unique hsides'
      exact hnone n' hn
    · rw [hround, bothSides, hname, bind_assoc]
      rfl

/-- **The loop** over the parts from a place on. -/
theorem queryLoop_reads (A : Allocator σ) (hq : q.length + 8 < 2 ^ 31) (hfuel : q.length < fuel) : ∀ (fuel' i : Nat),
    i ≤ q.length + 1 → q.length + 1 < fuel' + i →
    Reads A fuel (q.drop i) q (fun s : Content σ × List (Nat × Nat) => s.1)
      (fun s => iterate (queryRound A fuel q) fuel' (s.1, i, s.2)) (fun s l => s.2 ++ spansFrom s.1.bytes.length l) := by
  intro fuel'
  induction fuel' with
  | zero => intro i hi hfuel; omega
  | succ fuel' ih =>
    intro i hi hfuel'
    by_cases hlt : i < q.length
    · obtain ⟨end_, hfind, hend⟩ := findAny_eq (b := q) [38] hlt.le le_rfl
      have hle := hend.le
      have hle' := hend.le_to
      have htail : ∀ c r, q.drop end_ = c :: r → c = 38#8 := by
        intro c r hdrop
        obtain ⟨c', r', hdrop', hc'⟩ := hend.found (lt_of_drop hdrop)
        rw [hdrop] at hdrop'
        obtain ⟨rfl, -⟩ := List.cons.inj hdrop'
        exact BitVec.eq_of_toNat_eq (List.mem_singleton.mp hc')
      -- what follows the part, and the `&`
      have hrest : ∀ l, Pairs (q.drop end_) l ↔ Pairs (q.drop (end_ + 1)) l := by
        intro l
        rcases Nat.lt_or_ge end_ q.length with hlt' | hge
        · obtain ⟨c, r, hdrop⟩ := exists_cons hlt'
          obtain rfl := htail c r hdrop
          rw [drop_succ hdrop, hdrop, pairs_cons_iff]
        · rw [List.drop_eq_nil_of_le hge, List.drop_eq_nil_of_le (by omega)]
      by_cases hpart : i < end_
      · have hp : (q.drop i).take (end_ - i) ≠ [] := by
          intro hnil
          have hlen := congrArg List.length hnil
          rw [List.length_take, List.length_drop, List.length_nil] at hlen
          omega
        have hno : 38#8 ∉ (q.drop i).take (end_ - i) := fun hmem => hend.none _ hmem (by simp)
        have hpairs : ∀ l, Pairs (q.drop i) l ↔
            ∃ n v l', Part ((q.drop i).take (end_ - i)) n v ∧ Pairs (q.drop (end_ + 1)) l' ∧ l = n :: v :: l' := by
          intro l
          conv_lhs => rw [drop_eq_append (b := q) hle]
          rw [pairs_append_iff hp hno htail]
          simp only [hrest]
        rcases queryRound_reads A hq hfuel hlt hend hpart with ⟨n, v, hnv, hround⟩ | ⟨hnone, l, err, herr, hround⟩
        · rcases ih (end_ + 1) (by omega) (by omega) with ⟨l, hl, hrun⟩ | ⟨hnone, l, err, herr, hrun⟩
          · refine .inl ⟨n :: v :: l, (hpairs _).mpr ⟨n, v, l, hnv, hl, rfl⟩, ?_⟩
            rintro ⟨o, spans⟩
            dsimp only
            rw [iterate, hround, bind_assoc, List.flatten_cons, List.flatten_cons, ← List.append_assoc,
              pushAll_append (l := n ++ v), bind_assoc]
            refine pushAll_bind_congr fun o' hbytes => ?_
            rw [pure_eq, done_bind]
            refine (hrun (o', _)).trans ?_
            dsimp only
            rw [hbytes, List.append_assoc, List.length_append, List.length_append, ← Nat.add_assoc]
            rfl
          · refine .inr ⟨fun l' hl' => ?_, (n ++ v) ++ l, err, herr, ?_⟩
            · obtain ⟨n', v', l'', -, hl'', -⟩ := (hpairs l').mp hl'
              exact hnone l'' hl''
            · rintro ⟨o, spans⟩
              dsimp only
              rw [iterate, hround, bind_assoc, pushAll_append (l := n ++ v), bind_assoc]
              refine pushAll_bind_congr fun o' _ => ?_
              rw [pure_eq, done_bind]
              exact hrun (o', _)
        · refine .inr ⟨fun l' hl' => ?_, l, err, herr, ?_⟩
          · obtain ⟨n, v, -, hpart, -⟩ := (hpairs l').mp hl'
            exact hnone n v hpart
          · rintro ⟨o, spans⟩
            dsimp only
            rw [iterate, hround, bind_assoc]
            rfl
      · obtain rfl : i = end_ := by omega
        have hround : ∀ (o : Content σ) (spans : List (Nat × Nat)),
            queryRound A fuel q (o, i, spans) = pure (.inl (o, i + 1, spans)) := by
          intro o spans
          rw [queryRound]
          dsimp only
          rw [if_pos hlt, hfind, done_bind, if_neg hpart]
        have hnext := ih (i + 1) (by omega) (by omega)
        simp only [Reads, hrest] at hnext ⊢
        simp only [iterate, hround, pure_eq, done_bind]
        exact hnext
    · refine .inl ⟨[], ?_, ?_⟩
      · rw [List.drop_eq_nil_of_le (by omega)]
        exact .nil
      · rintro ⟨o, spans⟩
        dsimp only
        rw [iterate, queryRound]
        dsimp only
        rw [if_neg hlt, spansFrom, List.append_nil]
        rfl

/-- The views that the spans are. -/
theorem spanViews_eq (all rest : Bytes) : ∀ (l : List Bytes) (start : Nat), start ≤ all.length →
    all.drop start = l.flatten ++ rest → spanViews all (spansFrom start l) = done l
  | [], _, _, _ => rfl
  | v :: l, start, hstart, h => by
    rw [List.flatten_cons, List.append_assoc] at h
    have hlen := congrArg List.length h
    rw [List.length_drop, List.length_append] at hlen
    have hview : (all.drop start).take (start + v.length - start) = v := by
      rw [Nat.add_sub_cancel_left, h, List.take_left]
    have hdrop : all.drop (start + v.length) = l.flatten ++ rest := by rw [← List.drop_drop, h, List.drop_left]
    rw [spansFrom, spanViews, slice_eq (show start + (start + v.length - start) ≤ all.length by omega), hview, done_bind,
      spanViews_eq all rest l _ (by omega) hdrop]
    rfl

/-- **Reading a query string.**  It gives the names and values that the string stands for, as views of the buffer that
they have been decoded into. -/
theorem queryPairsInto_reads (A : Allocator σ) (hq : q.length + 8 < 2 ^ 31) (hfuel : q.length + 1 < fuel) :
    Reads A fuel q q id (fun o => queryPairsInto A fuel o q) (fun _ l => l) := by
  rcases queryLoop_reads A hq (show q.length < fuel by omega) fuel 0 (Nat.zero_le _) (by omega) with ⟨l, hl, hrun⟩ | ⟨hnone, l, e, he, hrun⟩
  · refine .inl ⟨l, hl, fun o => ?_⟩
    have hloop := hrun (o, [])
    dsimp only at hloop
    dsimp only [id]
    rw [queryPairsInto, hloop, bind_assoc]
    refine pushAll_bind_congr fun o' hbytes => ?_
    rw [pure_eq, done_bind]
    dsimp only
    rw [List.nil_append, spanViews_eq o'.bytes [] l _ (by rw [hbytes, List.length_append]; omega)
      (by rw [hbytes, List.drop_left, List.append_nil])]
    rfl
  · refine .inr ⟨hnone, l, e, he, fun o => ?_⟩
    have hloop := hrun (o, [])
    dsimp only at hloop
    dsimp only [id]
    rw [queryPairsInto, hloop, bind_assoc]
    rfl

/-! ### Building -/

/-- The text of a name or a value. -/
def queryField (x : Bytes) : Bytes := x.flatMap (percentByte [] true)

/-- The text of names and values after others. -/
def queryTail : List Bytes → Bytes
  | n :: v :: l => 38#8 :: (queryField n ++ 61#8 :: (queryField v ++ queryTail l))
  | _ => []

/-- The text of names and values: `name=value`, joined with `&`. -/
def queryText : List Bytes → Bytes
  | n :: v :: l => queryField n ++ 61#8 :: (queryField v ++ queryTail l)
  | _ => []

/-- What is written of a byte is ASCII, and no separator. -/
theorem percentByte_plain (x c : BitVec 8) (hc : c ∈ percentByte [] true x) : c.toNat < 128 ∧ c ≠ 38#8 ∧ c ≠ 61#8 := by
  have hdigit : ∀ d : Fin 16, (BitVec.ofNat 8 (hexDigit d true)).toNat < 128 ∧ BitVec.ofNat 8 (hexDigit d true) ≠ 38#8 ∧
      BitVec.ofNat 8 (hexDigit d true) ≠ 61#8 := by decide
  have hx := x.isLt
  rw [percentByte] at hc
  split_ifs at hc with hspace hkept
  · obtain rfl := List.mem_singleton.mp hc
    decide
  · obtain rfl := List.mem_singleton.mp hc
    have hun : unreserved c.toNat = true := by
      rcases hkept with hun | ⟨-, hmem⟩
      · exact hun
      · cases hmem
    refine ⟨?_, ?_, ?_⟩
    · simp only [unreserved, decide_eq_true_eq] at hun
      omega
    · rintro rfl
      exact absurd hun (by decide)
    · rintro rfl
      exact absurd hun (by decide)
  · rcases List.mem_cons.mp hc with rfl | hc
    · decide
    · simp only [hexPair, List.mem_cons, List.not_mem_nil, or_false] at hc
      rcases hc with rfl | rfl
      · exact hdigit ⟨x.toNat / 16, by omega⟩
      · exact hdigit ⟨x.toNat % 16, by omega⟩

theorem queryField_plain {x : Bytes} {c : BitVec 8} (hc : c ∈ queryField x) : c.toNat < 128 ∧ c ≠ 38#8 ∧ c ≠ 61#8 := by
  obtain ⟨y, -, hy⟩ := List.mem_flatMap.mp hc
  exact percentByte_plain y c hy

theorem part_text (hn : IsUtf8 n) (hv : IsUtf8 v) : Part (queryField n ++ 61#8 :: queryField v) n v :=
  ⟨_, _, ⟨fun hmem => (queryField_plain hmem).2.2 rfl, .inl rfl⟩, ⟨escaped_flatMap (by simp) (by simp) n, hn⟩,
    escaped_flatMap (by simp) (by simp) v, hv⟩

/-- **What is built stands for the names and values.** -/
theorem pairs_text : ∀ l : List Bytes, l.length % 2 = 0 → (∀ x ∈ l, IsUtf8 x) →
    Pairs (queryText l) l ∧ Pairs (queryTail l) l
  | [], _, _ => ⟨.nil, .nil⟩
  | [_], hlen, _ => by simp at hlen
  | n :: v :: l, hlen, hutf8 => by
    have hrest := (pairs_text l (by simp only [List.length_cons] at hlen; omega) fun x hx => hutf8 x (by simp [hx])).2
    have hpart := part_text (hutf8 n (by simp)) (hutf8 v (by simp))
    have hfirst : Pairs (queryText (n :: v :: l)) (n :: v :: l) := by
      rw [queryText, ← List.cons_append, ← List.append_assoc, pairs_append_iff (by simp)]
      · exact ⟨n, v, l, hpart, hrest, rfl⟩
      · intro hmem
        rcases List.mem_append.mp hmem with h | h
        · exact (queryField_plain h).2.1 rfl
        · rcases List.mem_cons.mp h with h | h
          · exact absurd h (by decide)
          · exact (queryField_plain h).2.1 rfl
      · intro c r heq
        cases l with
        | nil => cases heq
        | cons x l =>
          cases l with
          | nil => cases heq
          | cons y l => exact (List.cons.inj heq).1.symm
    exact ⟨hfirst, .skip hfirst⟩

theorem ascii_queryTail : ∀ l : List Bytes, ∀ c ∈ queryTail l, c.toNat < 128
  | [], c, hc => by cases hc
  | [_], c, hc => by cases hc
  | n :: v :: l, c, hc => by
    rw [queryTail] at hc
    simp only [List.mem_cons, List.mem_append] at hc
    rcases hc with rfl | hc | rfl | hc | hc
    · decide
    · exact (queryField_plain hc).1
    · decide
    · exact (queryField_plain hc).1
    · exact ascii_queryTail l c hc

theorem ascii_queryText (l : List Bytes) : ∀ c ∈ queryText l, c.toNat < 128 := by
  intro c hc
  match l, hc with
  | n :: v :: l, hc => exact ascii_queryTail (n :: v :: l) c (List.mem_cons_of_mem _ hc)

theorem isUtf8_ascii {b : Bytes} (h : ∀ c ∈ b, c.toNat < 128) : IsUtf8 b := by
  refine ⟨b.map BitVec.toNat, ?_, ?_⟩
  · intro cp hcp
    obtain ⟨c, hc, rfl⟩ := List.mem_map.mp hcp
    have := h c hc
    exact ⟨by omega, by omega⟩
  · induction b with
    | nil => rfl
    | cons c b ih =>
      rw [List.map_cons, List.flatMap_cons, ← ih fun x hx => h x (List.mem_cons_of_mem _ hx), encode,
        if_pos (h c List.mem_cons_self), BitVec.ofNat_toNat, BitVec.setWidth_eq]
      rfl

variable (A fuel) in
/-- The parts from an even place on. -/
theorem queryParts_eq (rest : List Bytes) : ∀ (j : Nat), pairs.drop j = rest → j % 2 = 0 → rest.length % 2 = 0 →
    ∀ o : Content σ, foldAll (queryPart A fuel pairs) o (List.range' j rest.length) =
      pushAll A fuel o (if j = 0 then queryText rest else queryTail rest) := by
  have hpart : ∀ {j : Nat} {x : Bytes}, pairs[j]? = some x → ∀ o : Content σ, queryPart A fuel pairs o j =
      pushAll A fuel o ((if j = 0 then [] else if j % 2 = 0 then [38#8] else [61#8]) ++ queryField x) := by
    intro j x hx o
    have hfield : ∀ o : Content σ, (do
        let part ← ofOption pairs[j]?
        percentEncodeTo A fuel o part [] true) = pushAll A fuel o (queryField x) := by
      intro o
      rw [hx]
      exact percentEncodeTo_eq o x [] true
    rw [queryPart, pushAll_append]
    by_cases hj : j = 0
    · rw [if_neg (by omega), if_pos hj, pure_eq, done_bind]
      exact hfield o
    · rw [if_pos (by omega), if_neg hj]
      by_cases heven : j % 2 = 0
      · rw [if_pos heven, if_pos heven, pushAll_one (show (38#32).setWidth 8 = 38#8 from rfl)]
        congr
        funext o'
        exact hfield o'
      · rw [if_neg heven, if_neg heven, pushAll_one (show (61#32).setWidth 8 = 61#8 from rfl)]
        congr
        funext o'
        exact hfield o'
  induction rest using queryTail.induct with
  | case1 n v l ih =>
    intro j hdrop heven hlen o
    have hdrop' : pairs.drop (j + 1) = v :: l := by rw [← List.drop_drop, hdrop]; rfl
    have hdrop'' : pairs.drop (j + 2) = l := by rw [← List.drop_drop, hdrop]; rfl
    have hget : ∀ {k : Nat} {x : Bytes} {r : List Bytes}, pairs.drop k = x :: r → pairs[k]? = some x := by
      intro k x r h
      have hget : (pairs.drop k)[0]? = some x := by rw [h]; rfl
      rwa [List.getElem?_drop, Nat.add_zero] at hget
    simp only [List.length_cons] at hlen ⊢
    rw [List.range'_succ, List.range'_succ, foldAll, hpart (hget hdrop)]
    have htext : (if j = 0 then queryText (n :: v :: l) else queryTail (n :: v :: l)) =
        ((if j = 0 then [] else if j % 2 = 0 then [38#8] else [61#8]) ++ queryField n) ++
          (([61#8] ++ queryField v) ++ queryTail l) := by
      by_cases hj : j = 0
      · simp [hj, queryText]
      · simp [hj, heven, queryTail]
    rw [htext]
    generalize (if j = 0 then [] else if j % 2 = 0 then [38#8] else [61#8]) ++ queryField n = first
    rw [pushAll_append]
    congr
    funext o'
    rw [foldAll, hpart (hget hdrop'), if_neg (by omega), if_neg (by omega), pushAll_append (l := [61#8] ++ queryField v)]
    congr
    funext o''
    have hrest := ih (j + 2) hdrop'' (by omega) (by omega) o''
    rwa [if_neg (by omega)] at hrest
  | case2 l hl =>
    intro j hdrop heven hlen o
    rcases l with _ | ⟨n, _ | ⟨v, l⟩⟩
    · simp [queryText, queryTail, pushAll, foldAll]
    · simp at hlen
    · exact absurd rfl (hl n v l)

theorem fromBytes_eq {b : Bytes} (h : IsUtf8 b) (hb : b.length + 8 < 2 ^ 31) (hfuel : b.length < fuel) :
    fromBytes fuel b = done b := by
  obtain ⟨valid, hvalid, hiff⟩ := (StdUtf8.validUtf8_ends hb hfuel).exists
  rw [fromBytes, hvalid, done_bind, hiff.mpr h]
  rfl

theorem viewStrs_eq {vs : List Bytes} (h : ∀ v ∈ vs, IsUtf8 v ∧ v.length + 8 < 2 ^ 31 ∧ v.length < fuel) :
    viewStrs fuel vs = done vs := by
  induction vs with
  | nil => rfl
  | cons v vs ih =>
    obtain ⟨hutf8, hlen, hfuel⟩ := h v List.mem_cons_self
    rw [viewStrs, ih fun x hx => h x (List.mem_cons_of_mem _ hx)]
    by_cases hv : 0 < v.length
    · rw [if_pos hv, fromBytes_eq hutf8 hlen hfuel]
      rfl
    · obtain rfl : v = [] := List.eq_nil_of_length_eq_zero (by omega)
      rfl

/-- Names and values are UTF-8, and no longer than the query. -/
theorem Pairs.bounds (h : Pairs t l) : ∀ x ∈ l, IsUtf8 x ∧ x.length ≤ t.length := by
  have hpart : ∀ {p n v : Bytes}, Part p n v → (IsUtf8 n ∧ n.length ≤ p.length) ∧ IsUtf8 v ∧ v.length ≤ p.length := by
    rintro p n v ⟨name, value, ⟨-, hp⟩, ⟨hn, hnutf8⟩, hv, hvutf8⟩
    have hnlen := hn.length_le
    have hvlen := hv.length_le
    rcases hp with rfl | ⟨rfl, rfl⟩
    · rw [List.length_append, List.length_cons]
      exact ⟨⟨hnutf8, by omega⟩, hvutf8, by omega⟩
    · exact ⟨⟨hnutf8, hnlen⟩, hvutf8, hvlen.trans (Nat.zero_le _)⟩
  induction h with
  | nil => simp
  | skip _ ih => exact fun x hx => ⟨(ih x hx).1, (ih x hx).2.trans (Nat.le_succ _)⟩
  | last _ _ h =>
    simp only [List.mem_cons, List.not_mem_nil, or_false]
    rintro x (rfl | rfl)
    · exact (hpart h).1
    · exact (hpart h).2
  | more _ _ h _ ih =>
    simp only [List.mem_cons, List.length_append, List.length_cons]
    rintro x (rfl | rfl | hx)
    · exact ⟨(hpart h).1.1, by have := (hpart h).1.2; omega⟩
    · exact ⟨(hpart h).2.1, by have := (hpart h).2.2; omega⟩
    · exact ⟨(ih x hx).1, by have := (ih x hx).2; omega⟩

/-- **Query strings make the round trip.**  What is built of names and values, in UTF-8, is read as these; and a query
string is read just when it stands for names and values, which are what the views show. -/
theorem queries_invert (A : Allocator σ) (fuel : Nat) :
    (∀ (pairs : List Bytes) (heap heap' : σ), pairs.length % 2 = 0 → (∀ x ∈ pairs, IsUtf8 x) →
      (queryText pairs).length + 8 < 2 ^ 31 → (queryText pairs).length + 1 < fuel →
      queryBuild A fuel heap pairs = (do
        let o ← Content.make A heap 64#32
        let _ ← pushAll A fuel o (queryText pairs)
        pure (queryText pairs)) ∧
      queryPairs A fuel heap' (queryText pairs) = (do
        let o ← Content.make A heap' 64#32
        let _ ← pushAll A fuel o pairs.flatten
        pure (.ok pairs))) ∧
    ∀ q : Bytes, q.length + 8 < 2 ^ 31 → q.length + 1 < fuel →
      (∃ l, Pairs q l ∧ (∀ l', Pairs q l' → l' = l) ∧ ∀ o : Content σ, queryPairsInto A fuel o q =
        pushAll A fuel o l.flatten >>= fun o' => pure (o', .ok l)) ∨
      ((∀ l, ¬ Pairs q l) ∧ ∃ l e, e.at_ ≤ q.length ∧ ∀ o : Content σ, queryPairsInto A fuel o q =
        pushAll A fuel o l >>= fun o' => pure (o', .error e)) := by
  refine ⟨fun pairs heap heap' heven hutf8 hlen hfuel => ⟨?_, ?_⟩, fun q hq hfuel => ?_⟩
  · have hparts := queryParts_eq fuel A pairs 0 List.drop_zero rfl heven
    rw [queryBuild, require, if_pos (decide_eq_true heven), done_bind]
    refine bind_congr_of_returns (make_returns heap 64#32) fun o ho => ?_
    rw [List.range_eq_range', hparts, if_pos rfl]
    refine pushAll_bind_congr fun o' hbytes => ?_
    rw [hbytes, ho, List.nil_append, fromBytes_eq (isUtf8_ascii (ascii_queryText pairs)) hlen (by omega)]
    rfl
  · have hpairs := (pairs_text pairs heven hutf8).1
    rw [queryPairs]
    refine bind_congr_of_returns (make_returns heap' 64#32) fun o _ => ?_
    rcases queryPairsInto_reads A hlen hfuel with ⟨l, hl, hrun⟩ | ⟨hnone, -⟩
    · obtain rfl := hpairs.unique hl
      refine (congrArg (· >>= _) (hrun o)).trans ?_
      rw [bind_assoc]
      refine bind_congr fun o' => ?_
      rw [pure_eq, done_bind]
      dsimp only
      rw [viewStrs_eq fun v hv => ⟨(hpairs.bounds v hv).1, by have := (hpairs.bounds v hv).2; omega,
        by have := (hpairs.bounds v hv).2; omega⟩]
      rfl
    · exact absurd hpairs (hnone pairs)
  · rcases queryPairsInto_reads A hq hfuel with ⟨l, hl, hrun⟩ | hnone
    · exact .inl ⟨l, hl, fun l' hl' => hl'.unique hl, hrun⟩
    · exact .inr hnone

/-- The name `a=` and an empty value, and an empty name and the value `&`. -/
def trickyPairs : List Bytes := [[97#8, 61#8], [], [], [38#8]]

/-- Names and values that hold separators or nothing make the round trip, and a name alone has an empty value. -/
theorem trickyPairs_invert :
    queryPairs Allocator.ample 20 () (queryText trickyPairs) = (do
      let o ← Content.make Allocator.ample () 64#32
      let _ ← pushAll Allocator.ample 20 o trickyPairs.flatten
      pure (.ok trickyPairs)) ∧
    ∀ o : Content Unit, queryPairsInto Allocator.ample 20 o [97#8] =
      pushAll Allocator.ample 20 o [97#8] >>= fun o' => pure (o', .ok [[97#8], []]) := by
  have hutf8 : ∀ x ∈ trickyPairs, IsUtf8 x := by
    intro x hx
    refine isUtf8_ascii ?_
    revert x
    decide
  have hname : Pairs [97#8] [[97#8], []] :=
    .last (by decide) (by decide) ⟨[97#8], [], ⟨by decide, .inr ⟨rfl, rfl⟩⟩,
      ⟨.byte (by decide) (fun _ => by decide) .nil, isUtf8_ascii (by decide)⟩, .nil, isUtf8_nil⟩
  refine ⟨((queries_invert Allocator.ample 20).1 trickyPairs () () rfl hutf8 (by decide) (by decide)).2, ?_⟩
  rcases (queries_invert Allocator.ample 20).2 [97#8] (by decide) (by decide) with ⟨l, -, hunique, hrun⟩ | ⟨hnone, -⟩
  · obtain rfl := hunique _ hname
    exact hrun
  · exact absurd hname (hnone _)

end Aipl.StdUrl
