import Aipl.Checker.Accepted

/-! # Values as compiled code sees them

`flat`: a value's scalars, each with its byte offset in the value's memory layout.

* `flat_laid` — the scalars of a value in memory are aligned to their sizes and share no byte.
* `fields_laid` — so are the scalars of a struct's fields, which `get_field_offset` finds.
-/

namespace Aipl.Compiler

open Aipl.Lib Aipl.Lib.Outcome Aipl.Checker

def flat : Nat → Structs → Ty → Outcome (List (Ty × Nat))
  | 0, _, _ => outOfFuel
  | _ + 1, _, .void => pure []
  | fuel + 1, st, .struct n =>
    match st.get n with
    | some d =>
      if d.isValue then do
        let out ← mapAll
          (fun f : Field => do
            let off ← getFieldOffset fuel st d f.name
            let items ← flat fuel st f.ty
            pure (items.map fun p => (p.1, (off.map Prod.fst).getD 0 + p.2)))
          d.fields
        pure out.flatten
      else pure [(.struct n, 0)]
    | none => pure [(.struct n, 0)]
  | _ + 1, st, .union n =>
    match st.layout n with
    | some l => pure ((l.slots.map Kind.ty).zip l.offsets)
    | none => pure [(.union n, 0)]
  | fuel + 1, st, .result a b => do
    match ← resultLayout fuel st a b with
    | some l => pure ((l.slots.map Kind.ty).zip l.offsets)
    | none => pure [(.result a b, 0)]
  | _ + 1, _, t => pure [(t, 0)]

variable {st : Structs} {enums : List String}

/-! ### Sizes -/

/-- The size of a scalar in memory. -/
def scalarSize : Ty → Nat
  | .narrow n => n.size
  | t => (slotKind t).size

/-- The offset and size of each scalar. -/
def extents (items : List (Ty × Nat)) : List (Nat × Nat) := items.map fun p => (p.2, scalarSize p.1)

theorem extents_append (xs ys : List (Ty × Nat)) : extents (xs ++ ys) = extents xs ++ extents ys :=
  List.map_append

/-- An alignment: each divides the larger ones. -/
def IsAlign (a : Nat) : Prop := a = 1 ∨ a = 2 ∨ a = 4 ∨ a = 8

theorem IsAlign.pos {a : Nat} (h : IsAlign a) : 0 < a := by
  rcases h with rfl | rfl | rfl | rfl <;> decide

theorem IsAlign.dvd_max {a b : Nat} (ha : IsAlign a) (hb : IsAlign b) :
    IsAlign (max a b) ∧ a ∣ max a b ∧ b ∣ max a b := by
  rcases ha with rfl | rfl | rfl | rfl <;> rcases hb with rfl | rfl | rfl | rfl <;>
    simp [IsAlign]

/-- `items` are the scalars of a value of the given size and alignment. -/
structure Placed (items : List (Ty × Nat)) (r : Nat × Nat) : Prop where
  laid : Laid 0 (extents items) r.1
  align : IsAlign r.2
  dvd : ∀ p ∈ extents items, p.2 ∣ r.2

/-- With enough fuel, a value of type `t` is `items`, which are the scalars the checker counts. -/
def Flattens (st : Structs) (t : Ty) (items : List (Ty × Nat)) : Prop :=
  ∃ k, ∀ fuel ≥ k, flat fuel st t = done items ∧ scalars fuel st t = done (items.map Prod.fst)

theorem placed_one {t : Ty} {s : Nat} (hs : scalarSize t = s) (ha : IsAlign s) :
    Placed [(t, 0)] (s, s) := by
  subst hs
  refine ⟨⟨le_rfl, Nat.dvd_zero _, ?_⟩, ha, fun p hp => ?_⟩
  · exact (Nat.zero_add _).le
  · obtain rfl : p = (0, scalarSize t) := by simpa [extents] using hp
    exact Nat.dvd_refl _

theorem placed_sum (pv : List (List Kind)) :
    Placed (((sumLayoutOf pv).slots.map Kind.ty).zip (sumLayoutOf pv).offsets)
      ((sumLayoutOf pv).size, (sumLayoutOf pv).align) := by
  have hsize : ∀ k : Kind, scalarSize k.ty = k.size := by intro k; cases k <;> rfl
  have hextents : ∀ (ks : List Kind) (os : List Nat),
      extents ((ks.map Kind.ty).zip os) = os.zip (ks.map Kind.size) := by
    intro ks
    induction ks with
    | nil => intro os; cases os <;> rfl
    | cons k ks ih =>
      intro os
      cases os with
      | nil => rfl
      | cons o os =>
        rw [List.map_cons, List.zip_cons_cons, List.map_cons, List.zip_cons_cons, ← ih os, ← hsize k]
        rfl
  obtain ⟨halign, hdvd⟩ := sumLayoutOf_align pv
  refine ⟨?_, ?_, fun p hp => ?_⟩
  · rw [hextents]
    exact sumLayoutOf_laid pv
  · exact halign.elim (fun h => .inr (.inr (.inl h))) fun h => .inr (.inr (.inr h))
  · rw [hextents] at hp
    obtain ⟨k, hk, heq⟩ := List.mem_map.mp (List.of_mem_zip hp).2
    rw [← heq]
    exact hdvd k hk

/-! ### Fields -/

/-- The scalars of a struct's field, where `get_field_offset` puts it. -/
def fieldItems (fuel : Nat) (st : Structs) (d : StructDef) (f : Field) :
    Outcome (List (Ty × Nat)) := do
  let off ← getFieldOffset fuel st d f.name
  let items ← flat fuel st f.ty
  pure (items.map fun p => (p.1, (off.map Prod.fst).getD 0 + p.2))

theorem extents_shift (off : Nat) (items : List (Ty × Nat)) :
    extents (items.map fun p => (p.1, off + p.2)) = (extents items).map fun p => (off + p.1, p.2) := by
  rw [extents, extents, List.map_map, List.map_map]
  rfl

/-- The fields from `fs` on, which `get_field_offset` reaches with offset `o`. -/
theorem fields_laid_from {d : StructDef} {k₀ left : Nat} {fs : List Field} (hleft : left ≤ 64)
    (hnames : (fs.map Field.name).Nodup)
    (hfield : ∀ f ∈ fs, ∀ fuel r, layoutAt fuel st left f.ty = done (some r) →
      ∃ items, Flattens st f.ty items ∧ Placed items r)
    {o m o' m' : Nat} (hm : IsAlign m)
    (hplace : placeFields (layoutAt k₀ st left) (o, m) fs = done (some (o', m'))) {k : Nat}
    (hoff : ∀ f ∈ fs, ∀ fuel ≥ k, getFieldOffset fuel st d f.name = fieldOffset fuel st f.name o fs) :
    ∃ k outs, (∀ fuel ≥ k, mapAll (fieldItems fuel st d) fs = done outs ∧
        mapAll (scalars fuel st) (fs.map Field.ty) = done (outs.map (List.map Prod.fst))) ∧
      Laid o (extents outs.flatten) o' ∧ IsAlign m' ∧ m ∣ m' ∧ ∀ p ∈ extents outs.flatten, p.2 ∣ m' := by
  induction fs generalizing o m k with
  | nil =>
    injection hplace with hplace
    injection hplace with hplace
    obtain ⟨rfl, rfl⟩ := Prod.mk.inj hplace
    exact ⟨0, [], fun _ _ => ⟨rfl, rfl⟩, le_rfl, hm, Nat.dvd_refl _, fun p hp => absurd hp List.not_mem_nil⟩
  | cons f fs ih =>
    rw [placeFields] at hplace
    obtain ⟨r, hr, hplace⟩ := bind_eq_done hplace
    cases r with
    | none => cases hplace
    | some sa =>
      obtain ⟨s, a⟩ := sa
      obtain ⟨items, ⟨k₁, hitems⟩, hlaid, halign, hdvd⟩ := hfield f List.mem_cons_self k₀ (s, a) hr
      have hsize : ∀ fuel ≥ k₀, typeSizeAndAlign fuel st f.ty = done (some (s, a)) :=
        fun fuel hfuel => layoutAt_mono hr hfuel hleft
      obtain ⟨hnot, hnames'⟩ := List.nodup_cons.mp hnames
      obtain ⟨hmax, hdvdM, hdvdA⟩ := hm.dvd_max halign
      -- the fields behind it are found behind it
      obtain ⟨k₂, outs, houts, hlaid', halign', hm', hdvd'⟩ := ih hnames'
        (fun f' hf' => hfield f' (List.mem_cons_of_mem _ hf')) hmax hplace (k := max k k₀)
        (fun f' hf' fuel hfuel => by
          have hne : f.name ≠ f'.name := fun heq => hnot (heq ▸ List.mem_map_of_mem hf')
          rw [hoff f' (List.mem_cons_of_mem _ hf') fuel (by omega), fieldOffset,
            hsize fuel (by omega), done_bind]
          dsimp only
          rw [if_neg hne])
      have hthis : ∀ fuel ≥ max (max k k₀) k₁,
          fieldItems fuel st d f = done (items.map fun p => (p.1, alignUp o a + p.2)) := by
        intro fuel hfuel
        rw [fieldItems, hoff f List.mem_cons_self fuel (by omega), fieldOffset, hsize fuel (by omega),
          done_bind]
        dsimp only
        rw [if_pos rfl, pure_eq, done_bind, (hitems fuel (by omega)).1]
        rfl
      refine ⟨max (max (max k k₀) k₁) k₂, (items.map fun p => (p.1, alignUp o a + p.2)) :: outs,
        fun fuel hfuel => ?_, ?_, halign', hdvdM.trans hm', fun p hp => ?_⟩
      · obtain ⟨hrest, hscalars⟩ := houts fuel (by omega)
        constructor
        · rw [mapAll, hthis fuel (by omega), done_bind, hrest]
          rfl
        · rw [List.map_cons, mapAll, (hitems fuel (by omega)).2, done_bind, hscalars, List.map_cons,
            List.map_map]
          rfl
      · rw [List.flatten_cons, extents_append, extents_shift]
        have hshift : Laid (alignUp o a + 0) ((extents items).map fun p => (alignUp o a + p.1, p.2))
            (alignUp o a + s) := hlaid.shift fun p hp => (hdvd p hp).trans (dvd_alignUp o a)
        exact (hshift.mono (by rw [Nat.add_zero]; exact le_alignUp halign.pos) le_rfl).append hlaid'
      · rw [List.flatten_cons, extents_append, extents_shift] at hp
        rcases List.mem_append.mp hp with hp | hp
        · obtain ⟨q, hq, rfl⟩ := List.mem_map.mp hp
          exact ((hdvd q hq).trans hdvdA).trans hm'
        · exact hdvd' p hp

/-! ### Values -/

theorem flattens_succ {t : Ty} {k : Nat} {items : List (Ty × Nat)}
    (h : ∀ fuel ≥ k, flat (fuel + 1) st t = done items ∧
      scalars (fuel + 1) st t = done (items.map Prod.fst)) : Flattens st t items := by
  refine ⟨k + 1, fun fuel hfuel => ?_⟩
  obtain ⟨f, rfl⟩ : ∃ f, fuel = f + 1 := ⟨fuel - 1, by omega⟩
  exact h f (by omega)

/-- A value that is no struct. -/
theorem flat_laid_leaf (h : Accepted st enums) {left fuel : Nat} {t : Ty} {r : Nat × Nat}
    (ht : ∀ n, t ≠ .struct n) (hr : layoutAt fuel st left t = done (some r)) :
    ∃ items, Flattens st t items ∧ Placed items r := by
  have hone : ∀ {t : Ty} {s : Nat},
      (∀ fuel, flat (fuel + 1) st t = done [(t, 0)] ∧ scalars (fuel + 1) st t = done [t]) →
      scalarSize t = s → IsAlign s → done (some (s, s)) = done (some r) →
      ∃ items, Flattens st t items ∧ Placed items r := by
    intro t s hflat hs ha hr
    injection hr with hr
    injection hr with hr
    subst hr
    exact ⟨[(t, 0)], flattens_succ (k := 0) fun fuel _ => hflat fuel, placed_one hs ha⟩
  have hfst : ∀ pv : List (List Kind),
      (((sumLayoutOf pv).slots.map Kind.ty).zip (sumLayoutOf pv).offsets).map Prod.fst
        = (sumLayoutOf pv).slots.map Kind.ty := by
    intro pv
    rw [List.map_fst_zip]
    rw [List.length_map, length_offsets]
  cases t with
  | struct n => exact absurd rfl (ht n)
  | void => rw [layoutAt] at hr; cases hr
  | union n =>
    rw [layoutAt] at hr
    cases hl : st.layout n with
    | none =>
      rw [hl] at hr
      exact hone (fun fuel => ⟨by rw [flat, hl]; rfl, by rw [scalars, hl]; rfl⟩) rfl (.inr (.inr (.inl rfl))) hr
    | some l =>
      rw [hl] at hr
      injection hr with hr
      injection hr with hr
      subst hr
      obtain ⟨fuel₀, u, l', -, -, hsum, hl'⟩ := h.laidOut n (by rw [hl]; rfl)
      obtain rfl : l = l' := Option.some.inj (hl.symm.trans hl')
      obtain ⟨pv, rfl, -⟩ := sumLayout_variant hsum
      refine ⟨_, flattens_succ (k := 0) fun fuel _ => ⟨by rw [flat, hl]; rfl, ?_⟩, placed_sum pv⟩
      rw [scalars, hl, hfst]
      rfl
  | result a b =>
    rw [layoutAt] at hr
    obtain ⟨l, hl, hr⟩ := bind_eq_done hr
    cases l with
    | none => cases hr
    | some l =>
      injection hr with hr
      injection hr with hr
      subst hr
      obtain ⟨hsum, hsmall⟩ : resultSum fuel st a b = done l ∧ l.slots.length ≤ MAX_SCALARS := by
        rw [resultLayout] at hl
        obtain ⟨l', hl', hl⟩ := bind_eq_done hl
        injection hl with hl
        split at hl
        · rename_i hsmall
          obtain rfl := Option.some.inj hl
          exact ⟨hl', hsmall⟩
        · cases hl
      obtain ⟨pv, rfl, -⟩ := sumLayout_variant hsum
      refine ⟨_, flattens_succ (k := fuel) fun fuel' hfuel => ⟨?_, ?_⟩, placed_sum pv⟩
      · rw [flat, resultLayout_mono hl hfuel]
        rfl
      · rw [scalars, ← resultSum, resultSum_mono hsum hfuel, done_bind, if_pos hsmall, hfst]
        rfl
  | narrow n =>
    rw [layoutAt] at hr
    refine hone (fun _ => ⟨rfl, rfl⟩) rfl ?_ hr
    cases n
    · exact .inl rfl
    · exact .inl rfl
    · exact .inr (.inl rfl)
    · exact .inr (.inl rfl)
  | i64 => exact hone (fun _ => ⟨rfl, rfl⟩) rfl (.inr (.inr (.inr rfl))) (by rwa [layoutAt] at hr)
  | f64 => exact hone (fun _ => ⟨rfl, rfl⟩) rfl (.inr (.inr (.inr rfl))) (by rwa [layoutAt] at hr)
  | ptr t => exact hone (fun _ => ⟨rfl, rfl⟩) rfl (.inr (.inr (.inr rfl))) (by rwa [layoutAt] at hr)
  | array t => exact hone (fun _ => ⟨rfl, rfl⟩) rfl (.inr (.inr (.inr rfl))) (by rwa [layoutAt] at hr)
  | _ => exact hone (fun _ => ⟨rfl, rfl⟩) rfl (.inr (.inr (.inl rfl))) (by rwa [layoutAt] at hr)

/-- **The scalars of a value in memory** are aligned to their sizes and share no byte. -/
theorem flat_laid (h : Accepted st enums) {left fuel : Nat} {t : Ty} {r : Nat × Nat}
    (hleft : left ≤ 64) (hr : layoutAt fuel st left t = done (some r)) :
    ∃ items, Flattens st t items ∧ Placed items r := by
  induction left generalizing fuel t r with
  | zero =>
    refine flat_laid_leaf h (fun n hn => ?_) hr
    subst hn
    rw [layoutAt] at hr
    cases hr
  | succ left ih =>
    by_cases hstruct : ∃ n, t = .struct n
    · obtain ⟨n, rfl⟩ := hstruct
      rw [layoutAt] at hr
      cases hd : st.get n with
      | none =>
        rw [hd] at hr
        cases hr
      | some d =>
        rw [hd] at hr
        dsimp only at hr
        split at hr
        · rename_i hv
          obtain ⟨o, ho, hr⟩ := bind_eq_done hr
          cases o with
          | none => cases hr
          | some om =>
            obtain ⟨o, m⟩ := om
            injection hr with hr
            injection hr with hr
            subst hr
            obtain ⟨k, outs, houts, hlaid, halign, -, hdvd⟩ :=
              fields_laid_from (d := d) (k := 0) (by omega) (h.names n d hd)
                (fun f _ fuel r hr => ih (by omega) hr) (.inl rfl) ho fun _ _ _ _ => rfl
            refine ⟨outs.flatten, flattens_succ (k := k) fun fuel hfuel => ?_,
              hlaid.mono le_rfl (le_alignUp halign.pos), halign, hdvd⟩
            obtain ⟨hrun, hscalars⟩ := houts fuel hfuel
            unfold fieldItems at hrun
            constructor
            · rw [flat, hd]
              dsimp only
              rw [if_pos hv, hrun]
              rfl
            · rw [scalars, hd]
              dsimp only
              rw [if_pos hv, hscalars, List.map_flatten]
              rfl
        · cases hr
    · exact flat_laid_leaf h (fun n hn => hstruct ⟨n, hn⟩) hr

/-- **The scalars of a struct's fields**, where `get_field_offset` finds them, are aligned to their
sizes and share no byte. -/
theorem fields_laid (h : Accepted st enums) {n : String} {d : StructDef} (hd : st.get n = some d) :
    ∃ k outs size, (∀ fuel ≥ k, mapAll (fieldItems fuel st d) d.fields = done outs) ∧
      Laid 0 (extents outs.flatten) size := by
  have hplace : ∀ (fs : List Field), (∀ f ∈ fs, f ∈ d.fields) → ∀ acc : Nat × Nat,
      ∃ k r, placeFields (layoutAt k st 64) acc fs = done (some r) := by
    intro fs
    induction fs with
    | nil => exact fun _ acc => ⟨0, acc, rfl⟩
    | cons f fs ih =>
      intro hfs acc
      obtain ⟨k₁, sa, hsa⟩ := h.fieldLayout n d hd f (hfs f List.mem_cons_self)
      obtain ⟨k₂, r, hr⟩ := ih (fun f' hf' => hfs f' (List.mem_cons_of_mem _ hf'))
        (alignUp acc.1 sa.2 + sa.1, max acc.2 sa.2)
      refine ⟨max k₁ k₂, r, ?_⟩
      rw [placeFields, layoutAt_mono hsa (le_max_left k₁ k₂) le_rfl, done_bind]
      exact placeFields_mono (fun _ _ _ hr => layoutAt_mono hr (le_max_right k₁ k₂) le_rfl) hr
  obtain ⟨k₀, ⟨o, m⟩, ho⟩ := hplace d.fields (fun _ hf => hf) (0, 1)
  obtain ⟨k, outs, houts, hlaid, -⟩ := fields_laid_from (d := d) (k := 0) le_rfl (h.names n d hd)
    (fun f _ fuel r hr => flat_laid h le_rfl hr) (.inl rfl) ho fun _ _ _ _ => rfl
  exact ⟨k, outs, o, fun fuel hfuel => (houts fuel hfuel).1, hlaid⟩

end Aipl.Compiler
