import Aipl.Checker.Items
import Aipl.Checker.Unions

/-! # Accepted definitions

What holds of the structs and unions of a program the checker accepts.

* `Accepted` — value structs hold plain fields, unions are laid out, and every field has a valid type
  and a memory layout.
* `checkItems_accepted` — `check_items` accepts nothing else.
* `Accepted.exists_scalars` — the scalars of a valid type.
-/

namespace Aipl.Checker

open Aipl.Lib Aipl.Lib.Outcome

/-- A type that `validate_type` accepts. -/
def Valid (st : Structs) (enums : List String) (t : Ty) : Prop :=
  ∃ fuel, validType fuel st enums t = done true

/-- The definitions of an accepted program. -/
structure Accepted (st : Structs) (enums : List String) : Prop where
  value : ∀ n d, st.get n = some d → d.isValue = true →
    ∀ f ∈ d.fields, Plain f.ty ∧ Valid st enums f.ty
  counted : ∀ n d, st.get n = some d → d.isValue = true →
    ∃ fuel ts, scalars fuel st (.struct n) = done ts
  names : ∀ n d, st.get n = some d → (d.fields.map Field.name).Nodup
  fieldLayout : ∀ n d, st.get n = some d →
    ∀ f ∈ d.fields, ∃ fuel r, typeSizeAndAlign fuel st f.ty = done (some r)
  variant : ∀ n u, st.union n = some u →
    ∀ v ∈ u.variants, ∀ f ∈ v.fields, Inline f.ty ∧ Valid st enums f.ty
  layout : ∀ n, (st.union n).isSome → (st.layout n).isSome
  laidOut : ∀ n, (st.layout n).isSome → ∃ fuel, LaidOut fuel st n

variable {st : Structs} {enums : List String}

/-! ### Checks that pass -/

theorem of_firstError {α : Type} {check : α → Outcome (Option ItemError)} {as : List α}
    (h : firstError check as = done none) {a : α} (ha : a ∈ as) : check a = done none := by
  induction as with
  | nil => cases ha
  | cons a' as ih =>
    rw [firstError] at h
    obtain ⟨e, he, h⟩ := bind_eq_done h
    cases e with
    | some e => cases h
    | none =>
      rcases List.mem_cons.mp ha with rfl | ha
      · exact he
      · exact ih h ha

theorem nodup_of_firstDuplicate {seen ns : List String} (h : firstDuplicate seen ns = none) :
    ns.Nodup ∧ ∀ n ∈ ns, n ∉ seen := by
  induction ns generalizing seen with
  | nil => exact ⟨List.nodup_nil, fun n hn => absurd hn List.not_mem_nil⟩
  | cons n ns ih =>
    rw [firstDuplicate] at h
    split at h
    · cases h
    · rename_i hseen
      obtain ⟨hnodup, hnot⟩ := ih h
      refine ⟨List.nodup_cons.mpr ⟨fun hn => hnot n hn List.mem_cons_self, hnodup⟩, fun m hm => ?_⟩
      rcases List.mem_cons.mp hm with rfl | hm
      · exact hseen
      · exact fun hmem => hnot m hm (List.mem_cons_of_mem _ hmem)

theorem of_registerStructs {seen : List String} {ss : List StructDef}
    (h : registerStructs seen ss = none) {s : StructDef} (hs : s ∈ ss) :
    (s.fields.map Field.name).Nodup := by
  induction ss generalizing seen with
  | nil => cases hs
  | cons s' ss ih =>
    rw [registerStructs] at h
    split at h
    · cases h
    · cases hdup : firstDuplicate [] (s'.fields.map Field.name) with
      | some f =>
        rw [hdup] at h
        cases h
      | none =>
        rw [hdup] at h
        rcases List.mem_cons.mp hs with rfl | hs
        · exact (nodup_of_firstDuplicate hdup).1
        · exact ih h hs

theorem of_checkValueStruct {fuel : Nat} {s : StructDef} (h : checkValueStruct fuel st s = done none) :
    (∀ f ∈ s.fields, refusedField f.ty = false) ∧
      ∃ n, countScalars fuel st (.struct s.name) = done n := by
  rw [checkValueStruct] at h
  split at h
  · cases h
  · cases hfind : s.fields.find? fun f => refusedField f.ty with
    | some f =>
      rw [hfind] at h
      cases h
    | none =>
      rw [hfind] at h
      obtain ⟨o, -, h⟩ := bind_eq_done h
      cases o with
      | some first => cases h
      | none =>
        obtain ⟨n, hn, -⟩ := bind_eq_done h
        refine ⟨fun f hf => ?_, n, hn⟩
        simpa using List.find?_eq_none.mp hfind f hf

theorem of_checkLayouts {fuel : Nat} {owner : String} {fields : List Field}
    (h : checkLayouts fuel st owner fields = done none) {f : Field} (hf : f ∈ fields) :
    ∃ r, memoryLayout fuel st f.ty = done (some r) := by
  obtain ⟨l, hl, hnone⟩ := bind_eq_done (of_firstError h hf)
  cases l with
  | none => cases hnone
  | some r => exact ⟨r, hl⟩

theorem of_checkVariants {fuel : Nat} {u : String} {seen : List String} {vs : List Variant}
    (h : checkVariants fuel st u seen vs = done none) {v : Variant} (hv : v ∈ vs) :
    checkLayouts fuel st v.name v.fields = done none := by
  induction vs generalizing seen with
  | nil => cases hv
  | cons v' vs ih =>
    rw [checkVariants] at h
    split at h
    · cases h
    · cases hdup : firstDuplicate [] (v'.fields.map Field.name) with
      | some f =>
        rw [hdup] at h
        cases h
      | none =>
        rw [hdup] at h
        obtain ⟨o, ho, h⟩ := bind_eq_done h
        cases o with
        | some e => cases h
        | none =>
          rcases List.mem_cons.mp hv with rfl | hv
          · exact ho
          · exact ih h hv

theorem of_registerUnions {fuel : Nat} {seen : List String} {us : List UnionDef}
    (h : registerUnions fuel st enums seen us = done none) {u : UnionDef} (hu : u ∈ us) :
    checkVariants fuel st u.name [] u.variants = done none := by
  induction us generalizing seen with
  | nil => cases hu
  | cons u' us ih =>
    rw [registerUnions] at h
    split at h
    · cases h
    · split at h
      · cases h
      · split at h
        · cases h
        · obtain ⟨o, ho, h⟩ := bind_eq_done h
          cases o with
          | some e => cases h
          | none =>
            rcases List.mem_cons.mp hu with rfl | hu
            · exact ho
            · exact ih h hu

theorem of_checkTypes {fuel : Nat} {owner : String} {fields : List Field}
    (h : checkTypes fuel st enums owner true fields = done none) {f : Field} (hf : f ∈ fields) :
    validType fuel st enums f.ty = done true := by
  obtain ⟨ok, hok, hnone⟩ := bind_eq_done (of_firstError h hf)
  cases ok with
  | false => cases hnone
  | true => exact hok

theorem get_mem {n : String} {d : StructDef} (h : st.get n = some d) : d ∈ st.defs ∧ d.name = n :=
  ⟨List.mem_of_find?_eq_some h, by simpa using List.find?_some h⟩

theorem union_mem {n : String} {u : UnionDef} (h : st.union n = some u) :
    u ∈ st.unions ∧ u.name = n :=
  ⟨List.mem_of_find?_eq_some h, by simpa using List.find?_some h⟩

theorem isValue_iff {n : String} :
    st.isValue n = true ↔ ∃ d, st.get n = some d ∧ d.isValue = true := by
  rw [Structs.isValue]
  cases st.get n <;> simp

/-! ### Scalars and layouts that exist -/

theorem exists_mapAll {α β : Type} {f : α → Outcome β} {as : List α}
    (h : ∀ a ∈ as, ∃ b, f a = done b) : ∃ bs, mapAll f as = done bs := by
  induction as with
  | nil => exact ⟨[], rfl⟩
  | cons a as ih =>
    obtain ⟨b, hb⟩ := h a List.mem_cons_self
    obtain ⟨bs, hbs⟩ := ih fun a' ha' => h a' (List.mem_cons_of_mem _ ha')
    exact ⟨b :: bs, by rw [mapAll, hb, done_bind, hbs]; rfl⟩

/-- A value whose scalars are counted is spread over them. -/
theorem exists_scalars_of_count (hplain : PlainValues st) {st₀ : Structs} (hdefs : st₀.defs = st.defs)
    {fuel : Nat} {t : Ty} (ht : Plain t) {n : Nat} (h : countScalars fuel st₀ t = done n) :
    ∃ ts, scalars fuel st t = done ts := by
  induction fuel generalizing t n with
  | zero => cases h
  | succ fuel ih =>
    cases t with
    | union m => exact ht.elim
    | result a b => exact ht.elim
    | void => exact ht.elim
    | struct m =>
      rw [countScalars, get_of_defs hdefs] at h
      rw [scalars]
      cases hd : st.get m with
      | none => exact ⟨_, rfl⟩
      | some d =>
        rw [hd] at h
        dsimp only at h ⊢
        split at h
        · rename_i hv
          rw [if_pos hv]
          obtain ⟨ns, hns, -⟩ := bind_eq_done h
          obtain ⟨tss, htss⟩ : ∃ tss, mapAll (scalars fuel st) (d.fields.map Field.ty) = done tss :=
            exists_mapAll fun t ht => by
              obtain ⟨k, hk⟩ := exists_of_mapAll hns ht
              obtain ⟨f, hf, rfl⟩ := List.mem_map.mp ht
              exact ih (hplain m d hd hv f hf) hk
          exact ⟨tss.flatten, by rw [htss]; rfl⟩
        · rename_i hv
          rw [if_neg hv]
          exact ⟨_, rfl⟩
    | _ => exact ⟨_, rfl⟩

/-- A layout that does not need the unions' layouts exists with them, too. -/
theorem exists_layoutAt (hplain : PlainValues st) {st₀ : Structs} (hdefs : st₀.defs = st.defs)
    {fuel left : Nat} {t : Ty} (ht : Inline t ∨ ∃ n, t = .narrow n) {r : Nat × Nat}
    (h : layoutAt fuel st₀ left t = done (some r)) :
    ∃ r, layoutAt fuel st left t = done (some r) := by
  have hfields : ∀ {left : Nat} {fs : List Field} {acc r : Nat × Nat},
      (∀ f ∈ fs, ∀ r, layoutAt fuel st₀ left f.ty = done (some r) →
        ∃ r, layoutAt fuel st left f.ty = done (some r)) →
      placeFields (layoutAt fuel st₀ left) acc fs = done (some r) →
      ∀ acc', ∃ r, placeFields (layoutAt fuel st left) acc' fs = done (some r) := by
    intro left fs
    induction fs with
    | nil => exact fun _ _ acc' => ⟨acc', rfl⟩
    | cons f fs ih =>
      intro acc r hone h acc'
      rw [placeFields] at h
      obtain ⟨o, ho, h⟩ := bind_eq_done h
      cases o with
      | none => cases h
      | some sa =>
        obtain ⟨sa', hsa'⟩ := hone f List.mem_cons_self sa ho
        obtain ⟨r', hr'⟩ := ih (fun f' hf' => hone f' (List.mem_cons_of_mem _ hf')) h
          (alignUp acc'.1 sa'.2 + sa'.1, max acc'.2 sa'.2)
        refine ⟨r', ?_⟩
        rw [placeFields, hsa']
        exact hr'
  induction left generalizing t r with
  | zero =>
    cases t with
    | union n =>
      rw [layoutAt]
      cases st.layout n <;> exact ⟨_, rfl⟩
    | struct n => rw [layoutAt] at h; cases h
    | void => rw [layoutAt] at h; cases h
    | result a b => rcases ht with (⟨m, hm⟩ | hp) | ⟨m, hm⟩ <;> first | cases hm | exact hp.elim
    | _ => exact ⟨_, rfl⟩
  | succ left ih =>
    cases t with
    | union n =>
      rw [layoutAt]
      cases st.layout n <;> exact ⟨_, rfl⟩
    | struct n =>
      rw [layoutAt, get_of_defs hdefs] at h
      rw [layoutAt]
      cases hd : st.get n with
      | none =>
        rw [hd] at h
        cases h
      | some d =>
        rw [hd] at h
        dsimp only at h ⊢
        split at h
        · rename_i hv
          rw [if_pos hv]
          obtain ⟨o, ho, h⟩ := bind_eq_done h
          cases o with
          | none => cases h
          | some sa =>
            obtain ⟨sa', hsa'⟩ := hfields
              (fun f hf r hr => ih (.inl (.inr (hplain n d hd hv f hf))) hr) ho (0, 1)
            exact ⟨_, by rw [hsa']; rfl⟩
        · cases h
    | void => rw [layoutAt] at h; cases h
    | result a b => rcases ht with (⟨m, hm⟩ | hp) | ⟨m, hm⟩ <;> first | cases hm | exact hp.elim
    | _ => exact ⟨_, rfl⟩

/-- What has a memory layout is no result and not void. -/
theorem inline_of_memoryLayout {fuel : Nat} {t : Ty} {r : Nat × Nat}
    (h : memoryLayout fuel st t = done (some r)) :
    (Inline t ∨ ∃ n, t = .narrow n) ∧ layoutAt fuel st 64 t = done (some r) := by
  cases t with
  | result a b => cases h
  | void => cases h
  | union n => exact ⟨.inl (.inl ⟨n, rfl⟩), h⟩
  | narrow n => exact ⟨.inr ⟨n, rfl⟩, h⟩
  | _ => exact ⟨.inl (.inr trivial), h⟩

theorem plain_of_not_refused {t : Ty} (h : refusedField t = false) : Plain t := by
  cases t <;> simp [refusedField, Plain] at h ⊢

theorem not_valid_narrow {n : Narrow} : ¬ Valid st enums (.narrow n) := by
  rintro ⟨fuel, h⟩
  rw [validType] at h
  cases h

/-- Every check of `check_items` has passed. -/
structure Passed (fuel : Nat) (M : Module) (st : Structs) : Prop where
  register : registerStructs [] M.structs = none
  values : ∀ s ∈ M.structs, s.isValue = true →
    checkValueStruct fuel ⟨M.structs, [], []⟩ s = done none
  layouts : ∀ s ∈ M.structs, checkLayouts fuel ⟨M.structs, [], []⟩ s.name s.fields = done none
  unions : registerUnions fuel ⟨M.structs, [], []⟩ M.enums [] M.unions = done none
  new : Structs.new fuel M.structs M.unions = done st
  structTypes : ∀ s ∈ M.structs, checkTypes fuel st M.enums s.name s.isValue s.fields = done none
  unionTypes : ∀ u ∈ M.unions, ∀ v ∈ u.variants,
    checkTypes fuel st M.enums v.name true v.fields = done none
  byValue : ∀ u ∈ M.unions, (st.layout u.name).isSome

theorem checkItems_passed {fuel : Nat} {M : Module} (h : checkItems fuel M = done (.ok st)) :
    Passed fuel M st := by
  rw [checkItems] at h
  cases hreg : registerStructs [] M.structs with
  | some e =>
    rw [hreg] at h
    cases h
  | none =>
    rw [hreg] at h
    obtain ⟨o, hvalues, h⟩ := bind_eq_done h
    cases o with
    | some e => cases h
    | none =>
      obtain ⟨o, hlayouts, h⟩ := bind_eq_done h
      cases o with
      | some e => cases h
      | none =>
        obtain ⟨o, hunions, h⟩ := bind_eq_done h
        cases o with
        | some e => cases h
        | none =>
          obtain ⟨st', hnew, h⟩ := bind_eq_done h
          obtain ⟨ofStructs, hstructTypes, h⟩ := bind_eq_done h
          obtain ⟨ofUnions, hunionTypes, h⟩ := bind_eq_done h
          cases ofStructs with
          | some e => cases h
          | none =>
            cases ofUnions with
            | some e => cases h
            | none =>
              cases hfind : M.unions.find? fun u => (st'.layout u.name).isNone with
              | some u =>
                dsimp only at h
                rw [hfind] at h
                cases h
              | none =>
                dsimp only at h
                rw [hfind] at h
                injection h with h
                injection h with h
                subst h
                exact ⟨hreg, fun s hs hv => of_firstError hvalues (List.mem_filter.mpr ⟨hs, hv⟩),
                  fun s hs => of_firstError hlayouts hs, hunions, hnew,
                  fun s hs => of_firstError hstructTypes hs,
                  fun u hu v hv => of_firstError (of_firstError hunionTypes hu) hv,
                  fun u hu => by simpa [Option.isSome_iff_ne_none] using List.find?_eq_none.mp hfind u hu⟩

/-- **What the checker accepts.** -/
theorem checkItems_accepted {fuel : Nat} {M : Module} (h : checkItems fuel M = done (.ok st)) :
    Accepted st M.enums := by
  obtain ⟨hreg, hvalues, hlayouts, hunions, hnew, hstructTypes, hunionTypes, hbyValue⟩ :=
    checkItems_passed h
  obtain ⟨hdefs, hus⟩ : st.defs = M.structs ∧ st.unions = M.unions := by
    rw [Structs.new] at hnew
    obtain ⟨byValue, -, hnew⟩ := bind_eq_done hnew
    injection hnew with hnew
    rw [← hnew]
    exact ⟨rfl, rfl⟩
  have hget : ∀ n d, st.get n = some d → d ∈ M.structs ∧ d.name = n := fun n d hd =>
    hdefs ▸ get_mem hd
  have hunion : ∀ n u, st.union n = some u → u ∈ M.unions ∧ u.name = n := fun n u hu =>
    hus ▸ union_mem hu
  have hplain : PlainValues st := fun n d hd hv f hf =>
    plain_of_not_refused ((of_checkValueStruct (hvalues d (hget n d hd).1 hv)).1 f hf)
  have hvalid : ∀ n u, st.union n = some u → ∀ v ∈ u.variants, ∀ f ∈ v.fields,
      Valid st M.enums f.ty := fun n u hu v hv f hf =>
    ⟨fuel, of_checkTypes (hunionTypes u (hunion n u hu).1 v hv) hf⟩
  have hinline : ∀ n u, st.union n = some u → ∀ v ∈ u.variants, ∀ f ∈ v.fields, Inline f.ty := by
    intro n u hu v hv f hf
    obtain ⟨r, hr⟩ := of_checkLayouts (of_checkVariants (of_registerUnions hunions (hunion n u hu).1) hv) hf
    rcases (inline_of_memoryLayout hr).1 with hin | ⟨k, hk⟩
    · exact hin
    · exact absurd (hk ▸ hvalid n u hu v hv f hf) not_valid_narrow
  have hlayout : ∀ n, (st.union n).isSome → (st.layout n).isSome := by
    intro n hn
    obtain ⟨u, hu⟩ := Option.isSome_iff_exists.mp hn
    obtain ⟨hmem, rfl⟩ := hunion n u hu
    exact hbyValue u hmem
  refine ⟨fun n d hd hv f hf => ⟨hplain n d hd hv f hf, ?_⟩, fun n d hd hv => ?_, fun n d hd => ?_,
    fun n d hd f hf => ?_, fun n u hu v hv f hf => ⟨hinline n u hu v hv f hf, hvalid n u hu v hv f hf⟩,
    hlayout, fun n hn => ⟨fuel, ?_⟩⟩
  · have htypes := hstructTypes d (hget n d hd).1
    rw [hv] at htypes
    exact ⟨fuel, of_checkTypes htypes hf⟩
  · obtain ⟨k, hk⟩ := (of_checkValueStruct (hvalues d (hget n d hd).1 hv)).2
    rw [(hget n d hd).2] at hk
    exact ⟨fuel, exists_scalars_of_count hplain hdefs.symm trivial hk⟩
  · exact of_registerStructs hreg (hget n d hd).1
  · obtain ⟨r, hr⟩ := of_checkLayouts (hlayouts d (hget n d hd).1) hf
    obtain ⟨hin, hr⟩ := inline_of_memoryLayout hr
    exact ⟨fuel, exists_layoutAt hplain hdefs.symm hin hr⟩
  · refine new_laidOut hnew hplain (fun x u hu ts hts t ht => ?_) (fun x u hu m hm => ?_) hlayout n hn
    · obtain ⟨v, hv, rfl⟩ := List.mem_map.mp hts
      obtain ⟨f, hf, rfl⟩ := List.mem_map.mp ht
      exact hinline x u hu v hv f hf
    · -- a field of union type names a union
      obtain ⟨t, ht, hm⟩ := List.mem_filterMap.mp hm
      obtain ⟨ts, hts, ht⟩ := List.mem_flatten.mp ht
      obtain ⟨v, hv, rfl⟩ := List.mem_map.mp hts
      obtain ⟨f, hf, rfl⟩ := List.mem_map.mp ht
      obtain ⟨k, hk⟩ := hvalid x u hu v hv f hf
      cases hty : f.ty with
      | union m' =>
        rw [hty] at hm hk
        injection hm with hm
        rw [validType] at hk
        injection hk with hk
        exact hm ▸ hk
      | _ => rw [hty] at hm; cases hm

/-! ### The types of an accepted program -/

theorem Valid.struct {n : String} (h : Valid st enums (.struct n)) :
    ∃ d, st.get n = some d ∧ d.isValue = true := by
  obtain ⟨fuel, h⟩ := h
  rw [validType] at h
  injection h with h
  exact isValue_iff.mp h

theorem Valid.union {n : String} (h : Valid st enums (.union n)) : (st.union n).isSome := by
  obtain ⟨fuel, h⟩ := h
  rw [validType] at h
  injection h

/-- The sides of a valid result type are valid, and it is held by value. -/
theorem Valid.result {a b : Ty} (h : Valid st enums (.result a b)) :
    Valid st enums a ∧ Valid st enums b ∧
      ∃ fuel l, resultSum fuel st a b = done l ∧ l.slots.length ≤ MAX_SCALARS := by
  obtain ⟨fuel, h⟩ := h
  rw [validType] at h
  obtain ⟨oka, ha, h⟩ := bind_eq_done h
  cases oka with
  | false => cases h
  | true =>
    obtain ⟨okb, hb, h⟩ := bind_eq_done h
    cases okb with
    | false => cases h
    | true =>
      obtain ⟨l, hl, h⟩ := bind_eq_done h
      injection h with h
      exact ⟨⟨fuel, ha⟩, ⟨fuel, hb⟩, fuel, l, hl, of_decide_eq_true h⟩

/-- **The scalars of a valid type.** -/
theorem Accepted.exists_scalars (h : Accepted st enums) {t : Ty} (ht : Valid st enums t) :
    ∃ fuel ts, scalars fuel st t = done ts := by
  cases t with
  | struct n =>
    obtain ⟨d, hd, hv⟩ := ht.struct
    exact h.counted n d hd hv
  | result a b =>
    obtain ⟨-, -, fuel, l, hl, hsmall⟩ := ht.result
    refine ⟨fuel + 1, l.slots.map Kind.ty, ?_⟩
    rw [scalars, ← resultSum, hl, done_bind, if_pos hsmall]
    rfl
  | union n =>
    rcases hl : st.layout n with - | l
    · exact ⟨1, [.union n], by rw [scalars, hl]; rfl⟩
    · exact ⟨1, l.slots.map Kind.ty, by rw [scalars, hl]; rfl⟩
  | void => exact ⟨1, [], rfl⟩
  | _ => exact ⟨1, _, rfl⟩

end Aipl.Checker
