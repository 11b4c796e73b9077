import Aipl.Checker.Layout

/-! # Fuel, and the slots of a sum

What the layout functions return does not depend on the fuel they are given, nor on the unions a
type does not hold; and the slots `sum_layout` gives a variant are the variant's own.

* `scalars_mono`, `layoutAt_mono` — more fuel does not change a result.
* `scalars_plain` — the scalars of a type that holds no union or result depend on the structs only.
* `sumLayoutOf_variant` — a variant's slots are distinct, behind the tag's, and of its kinds.
* `sumLayoutOf_laid` — the slots of a sum are aligned and share no byte.
-/

namespace Aipl.Checker

open Aipl.Lib Aipl.Lib.Outcome

variable {st st' : Structs}

/-! ### Fuel -/

theorem sumLayout_mono {f g : Ty → Outcome (List Ty)} {vs : List (List Ty)} {l : SumLayout}
    (h : ∀ ts ∈ vs, ∀ t ∈ ts, ∀ r, f t = done r → g t = done r) (hf : sumLayout f vs = done l) :
    sumLayout g vs = done l := by
  rw [sumLayout] at hf ⊢
  obtain ⟨pv, hpv, hl⟩ := bind_eq_done hf
  rw [mapAll_mono (fun ts hts r hr => ?_) hpv]
  · exact hl
  · obtain ⟨rs, hrs, hr⟩ := bind_eq_done hr
    rw [mapAll_mono (h ts hts) hrs]
    exact hr

theorem scalars_mono {fuel fuel' : Nat} {t : Ty} {ts : List Ty} (h : scalars fuel st t = done ts)
    (hle : fuel ≤ fuel') : scalars fuel' st t = done ts := by
  induction fuel generalizing t ts fuel' with
  | zero => cases h
  | succ fuel ih =>
    obtain ⟨fuel', rfl⟩ : ∃ k, fuel' = k + 1 := ⟨fuel' - 1, by omega⟩
    have hle' : fuel ≤ fuel' := by omega
    cases t with
    | struct n =>
      rw [scalars] at h ⊢
      cases hd : st.get n with
      | none =>
        rw [hd] at h
        exact h
      | some d =>
        rw [hd] at h
        dsimp only at h ⊢
        split at h
        · rename_i hv
          rw [if_pos hv]
          obtain ⟨rs, hrs, hr⟩ := bind_eq_done h
          rw [mapAll_mono (fun a _ b hb => ih hb hle') hrs]
          exact hr
        · rename_i hv
          rw [if_neg hv]
          exact h
    | result a b =>
      rw [scalars] at h ⊢
      obtain ⟨l, hl, hr⟩ := bind_eq_done h
      rw [sumLayout_mono (fun ts _ t _ r hr => ih hr hle') hl]
      exact hr
    | _ => exact h

theorem resultSum_mono {fuel fuel' : Nat} {a b : Ty} {l : SumLayout}
    (h : resultSum fuel st a b = done l) (hle : fuel ≤ fuel') : resultSum fuel' st a b = done l :=
  sumLayout_mono (fun _ _ _ _ _ hr => scalars_mono hr hle) h

theorem resultLayout_mono {fuel fuel' : Nat} {a b : Ty} {l : Option SumLayout}
    (h : resultLayout fuel st a b = done l) (hle : fuel ≤ fuel') :
    resultLayout fuel' st a b = done l := by
  rw [resultLayout] at h ⊢
  obtain ⟨s, hs, h⟩ := bind_eq_done h
  rw [resultSum_mono hs hle]
  exact h

theorem placeFields_mono {f g : Ty → Outcome (Option (Nat × Nat))} {fs : List Field}
    (h : ∀ p ∈ fs, ∀ r, f p.ty = done (some r) → g p.ty = done (some r)) {acc r : Nat × Nat}
    (hf : placeFields f acc fs = done (some r)) : placeFields g acc fs = done (some r) := by
  induction fs generalizing acc with
  | nil => exact hf
  | cons p fs ih =>
    rw [placeFields] at hf ⊢
    obtain ⟨o, ho, hf⟩ := bind_eq_done hf
    cases o with
    | none => cases hf
    | some sa =>
      rw [h p List.mem_cons_self sa ho, done_bind]
      exact ih (fun q hq => h q (List.mem_cons_of_mem _ hq)) hf

/-- More fuel, and more levels of value structs, do not change a layout. -/
theorem layoutAt_mono {fuel fuel' left left' : Nat} {t : Ty} {r : Nat × Nat}
    (h : layoutAt fuel st left t = done (some r)) (hle : fuel ≤ fuel') (hleft : left ≤ left') :
    layoutAt fuel' st left' t = done (some r) := by
  induction left generalizing t r left' with
  | zero =>
    cases t with
    | struct n => rw [layoutAt] at h; cases h
    | void => rw [layoutAt] at h; cases h
    | result a b =>
      rw [layoutAt] at h ⊢
      obtain ⟨l, hl, h⟩ := bind_eq_done h
      rw [resultLayout_mono hl hle]
      exact h
    | _ => rw [layoutAt] at h ⊢; exact h
  | succ left ih =>
    obtain ⟨left', rfl⟩ : ∃ k, left' = k + 1 := ⟨left' - 1, by omega⟩
    cases t with
    | struct n =>
      rw [layoutAt] at h ⊢
      cases hd : st.get n with
      | none =>
        rw [hd] at h
        cases h
      | some d =>
        rw [hd] at h
        dsimp only at h ⊢
        split at h
        · rename_i hv
          rw [if_pos hv]
          obtain ⟨o, ho, h⟩ := bind_eq_done h
          cases o with
          | none => cases h
          | some sa =>
            rw [placeFields_mono (fun p _ r hr => ih hr (by omega)) ho]
            exact h
        · cases h
    | void => rw [layoutAt] at h; cases h
    | result a b =>
      rw [layoutAt] at h ⊢
      obtain ⟨l, hl, h⟩ := bind_eq_done h
      rw [resultLayout_mono hl hle]
      exact h
    | _ => rw [layoutAt] at h ⊢; exact h

/-! ### Types that hold no union -/

/-- A type whose scalars depend on the structs only. -/
def Plain : Ty → Prop
  | .union _ | .result _ _ | .void | .narrow _ => False
  | _ => True

/-- The fields of value structs are plain. -/
def PlainValues (st : Structs) : Prop :=
  ∀ n d, st.get n = some d → d.isValue = true → ∀ f ∈ d.fields, Plain f.ty

theorem scalars_plain (hplain : PlainValues st) (hdefs : st'.defs = st.defs) {t : Ty} (ht : Plain t)
    (fuel : Nat) : scalars fuel st' t = scalars fuel st t := by
  induction fuel generalizing t with
  | zero => rfl
  | succ fuel ih =>
    cases t with
    | union n => exact ht.elim
    | result a b => exact ht.elim
    | struct n =>
      have hget : st'.get n = st.get n := by rw [Structs.get, hdefs, Structs.get]
      rw [scalars, scalars, hget]
      cases hd : st.get n with
      | none => rfl
      | some d =>
        dsimp only
        split
        · rename_i hv
          have hmap : ∀ ts : List Ty, (∀ t ∈ ts, Plain t) →
              mapAll (scalars fuel st') ts = mapAll (scalars fuel st) ts := by
            intro ts
            induction ts with
            | nil => exact fun _ => rfl
            | cons t ts iht =>
              intro hts
              rw [mapAll, mapAll, ih (hts t List.mem_cons_self),
                iht fun t' ht' => hts t' (List.mem_cons_of_mem _ ht')]
          rw [hmap _ fun t ht => ?_]
          obtain ⟨f, hf, rfl⟩ := List.mem_map.mp ht
          exact hplain n d hd hv f hf
        · rfl
    | _ => rfl

/-! ### The slots of a sum -/

variable {pv : List (List Kind)}

theorem kinds_nodup : kinds.Nodup := by decide

theorem mem_kinds (k : Kind) : k ∈ kinds := by cases k <;> decide

theorem sumLayoutOf_slots (pv : List (List Kind)) :
    (sumLayoutOf pv).slots = (SharedSlots.slots .i32 (SharedSlots.count pv) kinds).1 := rfl

theorem sumLayoutOf_offsets (pv : List (List Kind)) :
    (sumLayoutOf pv).offsets = (place 0 ((sumLayoutOf pv).slots.map Kind.size)).1 := rfl

theorem sumLayoutOf_size (pv : List (List Kind)) :
    (sumLayoutOf pv).size =
      alignUp (place 0 ((sumLayoutOf pv).slots.map Kind.size)).2 (sumLayoutOf pv).align := rfl

/-- The tag's slot is the first. -/
theorem sumLayoutOf_tag (pv : List (List Kind)) : (sumLayoutOf pv).slots[0]? = some .i32 := by
  rw [sumLayoutOf_slots]
  exact SharedSlots.slots_head _ _ _

/-- **A variant's slots**: distinct, not the tag's, and of the kinds of its scalars. -/
theorem sumLayoutOf_variant {i : Nat} {ks : List Kind} (h : pv[i]? = some ks) :
    ∃ slots, (sumLayoutOf pv).variants[i]? = some slots ∧ slots.Nodup ∧ 0 ∉ slots ∧
      slots.map (fun s => (sumLayoutOf pv).slots[s]?) = ks.map some := by
  have hbased : ∀ k ∈ ks, SharedSlots.Based (SharedSlots.count pv)
      (SharedSlots.slots .i32 (SharedSlots.count pv) kinds).1
      (SharedSlots.slots .i32 (SharedSlots.count pv) kinds).2 k :=
    fun k _ => SharedSlots.slots_based _ _ kinds_nodup (mem_kinds k)
  have hcount : ∀ k ∈ ks, 0 + ks.count k ≤ SharedSlots.count pv k := by
    intro k _
    rw [Nat.zero_add]
    exact SharedSlots.le_count (List.mem_of_getElem? h) k
  refine ⟨SharedSlots.assign (SharedSlots.slots .i32 (SharedSlots.count pv) kinds).2
    (fun _ => 0) ks, ?_, SharedSlots.assign_nodup hbased hcount, fun hmem => ?_,
    SharedSlots.assign_getElem hbased hcount⟩
  · change (pv.map _)[i]? = _
    rw [List.getElem?_map, h]
    rfl
  · exact absurd (SharedSlots.one_le_of_mem_assign hbased hmem) (by decide)

/-- The layout of a sum of variants of the given field types. -/
theorem sumLayout_variant {f : Ty → Outcome (List Ty)} {vss : List (List Ty)} {l : SumLayout}
    (h : sumLayout f vss = done l) :
    ∃ pv : List (List Kind), l = sumLayoutOf pv ∧ ∀ (i : Nat) fields, vss[i]? = some fields →
      ∃ tss, mapAll f fields = done tss ∧ pv[i]? = some (tss.flatten.map slotKind) := by
  rw [sumLayout] at h
  obtain ⟨pv, hpv, h⟩ := bind_eq_done h
  injection h with h
  refine ⟨pv, h.symm, fun i fields hi => ?_⟩
  obtain ⟨ks, hks, hrun⟩ := mapAll_getElem hpv hi
  obtain ⟨tss, htss, hrun⟩ := bind_eq_done hrun
  injection hrun with hrun
  exact ⟨tss, htss, hrun ▸ hks⟩

theorem le_foldl_max (ns : List Nat) (a : Nat) : a ≤ ns.foldl max a ∧ ∀ n ∈ ns, n ≤ ns.foldl max a := by
  induction ns generalizing a with
  | nil => exact ⟨le_rfl, fun n hn => absurd hn List.not_mem_nil⟩
  | cons n ns ih =>
    obtain ⟨h₁, h₂⟩ := ih (max a n)
    refine ⟨(le_max_left a n).trans h₁, fun n' hn' => ?_⟩
    rcases List.mem_cons.mp hn' with rfl | hn'
    · exact (le_max_right a n').trans h₁
    · exact h₂ n' hn'

/-- A sum is aligned to 4 or 8 bytes, and each slot's size divides its alignment. -/
theorem sumLayoutOf_align (pv : List (List Kind)) :
    ((sumLayoutOf pv).align = 4 ∨ (sumLayoutOf pv).align = 8) ∧
      ∀ k ∈ (sumLayoutOf pv).slots, k.size ∣ (sumLayoutOf pv).align := by
  obtain ⟨h4, hle⟩ := le_foldl_max ((sumLayoutOf pv).slots.map Kind.size) 4
  have halign : (sumLayoutOf pv).align = ((sumLayoutOf pv).slots.map Kind.size).foldl max 4 := rfl
  have hsize : ∀ k : Kind, k.size = 4 ∨ k.size = 8 := by intro k; cases k <;> decide
  have hfold : ∀ (ks : List Kind) (a : Nat), a = 4 ∨ a = 8 →
      (ks.map Kind.size).foldl max a = 4 ∨ (ks.map Kind.size).foldl max a = 8 := by
    intro ks
    induction ks with
    | nil => exact fun a ha => ha
    | cons k ks ih =>
      intro a ha
      refine ih _ ?_
      rcases hsize k with hk | hk <;> rcases ha with rfl | rfl <;> rw [hk] <;> decide
  rw [halign]
  refine ⟨hfold _ 4 (.inl rfl), fun k hk => ?_⟩
  have hkle := hle k.size (List.mem_map_of_mem hk)
  rcases hfold (sumLayoutOf pv).slots 4 (.inl rfl) with hf | hf <;> rw [hf] at hkle ⊢ <;>
    rcases hsize k with hk | hk <;> rw [hk] at hkle ⊢ <;> first | decide | omega

/-- **The slots of a sum in memory**: aligned to their sizes, sharing no byte, inside the sum. -/
theorem sumLayoutOf_laid (pv : List (List Kind)) :
    Laid 0 ((sumLayoutOf pv).offsets.zip ((sumLayoutOf pv).slots.map Kind.size))
      (sumLayoutOf pv).size := by
  have hpos : 0 < (sumLayoutOf pv).align := by
    rcases (sumLayoutOf_align pv).1 with h | h <;> rw [h] <;> decide
  rw [sumLayoutOf_offsets, sumLayoutOf_size]
  refine (place_laid (fun s hs => ?_) 0).mono le_rfl (le_alignUp hpos)
  obtain ⟨k, -, rfl⟩ := List.mem_map.mp hs
  cases k <;> decide

theorem length_offsets (pv : List (List Kind)) :
    (sumLayoutOf pv).offsets.length = (sumLayoutOf pv).slots.length := by
  rw [sumLayoutOf_offsets, length_place, List.length_map]

end Aipl.Checker
