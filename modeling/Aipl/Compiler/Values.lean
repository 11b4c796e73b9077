import Aipl.Compiler.Flat
import Aipl.Vm.RoundTrip

/-! # Value layouts

What the checker's layouts, the interpreter's scalars and the compiler's offsets come to for an
accepted program, in one statement.

* `accepted_layouts` — values round-trip through their scalars, the slots of a variant are its own, and
  scalars in memory are aligned and apart.
* `scalars_fixed` — the scalars of a type are found, and each of its values has as many.
-/

namespace Aipl.Compiler

open Aipl.Lib Aipl.Lib.Outcome Aipl.Checker Aipl.Vm

/-- The slots of each variant of a sum, `variants` giving the field types: distinct, not the tag's, and
each of the kind its scalar needs. -/
def VariantSlots (fuel : Nat) (st : Structs) (l : SumLayout) (variants : List (List Ty)) : Prop :=
  l.slots[0]? = some .i32 ∧ ∀ (i : Nat) fields, variants[i]? = some fields →
    ∃ (slots : List Nat) (tss : List (List Ty)), l.variants[i]? = some slots ∧ mapAll (scalars fuel st) fields = done tss ∧
      slots.Nodup ∧ 0 ∉ slots ∧
      slots.map (fun s => l.slots[s]?) = tss.flatten.map fun t => some (slotKind t)

theorem variantSlots {fuel : Nat} {st : Structs} {l : SumLayout} {variants : List (List Ty)}
    (h : sumLayout (scalars fuel st) variants = done l) : VariantSlots fuel st l variants := by
  obtain ⟨pv, rfl, hpv⟩ := sumLayout_variant h
  refine ⟨sumLayoutOf_tag pv, fun i fields hi => ?_⟩
  obtain ⟨tss, htss, hks⟩ := hpv i fields hi
  obtain ⟨slots, hslots, hnodup, hzero, hkinds⟩ := sumLayoutOf_variant hks
  refine ⟨slots, tss, hslots, htss, hnodup, hzero, ?_⟩
  rw [hkinds, List.map_map]
  rfl

/-- **Value layouts of an accepted program.** -/
theorem accepted_layouts {fuel : Nat} {M : Module} {st : Structs}
    (h : checkItems fuel M = done (.ok st)) :
    -- every value is built again from its scalars
    (∀ t v, Valid st M.enums t → HasType st t v →
      ∃ k s, ∀ fuel ≥ k, toScalars fuel st t v = done s ∧ fromScalars fuel st t s = done v) ∧
    -- the slots of unions and results
    (∀ n u, st.union n = some u →
      ∃ k l, st.layout n = some l ∧ VariantSlots k st l u.fieldTypes) ∧
    (∀ a b, Valid st M.enums (.result a b) →
      ∃ k l, resultLayout k st a b = done (some l) ∧ VariantSlots k st l [[a], [b]]) ∧
    -- the scalars of a value in memory, and those of a struct's fields
    (∀ t k r, typeSizeAndAlign k st t = done (some r) →
      ∃ items, Flattens st t items ∧ Placed items r) ∧
    (∀ n d, st.get n = some d →
      ∃ k outs size, (∀ fuel ≥ k, mapAll (fieldItems fuel st d) d.fields = done outs) ∧
        Laid 0 (extents outs.flatten) size) := by
  have hacc := checkItems_accepted h
  refine ⟨fun t v ht hv => ?_, fun n u hu => ?_, fun a b hab => ?_, fun t k r hr => ?_,
    fun n d hd => fields_laid hacc hd⟩
  · have htrips := HasTypes.trips hacc hv fun t' ht' => List.mem_singleton.mp ht' ▸ ht
    obtain ⟨⟨k, s, kts, htrip⟩, -⟩ := List.forall₂_cons.mp htrips
    exact ⟨k, s, fun fuel hfuel => ⟨htrip.spread fuel hfuel, htrip.rebuild fuel hfuel⟩⟩
  · obtain ⟨k, u', l, hu', -, hsum, hl⟩ := hacc.laidOut n (hacc.layout n (by rw [hu]; rfl))
    obtain rfl : u = u' := Option.some.inj (hu.symm.trans hu')
    exact ⟨k, l, hl, variantSlots hsum⟩
  · obtain ⟨-, -, k, l, hl, hsmall⟩ := hab.result
    refine ⟨k, l, ?_, variantSlots hl⟩
    rw [resultLayout, hl, done_bind, if_pos hsmall]
    rfl
  · exact flat_laid hacc le_rfl hr

/-- A program with a value struct, a union of it and of its scalars, and a result of that union. -/
def shapes : Module where
  enums := []
  structs := [⟨"Pt", [⟨"x", .f32⟩, ⟨"y", .i64⟩], true⟩]
  unions := [⟨"Shape", [⟨"dot", [⟨"at", .struct "Pt"⟩]⟩, ⟨"size", [⟨"w", .i64⟩, ⟨"ok", .bool⟩]⟩]⟩]

/-- Its layouts: the two variants share the slot of their `i64`. -/
def shapesStructs : Structs where
  defs := shapes.structs
  unions := shapes.unions
  byValue := [("Shape",
    { slots := [.i32, .i32, .f32, .i64], offsets := [0, 4, 8, 16], size := 24, align := 8,
      variants := [[2, 3], [3, 1]] })]

theorem checkItems_shapes : checkItems 20 shapes = done (.ok shapesStructs) := rfl

theorem accepted_layouts_shapes :
    ∃ k s, ∀ fuel ≥ k,
      toScalars fuel shapesStructs (.result (.union "Shape") .i32)
          (.ok (.union 1 [.int64 7, .bool true])) = done s ∧
        fromScalars fuel shapesStructs (.result (.union "Shape") .i32) s
          = done (.ok (.union 1 [.int64 7, .bool true])) := by
  refine (accepted_layouts checkItems_shapes).1 _ _ ⟨20, rfl⟩ (.ok (.union rfl rfl ?_ .nil) .nil)
  exact .scalar (.i64 7) (.scalar (.bool true) .nil)

/-- **A type's scalars are its own.**  In an accepted program the scalars of a valid type are found, and every value of the
type is spread over as many. -/
theorem scalars_fixed {fuel : Nat} {M : Module} {st : Structs} (h : checkItems fuel M = done (.ok st)) {t : Ty}
    (ht : Valid st M.enums t) :
    ∃ k ts, (∀ fuel ≥ k, scalars fuel st t = done ts) ∧
      ∀ v, HasType st t v → ∃ k' s, (∀ fuel ≥ k', toScalars fuel st t v = done s) ∧ s.length = ts.length := by
  have hacc := checkItems_accepted h
  obtain ⟨k, ts, hts⟩ := hacc.exists_scalars ht
  refine ⟨k, ts, fun fuel hfuel => scalars_mono hts hfuel, fun v hv => ?_⟩
  have htrips := HasTypes.trips hacc hv fun t' ht' => List.mem_singleton.mp ht' ▸ ht
  obtain ⟨⟨k', s, kts, htrip⟩, -⟩ := List.forall₂_cons.mp htrips
  have hkts := htrip.scalars (max k k') (le_max_right k k')
  rw [scalars_mono hts (le_max_left k k')] at hkts
  cases hkts
  exact ⟨k', s, htrip.spread, htrip.length⟩

theorem scalars_fixed_shapes : ∃ k ts, (∀ fuel ≥ k, scalars fuel shapesStructs (.result (.union "Shape") .i32) = done ts) ∧
    ∀ v, HasType shapesStructs (.result (.union "Shape") .i32) v →
      ∃ k' s, (∀ fuel ≥ k', toScalars fuel shapesStructs (.result (.union "Shape") .i32) v = done s) ∧ s.length = ts.length :=
  scalars_fixed checkItems_shapes ⟨20, rfl⟩

end Aipl.Compiler
