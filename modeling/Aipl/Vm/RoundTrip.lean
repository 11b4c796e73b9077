import Aipl.Checker.Accepted
import Aipl.Vm.Scalars

/-! # Values are built again from their scalars

* `HasTypes` — values of given types.
* `spread_sum` — what is spread over the slots of a variant is read back from them, with the tag.
* `HasTypes.trips` — every value of a valid type is built again from its scalars.
-/

namespace Aipl.Vm

open Aipl.Lib Aipl.Lib.Outcome Aipl.Checker

/-! ### Values of a type -/

/-- A value that is one scalar. -/
inductive IsScalar : Ty → Value → Prop where
  | i32 (i : Int) : IsScalar .i32 (.int i)
  | i64 (i : Int) : IsScalar .i64 (.int64 i)
  | f32 (b : BitVec 32) : IsScalar .f32 (.float32 b)
  | f64 (b : BitVec 64) : IsScalar .f64 (.float b)
  | bool (b : Bool) : IsScalar .bool (.bool b)
  | str (s : String) : IsScalar .str (.str s)
  | ptr (t : Ty) (i : Int) : IsScalar (.ptr t) (.int64 i)
  | array (t : Ty) (i : Int) : IsScalar (.array t) (.int64 i)
  | fn (ps : List Ty) (r : Ty) (noLeak : Bool) (i : Int) : IsScalar (.fn ps r noLeak) (.int i)
  | enum (n : String) (i : Int) : IsScalar (.enum n) (.int i)

/-- Values of the given types, one each.  `void` has none. -/
inductive HasTypes (st : Structs) : List Ty → List Value → Prop where
  | nil : HasTypes st [] []
  | scalar {t v ts vs} (hv : IsScalar t v) (rest : HasTypes st ts vs) : HasTypes st (t :: ts) (v :: vs)
  | record {n d xs ts vs} (hd : st.get n = some d) (hvalue : d.isValue = true)
      (fields : HasTypes st (d.fields.map Field.ty) xs) (rest : HasTypes st ts vs) :
      HasTypes st (.struct n :: ts) (.record xs :: vs)
  | union {n u tag var xs ts vs} (hu : st.union n = some u) (hvar : u.variants[tag]? = some var)
      (fields : HasTypes st (var.fields.map Field.ty) xs) (rest : HasTypes st ts vs) :
      HasTypes st (.union n :: ts) (.union tag xs :: vs)
  | ok {a b x ts vs} (hx : HasTypes st [a] [x]) (rest : HasTypes st ts vs) :
      HasTypes st (.result a b :: ts) (.ok x :: vs)
  | err {a b x ts vs} (hx : HasTypes st [b] [x]) (rest : HasTypes st ts vs) :
      HasTypes st (.result a b :: ts) (.err x :: vs)

/-- A value of type `t`. -/
def HasType (st : Structs) (t : Ty) (v : Value) : Prop := HasTypes st [t] [v]

/-! ### One value -/

variable {st : Structs} {enums : List String}

/-- `v` is spread over the scalars `s`, of types `ts`, and built again from them, whatever the fuel
from `k` on. -/
structure Trips (st : Structs) (t : Ty) (v : Value) (k : Nat) (s : List Value) (ts : List Ty) :
    Prop where
  spread : ∀ fuel ≥ k, toScalars fuel st t v = done s
  rebuild : ∀ fuel ≥ k, fromScalars fuel st t s = done v
  scalars : ∀ fuel ≥ k, scalars fuel st t = done ts
  length : s.length = ts.length

theorem Trips.succ {t : Ty} {v : Value} {k : Nat} {s : List Value} {ts : List Ty}
    (hspread : ∀ fuel ≥ k, toScalars (fuel + 1) st t v = done s)
    (hrebuild : ∀ fuel ≥ k, fromScalars (fuel + 1) st t s = done v)
    (hscalars : ∀ fuel ≥ k, Checker.scalars (fuel + 1) st t = done ts) (hlength : s.length = ts.length) :
    Trips st t v (k + 1) s ts := by
  have hsucc : ∀ {P : Nat → Prop}, (∀ fuel ≥ k, P (fuel + 1)) → ∀ fuel ≥ k + 1, P fuel := by
    intro P h fuel hfuel
    obtain ⟨f, rfl⟩ : ∃ f, fuel = f + 1 := ⟨fuel - 1, by omega⟩
    exact h f (by omega)
  exact ⟨hsucc hspread, hsucc hrebuild, hsucc hscalars, hlength⟩

theorem IsScalar.trips {t : Ty} {v : Value} (h : IsScalar t v) : Trips st t v 1 [v] [t] := by
  cases h <;> exact .succ (fun _ _ => rfl) (fun _ _ => rfl) (fun _ _ => rfl) rfl

/-! ### Fields -/

/-- Fields are spread one after the other, and each is built from its part of the scalars. -/
theorem fields_trip {ts : List Ty} {vs : List Value}
    (h : List.Forall₂ (fun t v => ∃ k s kts, Trips st t v k s kts) ts vs) :
    ∃ k ss tss, (∀ fuel ≥ k, fieldsTo (toScalars fuel st) ts vs = done ss) ∧
      (∀ fuel ≥ k, mapAll (scalars fuel st) ts = done tss) ∧ ss.length = tss.flatten.length ∧
      ∀ fuel ≥ k, ∀ (mine : Nat → Nat → Outcome (List Value)) (at_ : Nat),
        (∀ i w, i + w ≤ ss.length → mine (at_ + i) w = done ((ss.drop i).take w)) →
        fieldsFrom (width fuel st) (fromScalars fuel st) mine at_ ts = done vs := by
  induction h with
  | nil => exact ⟨0, [], [], fun _ _ => rfl, fun _ _ => rfl, rfl, fun _ _ _ _ _ => rfl⟩
  | @cons t v ts vs hhead _ ih =>
    obtain ⟨k₁, s, kts, htrip⟩ := hhead
    obtain ⟨k₂, ss, tss, hto, hscalars, hlen, hfrom⟩ := ih
    refine ⟨max k₁ k₂, s ++ ss, kts :: tss, fun fuel hfuel => ?_, fun fuel hfuel => ?_, ?_,
      fun fuel hfuel mine at_ hmine => ?_⟩
    · have hrest := hto fuel (by omega)
      rw [fieldsTo] at hrest ⊢
      obtain ⟨sss, hsss, hrest⟩ := bind_eq_done hrest
      injection hrest with hrest
      rw [List.zip_cons_cons, mapAll, htrip.spread fuel (by omega), done_bind, hsss, ← hrest]
      rfl
    · rw [mapAll, htrip.scalars fuel (by omega), done_bind, hscalars fuel (by omega)]
      rfl
    · rw [List.length_append, List.flatten_cons, List.length_append, htrip.length, hlen]
    · have hwidth : width fuel st t = done s.length := by
        rw [width, htrip.scalars fuel (by omega), htrip.length]
        rfl
      have hmine₀ : mine at_ s.length = done s := by
        have h₀ := hmine 0 s.length (by simp)
        rwa [List.drop_zero, List.take_left, Nat.add_zero] at h₀
      have hrest : fieldsFrom (width fuel st) (fromScalars fuel st) mine (at_ + s.length) ts
          = done vs := by
        refine hfrom fuel (by omega) mine _ fun i w hi => ?_
        rw [Nat.add_assoc, hmine (s.length + i) w (by rw [List.length_append]; omega),
          ← List.drop_drop, List.drop_left]
      rw [fieldsFrom, hwidth, done_bind, hmine₀, done_bind, htrip.rebuild fuel (by omega), done_bind,
        hrest]
      rfl

/-! ### Sums -/

/-- **What is spread over the slots of a variant is read back**, and so is the tag. -/
theorem spread_sum {pv : List (List Kind)} {tag : Nat} {ks : List Kind} (inner : List Value)
    (hks : pv[tag]? = some ks) (hlen : inner.length = ks.length) :
    ∃ slots out, (sumLayoutOf pv).variants[tag]? = some slots ∧ slots.length = inner.length ∧
      spread (sumLayoutOf pv) tag inner = done out ∧ out.length = (sumLayoutOf pv).slots.length ∧
      tagOf out = done tag ∧ SharedSlots.gather out slots = done inner := by
  obtain ⟨slots, hslots, hnodup, hzero, hkinds⟩ := sumLayoutOf_variant hks
  have hslotsLen : slots.length = inner.length := by
    have := congrArg List.length hkinds
    rw [List.length_map, List.length_map] at this
    rw [this, hlen]
  have hpos : 0 < (sumLayoutOf pv).slots.length :=
    (List.getElem?_eq_some_iff.mp (sumLayoutOf_tag pv)).1
  refine ⟨slots, _, hslots, hslotsLen, by rw [spread, hslots]; rfl, ?_, ?_, ?_⟩
  · rw [SharedSlots.length_scatter, List.length_set, List.length_map]
  · -- the tag's slot is none of the variant's
    rw [tagOf, SharedSlots.getElem_scatter_of_not_mem hzero,
      List.getElem?_set_self (by rw [List.length_map]; exact hpos)]
    rfl
  · refine SharedSlots.gather_scatter hnodup (fun s hs => ?_) hslotsLen
    rw [List.length_set, List.length_map]
    have hmem : (sumLayoutOf pv).slots[s]? ∈ ks.map some :=
      hkinds ▸ List.mem_map_of_mem (f := fun s => (sumLayoutOf pv).slots[s]?) hs
    obtain ⟨k, -, hk⟩ := List.mem_map.mp hmem
    exact (List.getElem?_eq_some_iff.mp hk.symm).1

theorem mapAll_scalars_unique {k k' : Nat} {ts : List Ty} {tss tss' : List (List Ty)}
    (h : mapAll (scalars k st) ts = done tss) (h' : mapAll (scalars k' st) ts = done tss') :
    tss = tss' := by
  have h₁ := mapAll_mono (fun _ _ _ hr => scalars_mono hr (le_max_left k k')) h
  have h₂ := mapAll_mono (fun _ _ _ hr => scalars_mono hr (le_max_right k k')) h'
  rw [h₁] at h₂
  injection h₂

theorem trips_union (h : Accepted st enums) {n : String} {u : UnionDef} {tag : Nat} {var : Variant}
    {xs : List Value} (hu : st.union n = some u) (hvar : u.variants[tag]? = some var)
    (hfields : List.Forall₂ (fun t v => ∃ k s kts, Trips st t v k s kts)
      (var.fields.map Field.ty) xs) :
    ∃ k s kts, Trips st (.union n) (.union tag xs) k s kts := by
  obtain ⟨k, ss, tss, hto, hscalars, hlen, hfrom⟩ := fields_trip hfields
  obtain ⟨fuel₀, u', l, hu', -, hsum, hl⟩ := h.laidOut n (h.layout n (by rw [hu]; rfl))
  obtain rfl : u = u' := Option.some.inj (hu.symm.trans hu')
  obtain ⟨pv, rfl, hpv⟩ := sumLayout_variant hsum
  obtain ⟨tss', htss', hks⟩ := hpv tag (var.fields.map Field.ty) (by
    rw [UnionDef.fieldTypes, List.getElem?_map, hvar]
    rfl)
  obtain rfl := mapAll_scalars_unique (hscalars k le_rfl) htss'
  obtain ⟨slots, out, hslots, hslotsLen, hspread, houtLen, htag, hgather⟩ :=
    spread_sum ss hks (by rw [List.length_map, hlen])
  refine ⟨k + 1, out, (sumLayoutOf pv).slots.map Kind.ty, .succ (fun fuel hfuel => ?_)
    (fun fuel hfuel => ?_) (fun fuel _ => ?_) (by rw [houtLen, List.length_map])⟩
  · rw [toScalars, hl]
    dsimp only
    rw [hu, ofOption, done_bind, hvar, ofOption, done_bind, hto fuel hfuel, done_bind]
    exact hspread
  · rw [fromScalars, hl]
    dsimp only
    rw [htag, done_bind, hu, ofOption, done_bind, hvar, ofOption, done_bind, hslots, ofOption,
      done_bind, hfrom fuel hfuel _ 0 fun i w hi => ?_]
    · rfl
    · rw [Nat.zero_add, slice, if_pos (by rw [hslotsLen]; exact hi), done_bind]
      exact SharedSlots.gather_drop_take hgather i w
  · rw [scalars, hl]
    rfl

/-- A result, `x` of type `t` being its `tag`-th side. -/
theorem trips_result {a b t : Ty} {tag : Nat} {v x : Value} (htag : [[a], [b]][tag]? = some [t])
    (hvalid : Valid st enums (.result a b)) (hx : ∃ k s kts, Trips st t x k s kts)
    (hto : ∀ fuel l s, resultLayout fuel st a b = done (some l) → toScalars fuel st t x = done s →
      toScalars (fuel + 1) st (.result a b) v = spread l tag s)
    (hfrom : ∀ fuel l slots out s, resultLayout fuel st a b = done (some l) →
      l.variants[tag]? = some slots → tagOf out = done tag → SharedSlots.gather out slots = done s →
      fromScalars fuel st t s = done x → fromScalars (fuel + 1) st (.result a b) out = done v) :
    ∃ k s kts, Trips st (.result a b) v k s kts := by
  obtain ⟨-, -, k₀, l, hl, hsmall⟩ := hvalid.result
  obtain ⟨k, s, kts, htrip⟩ := hx
  have hlayout : ∀ fuel ≥ max k k₀, resultLayout fuel st a b = done (some l) := by
    intro fuel hfuel
    rw [resultLayout, resultSum_mono hl (by omega), done_bind, if_pos hsmall]
    rfl
  obtain ⟨pv, rfl, hpv⟩ := sumLayout_variant hl
  obtain ⟨tss, htss, hks⟩ := hpv tag [t] htag
  have hk : mapAll (scalars k st) [t] = done [kts] := by
    rw [mapAll, htrip.scalars k le_rfl]
    rfl
  obtain rfl := mapAll_scalars_unique hk htss
  obtain ⟨slots, out, hslots, -, hspread, houtLen, htagOf, hgather⟩ :=
    spread_sum s hks (by rw [List.length_map, htrip.length]; simp)
  refine ⟨max k k₀ + 1, out, (sumLayoutOf pv).slots.map Kind.ty, .succ (fun fuel hfuel => ?_)
    (fun fuel hfuel => ?_) (fun fuel hfuel => ?_) (by rw [houtLen, List.length_map])⟩
  · rw [hto fuel _ s (hlayout fuel hfuel) (htrip.spread fuel (by omega)), hspread]
  · exact hfrom fuel _ slots out s (hlayout fuel hfuel) hslots htagOf hgather
      (htrip.rebuild fuel (by omega))
  · rw [scalars, ← resultSum, resultSum_mono hl (by omega), done_bind, if_pos hsmall]
    rfl

/-! ### Every value -/

/-- **Every value of a valid type is built again from its scalars.** -/
theorem HasTypes.trips (h : Accepted st enums) {ts : List Ty} {vs : List Value}
    (hv : HasTypes st ts vs) (hvalid : ∀ t ∈ ts, Valid st enums t) :
    List.Forall₂ (fun t v => ∃ k s kts, Trips st t v k s kts) ts vs := by
  induction hv with
  | nil => exact .nil
  | scalar hx rest ih =>
    exact .cons ⟨_, _, _, hx.trips⟩ (ih fun t ht => hvalid t (List.mem_cons_of_mem _ ht))
  | @record n d xs ts vs hd hvalue fields rest ihfields ih =>
    refine .cons ?_ (ih fun t ht => hvalid t (List.mem_cons_of_mem _ ht))
    obtain ⟨k, ss, tss, hto, hscalars, hlen, hfrom⟩ := fields_trip (ihfields fun t ht => by
      obtain ⟨f, hf, rfl⟩ := List.mem_map.mp ht
      exact (h.value n d hd hvalue f hf).2)
    refine ⟨k + 1, ss, tss.flatten, .succ (fun fuel hfuel => ?_) (fun fuel hfuel => ?_)
      (fun fuel hfuel => ?_) hlen⟩
    · rw [toScalars, hd]
      dsimp only
      rw [if_pos hvalue, hto fuel hfuel]
    · rw [fromScalars, hd]
      dsimp only
      rw [if_pos hvalue, hfrom fuel hfuel (slice ss) 0 fun i w hi => ?_]
      · rfl
      · rw [Nat.zero_add, slice, if_pos hi]
    · rw [scalars, hd]
      dsimp only
      rw [if_pos hvalue, hscalars fuel hfuel]
      rfl
  | @union n u tag var xs ts vs hu hvar fields rest ihfields ih =>
    refine .cons ?_ (ih fun t ht => hvalid t (List.mem_cons_of_mem _ ht))
    refine trips_union h hu hvar (ihfields fun t ht => ?_)
    obtain ⟨f, hf, rfl⟩ := List.mem_map.mp ht
    exact (h.variant n u hu var (List.mem_of_getElem? hvar) f hf).2
  | @ok a b x ts vs hx rest ihx ih =>
    refine .cons ?_ (ih fun t ht => hvalid t (List.mem_cons_of_mem _ ht))
    have hresult := hvalid _ List.mem_cons_self
    have hone := ihx fun t ht => List.mem_singleton.mp ht ▸ hresult.result.1
    have htag : [[a], [b]][0]? = some [a] := rfl
    refine trips_result htag hresult (List.forall₂_cons.mp hone).1 ?_ ?_
    · intro fuel l s hl hs
      rw [toScalars, hl, done_bind]
      dsimp only
      rw [hs, done_bind]
    · intro fuel l slots out s hl hslots htag hgather hx
      rw [fromScalars, hl, done_bind]
      dsimp only
      rw [htag, done_bind, hslots, ofOption, done_bind, hgather, done_bind, if_pos rfl, hx]
      rfl
  | @err a b x ts vs hx rest ihx ih =>
    refine .cons ?_ (ih fun t ht => hvalid t (List.mem_cons_of_mem _ ht))
    have hresult := hvalid _ List.mem_cons_self
    have hone := ihx fun t ht => List.mem_singleton.mp ht ▸ hresult.result.2.1
    have htag : [[a], [b]][1]? = some [b] := rfl
    refine trips_result htag hresult (List.forall₂_cons.mp hone).1 ?_ ?_
    · intro fuel l s hl hs
      rw [toScalars, hl, done_bind]
      dsimp only
      rw [hs, done_bind]
    · intro fuel l slots out s hl hslots htag hgather hx
      rw [fromScalars, hl, done_bind]
      dsimp only
      rw [htag, done_bind, hslots, ofOption, done_bind, hgather, done_bind, if_neg (by decide), hx]
      rfl

end Aipl.Vm
