import Aipl.Std.Par.Model

/-! # The parts of a parallel run

* `ranges_eq` — the parts' indices, one part after the other, are all the indices in order.
* `prepare_endsOr` — what comes before the threads: each part has its indices and a copy of the input.
-/

namespace Aipl.StdPar

open Aipl.Lib Aipl.Lib.Outcome Aipl.Lib.ForkJoin Aipl.Std

/-! ### Cuts -/

/-- Where part `k` of `p` begins. -/
def cut (n p k : Nat) : Nat := k * (n / p) + min k (n % p)

theorem cut_zero (n p : Nat) : cut n p 0 = 0 := by rw [cut, Nat.zero_mul, Nat.zero_min]

theorem cut_succ (n p k : Nat) : cut n p (k + 1) = cut n p k + (n / p + if k < n % p then 1 else 0) := by
  rw [cut, cut, Nat.succ_mul]
  split <;> omega

theorem cut_last {n p : Nat} (hp : 0 < p) : cut n p p = n := by
  rw [cut, Nat.min_eq_right (Nat.mod_lt n hp).le]
  exact Nat.div_add_mod n p

theorem cut_le_succ (n p k : Nat) : cut n p k ≤ cut n p (k + 1) := by
  rw [cut_succ]
  exact Nat.le_add_right _ _

theorem cut_le {n p k : Nat} (hp : 0 < p) (hk : k ≤ p) : cut n p k ≤ n := by
  have hmono : Monotone (cut n p) := monotone_nat_of_le_succ (cut_le_succ n p)
  have hle := hmono hk
  rwa [cut_last hp] at hle

/-- The parts, one after the other. -/
theorem cuts_eq (n p : Nat) (f : Nat → Nat × Nat) : ∀ m, (∀ k < m, f k = (cut n p k, cut n p (k + 1))) →
    (List.range m).flatMap (fun k => List.range' (f k).1 ((f k).2 - (f k).1)) = List.range (cut n p m)
  | 0, _ => by
      rw [cut_zero]
      rfl
  | m + 1, h => by
      have hle := cut_le_succ n p m
      rw [List.range_succ, List.flatMap_append, cuts_eq n p f m fun k hk => h k (Nat.lt_succ_of_lt hk), List.flatMap_singleton,
        h m (Nat.lt_succ_self m), List.range_eq_range', List.range_eq_range']
      have happend : List.range' 0 (cut n p m) ++ List.range' (0 + cut n p m) (cut n p (m + 1) - cut n p m) =
          List.range' 0 (cut n p m + (cut n p (m + 1) - cut n p m)) := List.range'_append_1
      rwa [Nat.zero_add, Nat.add_sub_cancel' hle] at happend

/-! ### Words -/

variable {n threads : BitVec 32}

/-- At least one part, and at most one for each index. -/
theorem partsOf_spec (threads : BitVec 32) (hn : n.toNat < 2 ^ 31) : 0 < (partsOf n threads).toNat ∧ (partsOf n threads).toNat < 2 ^ 31 ∧
    ((partsOf n threads).toNat ≤ n.toNat ∨ (partsOf n threads).toNat = 1) := by
  have hone : (1#32).toNat = 1 := rfl
  rw [partsOf]
  split
  · rw [hone]
    omega
  · rename_i h
    rw [not_or, BitVec.slt_eq_decide, decide_eq_true_eq, not_lt] at h
    obtain ⟨hpos, hne⟩ := h
    have hpos' : (1 : Int) ≤ threads.toInt := hpos
    obtain ⟨hthreads, hlt⟩ := toInt_of_nonneg (x := threads) (by omega)
    have hne' : n.toNat ≠ 0 := fun h0 => hne (BitVec.eq_of_toNat_eq h0)
    split
    · exact ⟨by omega, hn, .inl le_rfl⟩
    · rename_i hslt
      rw [slt_iff hn hlt] at hslt
      exact ⟨by omega, hlt, .inl (by omega)⟩

variable {parts : BitVec 32} {k : Nat}

theorem toNat_lo (hn : n.toNat < 2 ^ 31) (hp : 0 < parts.toNat) (hp' : parts.toNat < 2 ^ 31) (hk : k < parts.toNat) :
    (lo n parts (BitVec.ofNat 32 k)).toNat = cut n.toNat parts.toNat k := by
  have hle := cut_le (n := n.toNat) hp hk.le
  have hk' : (BitVec.ofNat 32 k).toNat = k := toNat_ofNat_of_lt (by omega)
  have hmod := Nat.mod_lt n.toNat hp
  have hextra : (n.srem parts).toNat = n.toNat % parts.toNat := toNat_srem hn hp'
  have hmul : (BitVec.ofNat 32 k * n.sdiv parts).toNat = k * (n.toNat / parts.toNat) := by
    rw [cut] at hle
    rw [BitVec.toNat_mul, hk', toNat_sdiv hn hp', Nat.mod_eq_of_lt (by omega)]
  have hslt : (BitVec.ofNat 32 k).slt (n.srem parts) = true ↔ k < n.toNat % parts.toNat := by
    rw [slt_iff (by omega) (by omega), hk', hextra]
  have hmin : (if (BitVec.ofNat 32 k).slt (n.srem parts) then BitVec.ofNat 32 k else n.srem parts).toNat =
      min k (n.toNat % parts.toNat) := by
    by_cases h : k < n.toNat % parts.toNat
    · rw [if_pos (hslt.mpr h), hk', Nat.min_eq_left h.le]
    · rw [if_neg (mt hslt.mp h), hextra, Nat.min_eq_right (Nat.le_of_not_lt h)]
  rw [cut] at hle ⊢
  rw [lo, toNat_add_of_lt (by rw [hmul, hmin]; omega), hmul, hmin]

theorem toNat_hi (hn : n.toNat < 2 ^ 31) (hp : 0 < parts.toNat) (hp' : parts.toNat < 2 ^ 31) (hk : k < parts.toNat) :
    (hi n parts (BitVec.ofNat 32 k)).toNat = cut n.toNat parts.toNat (k + 1) := by
  have hle := cut_le (n := n.toNat) hp (Nat.succ_le_of_lt hk)
  have hk' : (BitVec.ofNat 32 k).toNat = k := toNat_ofNat_of_lt (by omega)
  have hmod := Nat.mod_lt n.toNat hp
  have hextra : (n.srem parts).toNat = n.toNat % parts.toNat := toNat_srem hn hp'
  have hbase : (n.sdiv parts).toNat = n.toNat / parts.toNat := toNat_sdiv hn hp'
  have hslt : (BitVec.ofNat 32 k).slt (n.srem parts) = true ↔ k < n.toNat % parts.toNat := by
    rw [slt_iff (by omega) (by omega), hk', hextra]
  have hone : (if (BitVec.ofNat 32 k).slt (n.srem parts) then 1#32 else 0#32).toNat =
      if k < n.toNat % parts.toNat then 1 else 0 := by
    by_cases h : k < n.toNat % parts.toNat
    · rw [if_pos (hslt.mpr h), if_pos h]
      rfl
    · rw [if_neg (mt hslt.mp h), if_neg h]
      rfl
  rw [Nat.succ_eq_add_one, cut_succ] at hle
  have hsum : (n.sdiv parts + if (BitVec.ofNat 32 k).slt (n.srem parts) then 1#32 else 0#32).toNat =
      n.toNat / parts.toNat + if k < n.toNat % parts.toNat then 1 else 0 := by
    rw [toNat_add_of_lt (by rw [hbase, hone]; omega), hbase, hone]
  rw [hi, cut_succ, toNat_add_of_lt (by rw [toNat_lo hn hp hp' hk, hsum]; omega), toNat_lo hn hp hp' hk, hsum]

/-- The indices of part `k`. -/
def indices (n parts : BitVec 32) (k : Nat) : List Nat :=
  List.range' (lo n parts (BitVec.ofNat 32 k)).toNat
    ((hi n parts (BitVec.ofNat 32 k)).toNat - (lo n parts (BitVec.ofNat 32 k)).toNat)

/-- **The parts' indices**, one part after the other, are all the indices in order. -/
theorem ranges_eq (threads : BitVec 32) (hn : n.toNat < 2 ^ 31) :
    (List.range (partsOf n threads).toNat).flatMap (indices n (partsOf n threads)) = List.range n.toNat := by
  obtain ⟨hp, hp', -⟩ := partsOf_spec threads hn
  have hcuts := cuts_eq n.toNat (partsOf n threads).toNat
    (fun k => ((lo n (partsOf n threads) (BitVec.ofNat 32 k)).toNat, (hi n (partsOf n threads) (BitVec.ofNat 32 k)).toNat))
    (partsOf n threads).toNat fun k hk => by rw [toNat_lo hn hp hp' hk, toNat_hi hn hp hp' hk]
  rw [cut_last hp] at hcuts
  exact hcuts

/-! ### Before and after the threads -/

variable {σ T : Type} {H : Host σ} {sizes : Sizes} {t : ElemType T} {xs : List T}

/-- There is memory and there are threads for `parts` parts. -/
structure Enough (H : Host σ) (sizes : Sizes) (t : ElemType T) (xs : List T) (parts : BitVec 32) : Prop where
  plentiful : Plentiful H.toAllocator
  start : ∀ a, (H.start a).isSome
  part : (0#32).slt (sizes.part + 8#32) = true
  spawned : (0#32).slt (sizes.spawned + 8#32) = true
  size : 0 ≤ t.size.toInt
  copy : xs.length * t.size.toInt + 8 < 2 ^ 31
  records : parts.toNat * 8 + 8 < 2 ^ 31

variable {C : Prop} {a : σ}

/-- **A copy** is the input. -/
theorem copyOf_endsOr (hxs : xs.length < 2 ^ 31) (hmem : C ∨ Enough H sizes t xs parts) :
    EndsOr C (fun r => r.1 = xs) (copyOf H.toAllocator t a xs) := by
  have hlen : (arrLen xs).toNat = xs.length := toNat_arrLen (by omega)
  have hint : (arrLen xs).toInt = xs.length := by rw [toInt_eq_toNat (by omega), hlen]
  rw [copyOf]
  refine endsOr_bind (array_endsOr (hmem.imp_right fun h => ⟨h.plentiful, by omega, h.size, hint ▸ h.copy⟩)) ?_
  rintro ⟨copy, a'⟩ ⟨hcopy, -, -⟩
  dsimp only at hcopy ⊢
  have hloop := foldAll_range_endsOr (C := C) (fun k (copy : List T) => copy.length = xs.length ∧ copy.take k = xs.take k)
    (f := fun copy i => do arrSet copy (BitVec.ofNat 32 i) (← arrGet xs (BitVec.ofNat 32 i))) (a := copy)
    ⟨by rw [hcopy, List.length_replicate, hlen], by rw [List.take_zero, List.take_zero]⟩ xs.length ?_
  · refine endsOr_bind hloop fun copy' hcopy' => ?_
    have htake := hcopy'.2
    rw [List.take_length, ← hcopy'.1, List.take_length] at htake
    exact htake
  · intro k copy' hk hcopy'
    have hk' : (BitVec.ofNat 32 k).toNat = k := toNat_ofNat_of_lt (by omega)
    have hget := List.getElem?_eq_getElem hk
    have hlt : (BitVec.ofNat 32 k).toNat < copy'.length := by rw [hk', hcopy'.1]; exact hk
    rw [arrGet_eq (by rw [hk']; exact hget), done_bind, arrSet_eq hlt, hk']
    refine ⟨by rw [List.length_set, hcopy'.1], ?_⟩
    rw [List.take_add_one, List.take_add_one, List.take_set_of_le le_rfl, hcopy'.2, List.getElem?_set_self (hk' ▸ hlt), hget]

theorem record_endsOr {size : BitVec 32} (hmem : C ∨ Plentiful H.toAllocator ∧ (0#32).slt (size + 8#32) = true) :
    EndsOr C (fun _ => True) (create H.toAllocator a size) := by
  rcases hmem with hC | ⟨hA, hsize⟩
  · exact sat_raw.endsOr fun _ => hC
  · exact create_endsOr hsize (.inr hA)

/-- Part `k`. -/
def part (xs : List T) (n parts : BitVec 32) (k : Nat) : Part T :=
  ⟨xs, lo n parts (BitVec.ofNat 32 k), hi n parts (BitVec.ofNat 32 k)⟩

theorem job_endsOr {k : Nat} (hxs : xs.length < 2 ^ 31) (hp : 0 < parts.toNat) (hmem : C ∨ Enough H sizes t xs parts) :
    EndsOr C (fun r => r.1 = part xs n parts k) (job H sizes t xs n parts (BitVec.ofNat 32 k) a) := by
  have hne : (parts != 0#32) = true := by
    rw [bne_iff_ne]
    rintro rfl
    exact Nat.lt_irrefl 0 hp
  rw [job]
  refine endsOr_bind (Q := fun _ => True) (endsOr_require (fun _ => trivial) (.inr hne)) fun _ _ => ?_
  refine endsOr_bind (copyOf_endsOr hxs hmem) ?_
  rintro ⟨copy, a'⟩ rfl
  exact endsOr_bind (record_endsOr (hmem.imp_right fun h => ⟨h.plentiful, h.part⟩)) fun _ _ => rfl

theorem mapAll_some {α : Type} (as : List α) : mapAll ofOption (as.map some) = done as := by
  induction as with
  | nil => rfl
  | cons a as ih =>
    rw [List.map_cons, mapAll, ih]
    rfl

/-- **What comes before the threads**: the parts, in order. -/
theorem prepare_endsOr (hxs : xs.length < 2 ^ 31) (hp : 0 < parts.toNat) (hp' : parts.toNat < 2 ^ 31)
    (hmem : C ∨ Enough H sizes t xs parts) : EndsOr C (fun r => r.1 = (List.range parts.toNat).map (part xs n parts))
      (prepare H sizes t xs n parts a) := by
  have hint : parts.toInt = parts.toNat := toInt_eq_toNat hp'
  have harray : ∀ {α : Type} (e : ElemType α), 0 ≤ e.size.toInt → e.size.toInt ≤ 8 → ∀ a,
      EndsOr C (fun r => r.1 = List.replicate parts.toNat e.zero) (array H.toAllocator e a parts) := by
    intro α e h0 h8 a
    refine (array_endsOr (hmem.imp_right fun h => ⟨h.plentiful, by omega, h0, ?_⟩)).mono fun r hr => hr.1
    have hrecords := h.records
    have hmul : (parts.toNat : Int) * e.size.toInt ≤ parts.toNat * 8 := Int.mul_le_mul_of_nonneg_left h8 (Int.natCast_nonneg _)
    rw [hint]
    omega
  rw [prepare]
  refine endsOr_bind (harray (pointer (Part T)) (show 0 ≤ (8#32).toInt by decide) (show (8#32).toInt ≤ 8 by decide) a) ?_
  rintro ⟨jobs, a₁⟩ hjobs
  dsimp only at hjobs ⊢
  refine endsOr_bind (Q := fun (r : List (Option (Part T)) × σ) =>
    r.1 = ((List.range parts.toNat).map (part xs n parts)).map some) ?_ ?_
  · refine (foldAll_range_endsOr (C := C) (fun k (r : List (Option (Part T)) × σ) => r.1.length = parts.toNat ∧
        r.1.take k = ((List.range k).map (part xs n parts)).map some)
      ⟨by rw [hjobs, List.length_replicate], rfl⟩ parts.toNat ?_).mono fun r hr => ?_
    · rintro k ⟨jobs', a'⟩ hk ⟨hlen, htake⟩
      dsimp only at hlen htake ⊢
      have hk' : (BitVec.ofNat 32 k).toNat = k := toNat_ofNat_of_lt (by omega)
      have hlt : k < jobs'.length := hlen ▸ hk
      refine endsOr_bind (job_endsOr hxs hp hmem) ?_
      rintro ⟨j, a₂⟩ rfl
      dsimp only
      rw [arrSet_eq (by rw [hk']; exact hlt), hk']
      refine ⟨by rw [List.length_set, hlen], ?_⟩
      rw [List.take_add_one, List.take_set_of_le le_rfl, htake, List.getElem?_set_self hlt, List.range_succ, List.map_append,
        List.map_append]
      rfl
    · rw [← hr.2, List.take_of_length_le hr.1.le]
  · rintro ⟨jobs', a₂⟩ hjobs'
    dsimp only at hjobs' ⊢
    refine endsOr_bind (harray i32 (by decide) (by decide) a₂) ?_
    rintro ⟨handles, a₃⟩ -
    rw [hjobs', mapAll_some]
    rfl

theorem giveBack_endsOr {jobs : List (Part T)} {handles : List (BitVec 32)} (hmem : C ∨ Enough H sizes t xs parts) :
    EndsOr C (fun _ => True) (giveBack H sizes t jobs handles a) := by
  have hA := hmem.imp_right Enough.plentiful
  have hloop : ∀ (js : List (Part T)) (a : σ), EndsOr C (fun _ => True) (foldAll (fun a (j : Part T) => do
      let a ← freeArray H.toAllocator t a j.xs
      destroy H.toAllocator a sizes.part) a js) := by
    intro js
    induction js with
    | nil => exact fun a => trivial
    | cons j js ih =>
      intro a
      exact endsOr_bind (endsOr_bind (freeArray_endsOr hA) fun _ _ => destroy_endsOr hA) fun a' _ => ih a'
  rw [giveBack]
  exact endsOr_bind (hloop jobs a) fun _ _ => endsOr_bind (freeArray_endsOr hA) fun _ _ => freeArray_endsOr hA

theorem spawnWith_endsOr (hmem : C ∨ Enough H sizes t xs parts) (a : σ) :
    EndsOr C (fun _ => True) (spawnWith H sizes a) := by
  rw [spawnWith]
  refine endsOr_bind (record_endsOr (hmem.imp_right fun h => ⟨h.plentiful, h.spawned⟩)) fun a' _ => ?_
  exact (sat_ofOption fun _ _ => trivial).endsOr fun hstop => hmem.resolve_right fun h => ofOption_ne_stop (h.start a') hstop

theorem enter_endsOr (hmem : C ∨ Enough H sizes t xs parts) (a : σ) : EndsOr C (fun _ => True) (enter H sizes a) :=
  destroy_endsOr (hmem.imp_right Enough.plentiful)

end Aipl.StdPar
