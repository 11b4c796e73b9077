import Aipl.Std.Par.Parts
import Mathlib.Data.List.Count
import Mathlib.Data.List.Nodup

/-! # What parallel maps and folds come to

Whoever runs when, `map` leaves the function's answers in `out`, each stored once, and `reduce` answers what one fold of all
indices does, where the joining is associative and has the first value as its unit.

* `runWorker`, `foldWorker` — what a part's worker is yet to store.
* `map_endsOr`, `reduce_endsOr` — what a run comes to.
* `par_exact` — the two, and the parts.
-/

namespace Aipl.StdPar

open Aipl.Lib Aipl.Lib.Outcome Aipl.Lib.ForkJoin Aipl.Std

/-! ### Stores -/

section Stores

variable {W U : Type} {ix : W → Nat} {val : W → U} {out out' : List U}

/-- **Stores to places of their own**, in any order. -/
theorem stores_eq : ∀ {log : List W} {out : List U}, foldAll (fun s w => setResult s (ix w) (val w)) out log = done out' →
    (log.map ix).Nodup → out'.length = out.length ∧ (∀ i, i ∉ log.map ix → out'[i]? = out[i]?) ∧
      ∀ w ∈ log, out'[ix w]? = some (val w)
  | [], out, h, _ => by
      cases h
      exact ⟨rfl, fun _ _ => rfl, fun w hw => absurd hw List.not_mem_nil⟩
  | w :: log, out, h, hnodup => by
      rw [foldAll] at h
      obtain ⟨out₁, hset, h⟩ := bind_eq_done h
      rw [setResult] at hset
      split at hset
      · rename_i hlt
        cases hset
        rw [List.map_cons, List.nodup_cons] at hnodup
        obtain ⟨hlen, hkeep, hall⟩ := stores_eq h hnodup.2
        refine ⟨by rw [hlen, List.length_set], fun i hi => ?_, fun w' hw' => ?_⟩
        · rw [List.map_cons, List.mem_cons, not_or] at hi
          rw [hkeep i hi.2, List.getElem?_set_ne (Ne.symm hi.1)]
        · rcases List.mem_cons.mp hw' with rfl | hw'
          · rw [hkeep _ hnodup.1, List.getElem?_set_self hlt]
          · exact hall w' hw'
      · cases hset

theorem length_stores (ix : W → Nat) (val : W → U) {log : List W} {out : List U}
    (h : foldAll (fun s w => setResult s (ix w) (val w)) out log = done out') : out'.length = out.length := by
  induction log generalizing out with
  | nil =>
    cases h
    rfl
  | cons w log ih =>
    rw [foldAll] at h
    obtain ⟨out₁, hset, h⟩ := bind_eq_done h
    rw [setResult] at hset
    split at hset
    · cases hset
      rw [ih h, List.length_set]
    · cases hset

/-- All places, each once. -/
theorem stores_all (ix : W → Nat) (val : W → U) (mk : Nat → W) {log : List W} {g : Nat → U}
    (h : foldAll (fun s w => setResult s (ix w) (val w)) out log = done out')
    (hix : ∀ i < out.length, ix (mk i) = i) (hval : ∀ i, val (mk i) = g i)
    (hlog : log.Perm ((List.range out.length).map mk)) : out' = (List.range out.length).map g := by
  have hplaces : (log.map ix).Perm (List.range out.length) := by
    have hmap := hlog.map ix
    have hid : (List.range out.length).map (ix ∘ mk) = List.range out.length :=
      (List.map_congr_left fun i hi => hix i (List.mem_range.mp hi)).trans (List.map_id _)
    rwa [List.map_map, hid] at hmap
  obtain ⟨hlen, -, hall⟩ := stores_eq h (hplaces.nodup_iff.mpr List.nodup_range)
  refine List.ext_getElem? fun i => ?_
  by_cases hi : i < out.length
  · have hw := hall (mk i) (hlog.mem_iff.mpr (List.mem_map_of_mem (List.mem_range.mpr hi)))
    rw [hix i hi, hval] at hw
    rw [hw, List.getElem?_map, List.getElem?_range hi]
    rfl
  · rw [List.getElem?_eq_none (by omega), List.getElem?_eq_none (by rw [List.length_map, List.length_range]; omega)]

end Stores

/-! ### Workers -/

variable {σ T U C : Type}

/-- The indices that are left of a part. -/
def ahead (i hi : BitVec 32) : List (BitVec 32) :=
  (List.range (hi.toInt - i.toInt).toNat).map fun d => i + BitVec.ofNat 32 d

theorem ahead_nil {i hi : BitVec 32} (h : ¬ i.slt hi = true) : ahead i hi = [] := by
  rw [BitVec.slt_eq_decide, decide_eq_true_eq] at h
  rw [ahead, Int.toNat_eq_zero.mpr (by omega)]
  rfl

theorem ahead_cons {i hi : BitVec 32} (h : i.slt hi = true) : ahead i hi = i :: ahead (i + 1#32) hi := by
  rw [BitVec.slt_eq_decide, decide_eq_true_eq] at h
  have hmax := BitVec.toInt_lt (x := hi)
  have hmin := BitVec.le_toInt (x := i)
  have hsucc : (i + 1#32).toInt = i.toInt + 1 := by
    have hone : (1#32).toInt = 1 := rfl
    rw [BitVec.toInt_add, hone]
    exact Int.bmod_eq_of_le (by omega) (by omega)
  rw [ahead, ahead, hsucc, show (hi.toInt - i.toInt).toNat = (hi.toInt - (i.toInt + 1)).toNat + 1 by omega,
    List.range_succ_eq_map, List.map_cons, List.map_map]
  refine congrArg₂ List.cons (BitVec.add_zero i) (List.map_congr_left fun d _ => ?_)
  rw [Function.comp_apply, Nat.succ_eq_add_one, Nat.add_comm, BitVec.ofNat_add, BitVec.add_assoc]

/-- What a worker of `map` is yet to store. -/
def Run.left (f : C → List T → BitVec 32 → U) (ctx : C) (r : Run T U) : List (BitVec 32 × U) :=
  match r.answer with
  | none => (ahead r.i r.part.hi).map fun i => (i, f ctx r.part.xs i)
  | some u => (r.i, u) :: (ahead (r.i + 1#32) r.part.hi).map fun i => (i, f ctx r.part.xs i)

def Run.size (r : Run T U) : Nat :=
  match r.answer with
  | none => 2 * (ahead r.i r.part.hi).length
  | some _ => 2 * (ahead (r.i + 1#32) r.part.hi).length + 1

theorem runWorker (H : Host σ) (sizes : Sizes) (f : C → List T → BitVec 32 → U) (ctx : C) :
    Worker (mapSystem H sizes f ctx) (Run.left f ctx) Run.size := by
  constructor
  · rintro ⟨part, i, _ | u⟩ h
    · change (if i.slt part.hi then _ else none) = none at h
      split at h
      · cases h
      · rename_i hend
        rw [Run.left]
        dsimp only
        rw [ahead_nil hend]
        rfl
    · cases h
  · rintro ⟨part, i, _ | u⟩ r' h
    · change (if i.slt part.hi then _ else none) = _ at h
      split at h
      · rename_i hslt
        cases h
        rw [Run.left, Run.left, Run.size, Run.size]
        dsimp only
        rw [ahead_cons hslt, List.length_cons]
        exact ⟨rfl, by omega⟩
      · cases h
    · cases h
  · rintro ⟨part, i, _ | u⟩ r' w h
    · change (if i.slt part.hi then _ else none) = _ at h
      split at h <;> cases h
    · cases h
      exact ⟨rfl, Nat.lt_succ_self _⟩

/-! ### `map` -/

variable {H : Host σ} {sizes : Sizes} {t : ElemType T} {xs : List T} {n threads : BitVec 32} {a : σ} {k : Nat}

/-- A part's indices, as the words its worker counts. -/
theorem ahead_part (hn : n.toNat < 2 ^ 31) (hk : k < (partsOf n threads).toNat) :
    ahead (lo n (partsOf n threads) (BitVec.ofNat 32 k)) (hi n (partsOf n threads) (BitVec.ofNat 32 k)) =
      (indices n (partsOf n threads) k).map (BitVec.ofNat 32) := by
  obtain ⟨hp, hp', -⟩ := partsOf_spec threads hn
  have hlo := toNat_lo hn hp hp' hk
  have hhi := toNat_hi hn hp hp' hk
  have hlast := cut_le (n := n.toNat) hp (Nat.succ_le_of_lt hk)
  have hle := cut_le_succ n.toNat (partsOf n threads).toNat k
  rw [Nat.succ_eq_add_one] at hlast
  rw [ahead, indices, toInt_eq_toNat (by omega), toInt_eq_toNat (by omega), List.range'_eq_map_range, List.map_map]
  rw [show ((hi n (partsOf n threads) (BitVec.ofNat 32 k)).toNat - (lo n (partsOf n threads) (BitVec.ofNat 32 k)).toNat : Int).toNat =
    (hi n (partsOf n threads) (BitVec.ofNat 32 k)).toNat - (lo n (partsOf n threads) (BitVec.ofNat 32 k)).toNat by omega]
  refine List.map_congr_left fun d _ => ?_
  rw [Function.comp_apply, BitVec.ofNat_add, BitVec.ofNat_toNat, BitVec.setWidth_eq]

/-- All parts' stores are those of all indices. -/
theorem runs_left (f : C → List T → BitVec 32 → U) (ctx : C) (hn : n.toNat < 2 ^ 31) :
    (((List.range (partsOf n threads).toNat).map (part xs n (partsOf n threads))).map Run.start).flatMap (Run.left f ctx) =
      (List.range n.toNat).map fun i => (BitVec.ofNat 32 i, f ctx xs (BitVec.ofNat 32 i)) := by
  rw [List.map_map, List.flatMap_map, ← ranges_eq threads hn, List.map_flatMap]
  refine List.flatMap_congr fun k hk => ?_
  rw [Run.left]
  dsimp only [Function.comp_apply, Run.start, part]
  rw [ahead_part hn (List.mem_range.mp hk), List.map_map]
  rfl

theorem mapBegin_endsOr {Cond : Prop} {out : List U} (f : C → List T → BitVec 32 → U) (ctx : C) (hout : out.length < 2 ^ 31)
    (hxs : xs.length < 2 ^ 31) (hmem : Cond ∨ Enough H sizes t xs (partsOf (arrLen out) threads)) :
    EndsOr Cond (fun b => Running (mapSystem H sizes f ctx) (Run.left f ctx) out
      ((List.range out.length).map fun i => (BitVec.ofNat 32 i, f ctx xs (BitVec.ofNat 32 i))) b.2)
      (mapBegin H sizes t out xs threads a) := by
  have hn : (arrLen out).toNat = out.length := toNat_arrLen (by omega)
  have hlt : (arrLen out).toNat < 2 ^ 31 := by omega
  obtain ⟨hp, hp', -⟩ := partsOf_spec threads hlt
  rw [mapBegin]
  refine endsOr_bind (prepare_endsOr hxs hp hp' hmem) ?_
  rintro ⟨jobs, handles, a'⟩ hjobs
  dsimp only at hjobs
  subst hjobs
  have hinit := running_init (mapSystem H sizes f ctx) (Run.left f ctx) a' out
    (show ((List.range (partsOf (arrLen out) threads).toNat).map (part xs (arrLen out) (partsOf (arrLen out) threads))).map
      Run.start ≠ [] by simp; omega)
  rw [runs_left f ctx hlt, hn, List.map_map] at hinit
  exact hinit

theorem map_write {Cond : Prop} {out : List U} (f : C → List T → BitVec 32 → U) (ctx : C) (hout : out.length < 2 ^ 31)
    (ws : List (BitVec 32 × U)) (s : List U) (w : BitVec 32 × U)
    (hws : foldAll (fun s w => (mapSystem H sizes f ctx).write w s) out ws = done s)
    (hw : w ∈ (List.range out.length).map fun i => (BitVec.ofNat 32 i, f ctx xs (BitVec.ofNat 32 i))) :
    EndsOr Cond (fun _ => True) ((mapSystem H sizes f ctx).write w s) := by
  have hlen : s.length = out.length := length_stores (fun w : BitVec 32 × U => w.1.toNat) Prod.snd hws
  obtain ⟨i, hi, rfl⟩ := List.mem_map.mp hw
  have hi' := List.mem_range.mp hi
  have hix : (BitVec.ofNat 32 i).toNat = i := toNat_ofNat_of_lt (by omega)
  change EndsOr Cond _ (arrSet s (BitVec.ofNat 32 i) _)
  rw [arrSet_eq (by rw [hix, hlen]; exact hi')]
  trivial

/-- **What a `map` comes to**, whoever runs when. -/
theorem map_endsOr {out : List U} (f : C → List T → BitVec 32 → U) (ctx : C) (hout : out.length < 2 ^ 31)
    (hxs : xs.length < 2 ^ 31) {as : List Actor} {o : Outcome (Mapped U)}
    (h : map H sizes t out f ctx xs threads a as = some o) :
    EndsOr (¬ Enough H sizes t xs (partsOf (arrLen out) threads)) (fun r =>
      r.out = (List.range out.length).map (fun i => f ctx xs (BitVec.ofNat 32 i)) ∧
      (r.stores.map Prod.fst).Perm ((List.range out.length).map (BitVec.ofNat 32))) o := by
  have hmem := (Classical.em (Enough H sizes t xs (partsOf (arrLen out) threads))).symm
  refine whole_endsOr (runWorker H sizes f ctx) (spawnWith_endsOr hmem) (enter_endsOr hmem) (map_write f ctx hout)
    (mapBegin_endsOr f ctx hout hxs hmem) ?_ h
  intro kept c hlog hshared
  refine endsOr_bind (giveBack_endsOr hmem) fun _ _ => ⟨?_, ?_⟩
  · exact stores_all (fun w : BitVec 32 × U => w.1.toNat) Prod.snd
      (fun i => (BitVec.ofNat 32 i, f ctx xs (BitVec.ofNat 32 i))) hshared
      (fun i hi => toNat_ofNat_of_lt (by omega)) (fun i => rfl) hlog
  · have hfst := hlog.map Prod.fst
    rwa [List.map_map] at hfst

/-! ### `reduce` -/

/-- What a worker of `reduce` is yet to store. -/
def Folding.left (f : C → List T → BitVec 32 → U → U) (ctx : C) (r : Folding T U) : List (Nat × U) :=
  if r.stored then [] else [(r.k, (ahead r.i r.part.hi).foldl (fun acc i => f ctx r.part.xs i acc) r.acc)]

def Folding.size (r : Folding T U) : Nat := (ahead r.i r.part.hi).length + if r.stored then 0 else 1

theorem foldWorker (H : Host σ) (sizes : Sizes) (f : C → List T → BitVec 32 → U → U) (ctx : C) :
    Worker (reduceSystem H sizes f ctx) (Folding.left f ctx) Folding.size := by
  constructor
  · rintro ⟨k, part, i, acc, _ | _⟩ h
    · change (if i.slt part.hi then _ else if false = true then none else _) = none at h
      split at h <;> cases h
    · rfl
  · rintro ⟨k, part, i, acc, stored⟩ r' h
    change (if i.slt part.hi then _ else if stored then none else _) = _ at h
    split at h
    · rename_i hslt
      cases h
      rw [Folding.left, Folding.left, Folding.size, Folding.size]
      dsimp only
      rw [ahead_cons hslt, List.length_cons]
      exact ⟨rfl, by omega⟩
    · split at h <;> cases h
  · rintro ⟨k, part, i, acc, _ | _⟩ r' w h
    · change (if i.slt part.hi then _ else if false = true then none else _) = _ at h
      split at h
      · cases h
      · rename_i hend
        cases h
        rw [Folding.left, Folding.left, Folding.size, Folding.size]
        dsimp only
        rw [ahead_nil hend]
        exact ⟨rfl, Nat.lt_succ_self _⟩
    · change (if i.slt part.hi then _ else if true = true then none else _) = _ at h
      split at h <;> cases h

/-- What part `k` folds to. -/
def folded (f : C → List T → BitVec 32 → U → U) (ctx : C) (xs : List T) (n threads : BitVec 32) (init : U) (k : Nat) : U :=
  (indices n (partsOf n threads) k).foldl (fun acc i => f ctx xs (BitVec.ofNat 32 i) acc) init

/-- A part's worker at its first index. -/
def Folding.start (init : U) (j : Part T × Nat) : Folding T U := ⟨j.2, j.1, j.1.lo, init, false⟩

theorem zipIdx_parts (g : Nat → Part T) (p : Nat) :
    ((List.range p).map g).zipIdx = (List.range p).map fun k => (g k, k) := by
  refine List.ext_getElem (by simp) fun i h₁ h₂ => ?_
  simp

theorem foldings_left (f : C → List T → BitVec 32 → U → U) (ctx : C) (init : U) (hn : n.toNat < 2 ^ 31) :
    ((((List.range (partsOf n threads).toNat).map (part xs n (partsOf n threads))).zipIdx).map (Folding.start init)).flatMap
      (Folding.left f ctx) = (List.range (partsOf n threads).toNat).map fun k => (k, folded f ctx xs n threads init k) := by
  rw [zipIdx_parts, List.map_map, List.flatMap_map, List.map_eq_flatMap]
  refine List.flatMap_congr fun k hk => ?_
  rw [Folding.left]
  dsimp only [Function.comp_apply, Folding.start, part]
  rw [ahead_part hn (List.mem_range.mp hk), List.foldl_map]
  rfl

theorem reduceBegin_endsOr {Cond : Prop} (f : C → List T → BitVec 32 → U → U) (ctx : C) (init : U) (hn : n.toNat < 2 ^ 31)
    (hxs : xs.length < 2 ^ 31) (hmem : Cond ∨ Enough H sizes t xs (partsOf n threads)) :
    EndsOr Cond (fun b => Running (reduceSystem H sizes f ctx) (Folding.left f ctx)
      (List.replicate (partsOf n threads).toNat init)
      ((List.range (partsOf n threads).toNat).map fun k => (k, folded f ctx xs n threads init k)) b.2)
      (reduceBegin H sizes t xs n init threads a) := by
  obtain ⟨hp, hp', -⟩ := partsOf_spec threads hn
  rw [reduceBegin]
  refine endsOr_bind (Q := fun _ => True) (endsOr_require (fun _ => trivial) (.inr (zero_sle hn))) fun _ _ => ?_
  refine endsOr_bind (prepare_endsOr hxs hp hp' hmem) ?_
  rintro ⟨jobs, handles, a'⟩ hjobs
  dsimp only at hjobs
  subst hjobs
  have hinit := running_init (reduceSystem H sizes f ctx) (Folding.left f ctx) a'
    (List.replicate (partsOf n threads).toNat init)
    (show (((List.range (partsOf n threads).toNat).map (part xs n (partsOf n threads))).zipIdx).map (Folding.start init) ≠ [] by
      simp; omega)
  rw [foldings_left f ctx init hn, List.map_map] at hinit
  have hresults : ((List.range (partsOf n threads).toNat).map (part xs n (partsOf n threads))).map (fun _ => init) =
      List.replicate (partsOf n threads).toNat init := by rw [List.map_const', List.length_map, List.length_range]
  change Running _ _ _ _ (Config.mk a' (List.map (fun _ => init) _) [] _ _)
  rw [hresults]
  exact hinit

theorem reduce_write {Cond : Prop} (f : C → List T → BitVec 32 → U → U) (ctx : C) {init : U}
    (ws : List (Nat × U)) (s : List U) (w : Nat × U)
    (hws : foldAll (fun s w => (reduceSystem H sizes f ctx).write w s) (List.replicate (partsOf n threads).toNat init) ws = done s)
    (hw : w ∈ (List.range (partsOf n threads).toNat).map fun k => (k, folded f ctx xs n threads init k)) :
    EndsOr Cond (fun _ => True) ((reduceSystem H sizes f ctx).write w s) := by
  have hlen : s.length = _ := length_stores (fun w : Nat × U => w.1) Prod.snd hws
  rw [List.length_replicate] at hlen
  obtain ⟨k, hk, rfl⟩ := List.mem_map.mp hw
  change EndsOr Cond _ (setResult s k _)
  rw [setResult, if_pos (by rw [hlen]; exact List.mem_range.mp hk)]
  trivial

section Join

variable {join : U → U → U} {init : U} (hassoc : ∀ a b c, join (join a b) c = join a (join b c))
variable (hleft : ∀ a, join init a = a) (hright : ∀ a, join a init = a)
include hassoc hright

/-- A fold that is joined on. -/
theorem join_foldl (a : U) (us : List U) : join a (us.foldl join init) = us.foldl join a := by
  induction us using List.reverseRecOn with
  | nil => exact hright a
  | append_singleton us u ih => rw [List.foldl_concat, List.foldl_concat, ← hassoc, ih]

/-- **Folds of the parts, joined**, are the fold of all. -/
theorem joined_foldl (uss : List (List U)) (a : U) :
    (uss.map fun us => us.foldl join init).foldl join a = uss.flatten.foldl join a := by
  induction uss generalizing a with
  | nil => rfl
  | cons us uss ih =>
    rw [List.map_cons, List.foldl_cons, ih, List.flatten_cons, List.foldl_append, join_foldl hassoc hright]

include hleft

/-- **What a `reduce` comes to**, whoever runs when. -/
theorem reduce_endsOr (f : C → List T → BitVec 32 → U → U) (ctx : C) (g : BitVec 32 → U)
    (hf : ∀ i acc, f ctx xs i acc = join acc (g i)) (hn : n.toNat < 2 ^ 31) (hxs : xs.length < 2 ^ 31) {as : List Actor}
    {o : Outcome U} (h : reduce H sizes t f join ctx xs n init threads a as = some o) :
    EndsOr (¬ Enough H sizes t xs (partsOf n threads))
      (fun r => r = (List.range n.toNat).foldl (fun acc i => f ctx xs (BitVec.ofNat 32 i) acc) init) o := by
  have hmem := (Classical.em (Enough H sizes t xs (partsOf n threads))).symm
  obtain ⟨hp, hp', -⟩ := partsOf_spec threads hn
  refine whole_endsOr (foldWorker H sizes f ctx) (spawnWith_endsOr hmem) (enter_endsOr hmem) (reduce_write f ctx)
    (reduceBegin_endsOr f ctx init hn hxs hmem) ?_ h
  intro kept c hlog hshared
  have hresults : c.shared = (List.range (partsOf n threads).toNat).map (folded f ctx xs n threads init) := by
    have hall := stores_all (fun w : Nat × U => w.1) Prod.snd (fun k => (k, folded f ctx xs n threads init k)) hshared
      (fun k _ => rfl) (fun k => rfl)
      (by rw [List.length_replicate]; exact hlog)
    rwa [List.length_replicate] at hall
  have hfold : ∀ (is : List Nat) (acc : U), is.foldl (fun acc i => f ctx xs (BitVec.ofNat 32 i) acc) acc =
      (is.map fun i => g (BitVec.ofNat 32 i)).foldl join acc := by
    intro is acc
    rw [List.foldl_map]
    exact List.foldl_ext _ _ _ fun acc i _ => hf _ acc
  have hparts : (List.range (partsOf n threads).toNat).map (folded f ctx xs n threads init) =
      ((List.range (partsOf n threads).toNat).map fun k =>
        (indices n (partsOf n threads) k).map fun i => g (BitVec.ofNat 32 i)).map fun us => us.foldl join init := by
    rw [List.map_map]
    exact List.map_congr_left fun k _ => hfold _ _
  have hsequential : (List.range n.toNat).foldl (fun acc i => f ctx xs (BitVec.ofNat 32 i) acc) init =
      ((List.range (partsOf n threads).toNat).map (folded f ctx xs n threads init)).foldl join init := by
    rw [hparts, joined_foldl hassoc hright, hfold, ← ranges_eq threads hn, List.map_flatMap, List.flatMap_def]
  have hjoin : joinAll join c.shared = done ((List.range n.toNat).foldl (fun acc i => f ctx xs (BitVec.ofNat 32 i) acc) init) := by
    rw [hresults, hsequential]
    obtain ⟨p, hp⟩ := Nat.exists_eq_succ_of_ne_zero (Nat.ne_of_gt hp)
    rw [hp, List.range_succ_eq_map, List.map_cons, joinAll, List.foldl_cons, hleft]
  rw [hjoin, done_bind]
  exact endsOr_bind (giveBack_endsOr hmem) fun _ _ => rfl

end Join

/-- **Parallel maps and folds are the sequential ones**, whoever runs when: the parts are all indices in order; a run of `map`
leaves each answer in its place, stored once; one of `reduce` answers the sequential fold; and every run can be gone on with,
and ends, and stops the program only for lack of memory or of threads. -/
theorem par_exact (H : Host σ) (sizes : Sizes) (t : ElemType T) (xs : List T) (threads : BitVec 32) (a : σ)
    (hxs : xs.length < 2 ^ 31) :
    (∀ n : BitVec 32, 0 ≤ n.toInt →
      (List.range (partsOf n threads).toNat).flatMap (indices n (partsOf n threads)) = List.range n.toNat) ∧
    (∀ (out : List U) (f : C → List T → BitVec 32 → U) (ctx : C), out.length < 2 ^ 31 →
      (∀ as o, map H sizes t out f ctx xs threads a as = some o →
        EndsOr (¬ Enough H sizes t xs (partsOf (arrLen out) threads)) (fun r =>
          r.out = (List.range out.length).map (fun i => f ctx xs (BitVec.ofNat 32 i)) ∧
          (r.stores.map Prod.fst).Perm ((List.range out.length).map (BitVec.ofNat 32))) o) ∧
      (∀ as, (mapSystem H sizes f ctx).Begins (mapBegin H sizes t out xs threads a) as →
        ∃ as' o, map H sizes t out f ctx xs threads a (as ++ as') = some o) ∧
      ∃ m, ∀ as, (mapSystem H sizes f ctx).Begins (mapBegin H sizes t out xs threads a) as → as.length ≤ m) ∧
    ∀ (n : BitVec 32) (f : C → List T → BitVec 32 → U → U) (join : U → U → U) (ctx : C) (init : U) (g : BitVec 32 → U),
      0 ≤ n.toInt → (∀ a b c, join (join a b) c = join a (join b c)) → (∀ a, join init a = a) → (∀ a, join a init = a) →
      (∀ i acc, f ctx xs i acc = join acc (g i)) →
      (∀ as o, reduce H sizes t f join ctx xs n init threads a as = some o →
        EndsOr (¬ Enough H sizes t xs (partsOf n threads))
          (fun r => r = (List.range n.toNat).foldl (fun acc i => f ctx xs (BitVec.ofNat 32 i) acc) init) o) ∧
      (∀ as, (reduceSystem H sizes f ctx).Begins (reduceBegin H sizes t xs n init threads a) as →
        ∃ as' o, reduce H sizes t f join ctx xs n init threads a (as ++ as') = some o) ∧
      ∃ m, ∀ as, (reduceSystem H sizes f ctx).Begins (reduceBegin H sizes t xs n init threads a) as → as.length ≤ m := by
  refine ⟨fun n hn => ranges_eq _ (toInt_of_nonneg hn).2, fun out f ctx hout => ?_,
    fun n f join ctx init g hn hassoc hleft hright hf => ?_⟩
  · have hmem := (Classical.em (Enough H sizes t xs (partsOf (arrLen out) threads))).symm
    refine ⟨fun as o h => map_endsOr f ctx hout hxs h, fun as has => ?_, ?_⟩
    · exact exists_whole (runWorker H sizes f ctx) (spawnWith_endsOr hmem) (enter_endsOr hmem) (map_write f ctx hout)
        (mapBegin_endsOr f ctx hout hxs hmem) has
    · exact exists_bound (runWorker H sizes f ctx) (spawnWith_endsOr hmem) (enter_endsOr hmem) (map_write f ctx hout)
        (mapBegin_endsOr f ctx hout hxs hmem)
  · have hmem := (Classical.em (Enough H sizes t xs (partsOf n threads))).symm
    have hlt := (toInt_of_nonneg hn).2
    refine ⟨fun as o h => reduce_endsOr hassoc hleft hright f ctx g hf hlt hxs h, fun as has => ?_, ?_⟩
    · exact exists_whole (foldWorker H sizes f ctx) (spawnWith_endsOr hmem) (enter_endsOr hmem) (reduce_write f ctx)
        (reduceBegin_endsOr f ctx init hlt hxs hmem) has
    · exact exists_bound (foldWorker H sizes f ctx) (spawnWith_endsOr hmem) (enter_endsOr hmem) (reduce_write f ctx)
        (reduceBegin_endsOr f ctx init hlt hxs hmem)

/-- A system that always has memory and threads. -/
def ampleHost : Host Unit := ⟨Allocator.ample, fun _ => some ()⟩

/-- Three numbers tripled by two threads. -/
theorem par_triple : ∃ as r, map ampleHost ⟨40#32, 32#32⟩ i32 [0#32, 0#32, 0#32]
    (fun (by_ : BitVec 32) (xs : List (BitVec 32)) i => by_ * xs.getD i.toNat 0#32) 3#32 [1#32, 2#32, 3#32] 2#32 () as =
      some (done r) ∧ r.out = [3#32, 6#32, 9#32] := by
  have hexact := (par_exact (U := BitVec 32) (C := BitVec 32) ampleHost ⟨40#32, 32#32⟩ i32 [1#32, 2#32, 3#32] 2#32 ()
    (by decide)).2.1 [0#32, 0#32, 0#32] (fun by_ xs i => by_ * xs.getD i.toNat 0#32) 3#32 (by decide)
  have henough : Enough ampleHost ⟨40#32, 32#32⟩ i32 [1#32, 2#32, 3#32] (partsOf (arrLen [0#32, 0#32, 0#32]) 2#32) :=
    ⟨⟨fun _ _ => rfl, fun _ _ => rfl⟩, fun _ => rfl, by decide, by decide, by decide, by decide, by decide⟩
  obtain ⟨as, o, hrun⟩ := hexact.2.1 [] rfl
  have hends := hexact.1 _ o hrun
  cases o with
  | done r => exact ⟨_, r, hrun, hends.1.trans (by decide)⟩
  | stop => exact absurd henough hends
  | outOfFuel => exact hends.elim

end Aipl.StdPar
