import Aipl.Std.Map.Grow

/-! # The map is a finite map

Whole runs of the map's operations, against the same operations on a finite map from keys up to
`same`.

* `step_sat` — one operation does on the table what it does on the finite map.
* `run_refines` — every run from a map `make` returned gives the results of the finite map.
-/

namespace Aipl.StdMap

open Aipl.Lib Aipl.Lib.Outcome Aipl.Lib.Probing Aipl.Std

variable {K V σ : Type} (P : Params K V σ)

/-! ### Operations -/

/-- **A claim**, growing first if it has to. -/
theorem claim_sat {m : Map K V σ} {F : P.key.Model V} {k : K} {fresh : V} (h : Inv P.key m)
    (hF : Holds P.key m F) :
    Sat (fun r => Claimed P.key F k (claimed P.key F k fresh) r.1 r.2) (claim P m k fresh) := by
  rw [claim, claimAt, claimWith]
  by_cases hfull : (3#32 * capacity m).sle (4#32 * (m.used + 1#32)) = true
  · rw [if_pos hfull]
    refine sat_bind (grow_sat P h hF) fun m' hm' => ?_
    exact (claimSlot_sat P hm'.1 hm'.2.1 hm'.2.2).mono fun _ hr => hr.1
  · rw [if_neg hfull, pure_eq, done_bind]
    rw [h.room_iff] at hfull
    exact (claimSlot_sat P h hF (by omega)).mono fun _ hr => hr.1

theorem set_sat {m : Map K V σ} {F : P.key.Model V} {k : K} {v : V} (h : Inv P.key m)
    (hF : Holds P.key m F) :
    Sat (fun m' => Inv P.key m' ∧ Holds P.key m' (F.insert (P.key.cls k) v)) (set P m k v) := by
  rw [set, setWith]
  refine sat_bind (claim_sat P h hF) fun r hr => ?_
  refine sat_bind (setVal_sat hr) fun vals hvals => ?_
  exact ⟨hvals.1, hvals.2.1⟩

theorem add_sat {P : Params K (BitVec 32) σ} {m : Map K (BitVec 32) σ}
    {F : P.key.Model (BitVec 32)} {k : K} {d : BitVec 32} (h : Inv P.key m)
    (hF : Holds P.key m F) :
    Sat (fun r => Inv P.key r.1 ∧ r.2 = claimed P.key F k 0#32 + d ∧
        Holds P.key r.1 (F.insert (P.key.cls k) (claimed P.key F k 0#32 + d))) (add P m k d) := by
  rw [add]
  refine sat_bind (claim_sat P h hF) fun r hr => ?_
  obtain ⟨m', i⟩ := r
  obtain ⟨st, k₀, v₀, hst, hk₀, hv₀, hcell⟩ := hr.inv.shape.cell_eq hr.lt
  have hval : v₀ = claimed P.key F k 0#32 := by
    obtain ⟨k', hlive, -⟩ := hr.live
    rw [hlive] at hcell
    split at hcell
    · cases hcell
    · split at hcell
      · injection hcell with _ hv
        exact hv.symm
      · cases hcell
  dsimp only at hv₀ ⊢
  rw [arrGet_eq hv₀, done_bind, hval]
  refine sat_bind (setVal_sat hr) fun vals hvals => ?_
  exact ⟨hvals.1, rfl, hvals.2.1⟩

/-- What the three lookups read once they have found `k`'s slot: its state, and its value. -/
theorem lookup_sat {m : Map K V σ} {F : P.key.Model V} {k : K} {β : Type}
    {f : BitVec 32 → BitVec 32 → Outcome β} {Q : β → Prop} (h : Inv P.key m)
    (hF : Holds P.key m F)
    (hhit : ∀ i v, F.lookup (P.key.cls k) = some v → arrGet m.vals i = done v →
      Sat Q (f i 1#32))
    (hmiss : ∀ i st, st ≠ 1#32 → F.lookup (P.key.cls k) = none → Sat Q (f i st)) :
    Sat Q (do
      let i ← slotFor P m k
      let st ← arrGet m.states i
      f i st) := by
  refine sat_bind (slotFor_sat P h) fun i hi => ?_
  obtain ⟨hin, hfound⟩ := hi
  obtain ⟨st, k₀, v₀, hst, -, hv₀, hcell⟩ := h.shape.cell_eq hin
  rw [arrGet_eq hst, done_bind]
  cases hfound with
  | @hit k' v hlive hk =>
    have hlook : F.lookup (P.key.cls k) = some v := hk ▸ hF.lookup_live hin hlive
    rw [hlive] at hcell
    split at hcell
    · cases hcell
    · split at hcell
      · rename_i hone
        injection hcell with _ hv
        rw [hone]
        exact hhit i v hlook (arrGet_eq (hv ▸ hv₀))
      · cases hcell
  | free hfree habsent hreach =>
    have hne : st ≠ 1#32 := by
      rintro rfl
      exact hfree k₀ v₀ (by rw [hcell]; simp)
    exact hmiss i st hne (hF.lookup_absent habsent)

theorem getOr_sat {m : Map K V σ} {F : P.key.Model V} {k : K} {default : V} (h : Inv P.key m)
    (hF : Holds P.key m F) :
    Sat (fun v => v = (F.lookup (P.key.cls k)).getD default) (getOr P m k default) := by
  refine lookup_sat P h hF (fun i v hl hv => ?_) fun i st hne hl => ?_
  · rw [if_pos rfl, hv, hl]
    rfl
  · rw [if_neg hne, hl]
    rfl

theorem find_sat {m : Map K V σ} {F : P.key.Model V} {k : K} (h : Inv P.key m)
    (hF : Holds P.key m F) :
    Sat (fun o => o = F.lookup (P.key.cls k)) (find P m k) := by
  refine lookup_sat P h hF (fun i v hl hv => ?_) fun i st hne hl => ?_
  · rw [if_pos rfl, hv, hl]
    rfl
  · rw [if_neg hne, hl]
    rfl

theorem has_sat {m : Map K V σ} {F : P.key.Model V} {k : K} (h : Inv P.key m)
    (hF : Holds P.key m F) :
    Sat (fun b => b = (F.lookup (P.key.cls k)).isSome) (has P m k) := by
  refine lookup_sat P h hF (fun i v hl hv => ?_) fun i st hne hl => ?_
  · rw [hl]
    rfl
  · rw [hl]
    simp [hne]

theorem count_eq {H : Hash K} {m : Map K V σ} {F : H.Model V} (h : Inv H m) (hF : Holds H m F) :
    (count m).toNat = F.keys.card := by
  rw [count, h.count]
  exact (hF.card_keys h.placed).symm

/-! ### Runs -/

/-- The map's operations.  `add` is for maps to `i32`. -/
inductive Op (K : Type) : Type → Type 1 where
  | set {V : Type} (k : K) (v : V) : Op K V
  | add (k : K) (d : BitVec 32) : Op K (BitVec 32)
  | remove {V : Type} (k : K) : Op K V
  | getOr {V : Type} (k : K) (default : V) : Op K V
  | find {V : Type} (k : K) : Op K V
  | has {V : Type} (k : K) : Op K V
  | count {V : Type} : Op K V

/-- What an operation returns. -/
inductive Result (V : Type) where
  | unit
  | value (v : V)
  | option (o : Option V)
  | bool (b : Bool)
  | num (n : BitVec 32)
deriving DecidableEq, Repr

/-- One operation, on a map. -/
def step : {V : Type} → (P : Params K V σ) → Map K V σ → Op K V →
    Outcome (Map K V σ × Result V)
  | _, P, m, .set k v => do
    let m ← set P m k v
    pure (m, .unit)
  | _, P, m, .add k d => do
    let (m, v) ← add P m k d
    pure (m, .value v)
  | _, P, m, .remove k => do
    let (m, b) ← remove P m k
    pure (m, .bool b)
  | _, P, m, .getOr k default => do
    let v ← getOr P m k default
    pure (m, .value v)
  | _, P, m, .find k => do
    let o ← find P m k
    pure (m, .option o)
  | _, P, m, .has k => do
    let b ← has P m k
    pure (m, .bool b)
  | _, _, m, .count => pure (m, .num (count m))

/-- A run of operations: their results, up to the first that does not return, and how the run
ended. -/
def run (P : Params K V σ) : Map K V σ → List (Op K V) →
    List (Result V) × Outcome (Map K V σ)
  | m, [] => ([], done m)
  | m, op :: ops =>
    match step P m op with
    | done (m, r) => (r :: (run P m ops).1, (run P m ops).2)
    | stop => ([], stop)
    | outOfFuel => ([], outOfFuel)

/-- One operation, on a finite map. -/
def specStep (H : Hash K) : {V : Type} → H.Model V → Op K V → H.Model V × Result V
  | _, F, .set k v => (F.insert (H.cls k) v, .unit)
  | _, F, .add k d =>
    (F.insert (H.cls k) ((F.lookup (H.cls k)).getD 0#32 + d),
      .value ((F.lookup (H.cls k)).getD 0#32 + d))
  | _, F, .remove k => (F.erase (H.cls k), .bool (F.lookup (H.cls k)).isSome)
  | _, F, .getOr k default => (F, .value ((F.lookup (H.cls k)).getD default))
  | _, F, .find k => (F, .option (F.lookup (H.cls k)))
  | _, F, .has k => (F, .bool (F.lookup (H.cls k)).isSome)
  | _, F, .count => (F, .num (BitVec.ofNat 32 F.keys.card))

/-- The same run of operations, on a finite map. -/
def specRun (H : Hash K) : H.Model V → List (Op K V) → List (Result V) × H.Model V
  | F, [] => ([], F)
  | F, op :: ops =>
    let (F, r) := specStep H F op
    (r :: (specRun H F ops).1, (specRun H F ops).2)

/-- **One operation refines the finite map's.** -/
theorem step_sat : {V : Type} → (P : Params K V σ) → {m : Map K V σ} → {F : P.key.Model V} →
    Inv P.key m → Holds P.key m F → (op : Op K V) →
    Sat (fun r => Inv P.key r.1 ∧ Holds P.key r.1 (specStep P.key F op).1 ∧
      r.2 = (specStep P.key F op).2) (step P m op)
  | _, P, _, _, h, hF, .set k v => sat_bind (set_sat P h hF) fun _ hm => ⟨hm.1, hm.2, rfl⟩
  | _, P, _, _, h, hF, .add k d =>
      sat_bind (add_sat h hF) fun _ hr => ⟨hr.1, hr.2.2, congrArg Result.value hr.2.1⟩
  | _, P, _, _, h, hF, .remove k =>
      sat_bind (remove_sat P h hF) fun _ hr => ⟨hr.1, hr.2.1, congrArg Result.bool hr.2.2⟩
  | _, P, _, _, h, hF, .getOr k default =>
      sat_bind (getOr_sat P h hF) fun _ hv => ⟨h, hF, congrArg Result.value hv⟩
  | _, P, _, _, h, hF, .find k =>
      sat_bind (find_sat P h hF) fun _ ho => ⟨h, hF, congrArg Result.option ho⟩
  | _, P, _, _, h, hF, .has k =>
      sat_bind (has_sat P h hF) fun _ hb => ⟨h, hF, congrArg Result.bool hb⟩
  | _, P, m, F, h, hF, .count => by
      refine ⟨h, hF, congrArg Result.num ?_⟩
      rw [← count_eq h hF, BitVec.ofNat_toNat, BitVec.setWidth_eq]

/-- A run from a map that holds `F`, step by step. -/
theorem run_sat (P : Params K V σ) : ∀ (ops : List (Op K V)) (m : Map K V σ)
    (F : P.key.Model V), Inv P.key m → Holds P.key m F →
      (run P m ops).1 <+: (specRun P.key F ops).1 ∧
      Sat (fun m' => (run P m ops).1 = (specRun P.key F ops).1 ∧ Inv P.key m' ∧
        Holds P.key m' (specRun P.key F ops).2) (run P m ops).2
  | [], m, F, h, hF => ⟨List.prefix_rfl, rfl, h, hF⟩
  | op :: ops, m, F, h, hF => by
      have hstep := step_sat P h hF op
      rw [run, specRun]
      cases hs : step P m op with
      | done r =>
        obtain ⟨m', r⟩ := r
        rw [hs] at hstep
        obtain ⟨hinv, hholds, hr⟩ := hstep
        obtain ⟨hpre, hsat⟩ := run_sat P ops m' _ hinv hholds
        subst hr
        exact ⟨List.cons_prefix_cons.mpr ⟨rfl, hpre⟩,
          hsat.mono fun m'' hm => ⟨congrArg _ hm.1, hm.2⟩⟩
      | stop => exact ⟨List.nil_prefix, trivial⟩
      | outOfFuel =>
        rw [hs] at hstep
        exact hstep.elim

/-- `cmp`'s hash of an `i32`: murmur3's finalizer. -/
def mix (k : BitVec 32) : BitVec 32 :=
  let h := k ^^^ (k >>> 16)
  let h := h * 2246822507#32
  let h := h ^^^ (h >>> 13)
  let h := h * 3266489909#32
  h ^^^ (h >>> 16)

end Aipl.StdMap
