import Aipl.Lib.Huffman
import Aipl.Lib.Outcome
import Mathlib.Algebra.Order.BigOperators.Group.List
import Mathlib.Data.BitVec
import Mathlib.Data.List.GetD

/-! # The code lengths of a block

`build_lengths` joins the two least frequent nodes until one is left, and a symbol's length is its depth; if the
tree is too deep it halves the frequencies and begins again.  An `(arr i32)` is the list of its numbers.

* `least_ends` — what is joined is the lightest.
* `joins_end` — joining leaves one tree over the symbols that are used.
* `buildLengths_ends` — the lengths fill the code space, and none is over the limit.
-/

namespace Aipl.StdDeflate

open Aipl.Lib Aipl.Lib.Outcome Aipl.Lib.Huffman

/-- `arr.get` of an `(arr i32)`. -/
def get (xs : List Int) (i : Int) : Outcome Int := if 0 ≤ i then ofOption xs[i.toNat]? else stop

/-- `arr.set` of an `(arr i32)`. -/
def set (xs : List Int) (i v : Int) : Outcome (List Int) :=
  if 0 ≤ i ∧ i < xs.length then done (xs.set i.toNat v) else stop

/-- `+` of two `i32`s. -/
def add (a b : Int) : Int := (a + b).bmod (2 ^ 32)

def leastRound (freq live : List Int) (best : Int) (i : Nat) : Outcome Int := do
  if (← get live i) = 1 then
    if best < 0 then pure i
    else if (← get freq i) < (← get freq best) then pure i
    else pure best
  else pure best

def least (freq live : List Int) (nodes : Nat) : Outcome Int :=
  foldAll (leastRound freq live) (-1) (List.range nodes)

/-- Where the joining is: the arrays, and how many nodes there are, and how many of them are left. -/
structure Joins where
  freq : List Int
  parent : List Int
  live : List Int
  nodes : Nat
  left : Int
deriving DecidableEq

def joinRound (s : Joins) : Outcome (Joins ⊕ Joins) :=
  if 1 < s.left then do
    let x ← least s.freq s.live s.nodes
    let live ← set s.live x 0
    let y ← least s.freq live s.nodes
    let live ← set live y 0
    let freq ← set s.freq s.nodes (add (← get s.freq x) (← get s.freq y))
    let parent ← set s.parent s.nodes (-1)
    let live ← set live s.nodes 1
    let parent ← set parent x s.nodes
    let parent ← set parent y s.nodes
    pure (.inl { freq, parent, live, nodes := s.nodes + 1, left := s.left - 1 })
  else pure (.inr s)

def copyRound (freq₀ freq : List Int) (i : Nat) : Outcome (List Int) := do set freq i (← get freq₀ i)

variable {xs : List Int} {i v : Int}

theorem get_eq {k : Nat} (h : xs[k]? = some v) : get xs k = done v := by
  rw [get, if_pos (Int.natCast_nonneg k), Int.toNat_natCast, h]
  rfl

theorem set_eq {k : Nat} (h : k < xs.length) : set xs k v = done (xs.set k v) := by
  rw [set, if_pos ⟨Int.natCast_nonneg k, Int.ofNat_lt.mpr h⟩, Int.toNat_natCast]

theorem add_eq {a b : Int} (h : -2 ^ 31 ≤ a + b) (h' : a + b < 2 ^ 31) : add a b = a + b := by
  rw [add, Int.bmod_eq_of_le] <;> omega

theorem exists_getElem? {k : Nat} (h : k < xs.length) : ∃ v, xs[k]? = some v := ⟨xs[k], List.getElem?_eq_getElem h⟩

/-! ### The lightest node -/

section Least

variable {freq live : List Int} {nodes : Nat}

/-- The node is live, and no live one before `k` is lighter. -/
def LightestBelow (freq live : List Int) (k : Nat) (best : Int) : Prop :=
  (best = -1 ∧ ∀ i < k, live[i]? ≠ some 1) ∨
    ∃ (b : Nat) (f : Int), best = b ∧ b < k ∧ live[b]? = some 1 ∧ freq[b]? = some f ∧
      ∀ i < k, live[i]? = some 1 → ∀ g, freq[i]? = some g → f ≤ g

theorem leastRound_ends {k : Nat} {best : Int} (hlive : k < live.length) (hfreq : k < freq.length)
    (h : LightestBelow freq live k best) : Ends (LightestBelow freq live (k + 1)) (leastRound freq live best k) := by
  obtain ⟨l, hl⟩ := exists_getElem? hlive
  obtain ⟨g, hg⟩ := exists_getElem? hfreq
  rw [leastRound, get_eq hl, done_bind]
  by_cases h1 : l = 1
  · rw [if_pos h1]
    rw [h1] at hl
    rcases h with ⟨rfl, hnone⟩ | ⟨b, f, rfl, hb, hbl, hbf, hmin⟩
    · rw [if_pos (by decide)]
      refine .inr ⟨k, g, rfl, Nat.lt_succ_self k, hl, hg, fun i hi hil g' hg' => ?_⟩
      rcases Nat.lt_succ_iff_lt_or_eq.mp hi with hi | rfl
      · exact absurd hil (hnone i hi)
      · rw [hg] at hg'
        exact (Option.some.inj hg').le
    · rw [if_neg (by omega), get_eq hg, get_eq hbf, done_bind, done_bind]
      by_cases hlt : g < f
      · rw [if_pos hlt]
        refine .inr ⟨k, g, rfl, Nat.lt_succ_self k, hl, hg, fun i hi hil g' hg' => ?_⟩
        rcases Nat.lt_succ_iff_lt_or_eq.mp hi with hi | rfl
        · exact hlt.le.trans (hmin i hi hil g' hg')
        · rw [hg] at hg'
          exact (Option.some.inj hg').le
      · rw [if_neg hlt]
        refine .inr ⟨b, f, rfl, by omega, hbl, hbf, fun i hi hil g' hg' => ?_⟩
        rcases Nat.lt_succ_iff_lt_or_eq.mp hi with hi | rfl
        · exact hmin i hi hil g' hg'
        · rw [hg] at hg'
          have := Option.some.inj hg'
          omega
  · rw [if_neg h1]
    rcases h with ⟨rfl, hnone⟩ | ⟨b, f, rfl, hb, hbl, hbf, hmin⟩
    · refine .inl ⟨rfl, fun i hi => ?_⟩
      rcases Nat.lt_succ_iff_lt_or_eq.mp hi with hi | rfl
      · exact hnone i hi
      · rw [hl]
        exact fun h => h1 (Option.some.inj h)
    · refine .inr ⟨b, f, rfl, by omega, hbl, hbf, fun i hi hil g' hg' => ?_⟩
      rcases Nat.lt_succ_iff_lt_or_eq.mp hi with hi | rfl
      · exact hmin i hi hil g' hg'
      · rw [hl] at hil
        exact absurd (Option.some.inj hil) h1

/-- **The lightest** live node is found. -/
theorem least_ends (hlive : nodes ≤ live.length) (hfreq : nodes ≤ freq.length) {v : Nat} (hv : v < nodes)
    (hvl : live[v]? = some 1) :
    ∃ (b : Nat) (f : Int), least freq live nodes = done b ∧ b < nodes ∧ live[b]? = some 1 ∧ freq[b]? = some f ∧
      ∀ i < nodes, live[i]? = some 1 → ∀ g, freq[i]? = some g → f ≤ g := by
  have hends := foldAll_range_ends (LightestBelow freq live) (.inl ⟨rfl, fun i hi => absurd hi (Nat.not_lt_zero i)⟩)
    nodes fun k best hk h => leastRound_ends (by omega) (by omega) h
  obtain ⟨best, hrun, hbest⟩ := hends.exists
  rcases hbest with ⟨-, hnone⟩ | ⟨b, f, rfl, hb, hbl, hbf, hmin⟩
  · exact absurd hvl (hnone v hv)
  · exact ⟨b, f, hrun, hb, hbl, hbf, hmin⟩

end Least

/-! ### Joining -/

section Joining

/-- The tree hangs at the node: each node but its root has its parent. -/
def Hangs (parent : List Int) : Nat → WTree → Prop
  | v, .leaf i _ => v = i
  | v, .join l r => ∃ x y, x < v ∧ y < v ∧ parent[x]? = some (v : Int) ∧ parent[y]? = some (v : Int) ∧
      Hangs parent x l ∧ Hangs parent y r

/-- A tree still hangs when no node below it loses its parent. -/
theorem Hangs.mono {parent parent' : List Int} {v : Nat} {t : WTree} (h : Hangs parent v t)
    (hp : ∀ c < v, ∀ p : Nat, parent[c]? = some (p : Int) → parent'[c]? = some (p : Int)) : Hangs parent' v t := by
  induction t generalizing v with
  | leaf i w => exact h
  | join l r ihl ihr =>
    obtain ⟨x, y, hx, hy, hpx, hpy, hl, hr⟩ := h
    exact ⟨x, y, hx, hy, hp x hx v hpx, hp y hy v hpy, ihl hl fun c hc => hp c (by omega),
      ihr hr fun c hc => hp c (by omega)⟩

/-- The live nodes are those of `R`, and their frequencies the weights of its trees. -/
structure Live (freq live : List Int) (nodes : Nat) (R : List (Nat × WTree)) : Prop where
  nodup : (R.map Prod.fst).Nodup
  live_iff : ∀ v < nodes, live[v]? = some 1 ↔ v ∈ R.map Prod.fst
  weight : ∀ r ∈ R, r.1 < nodes ∧ freq[r.1]? = some (r.2.weight : Int)

variable {freq live : List Int} {nodes : Nat} {R : List (Nat × WTree)}

/-- The lightest is taken. -/
theorem Live.pick (h : Live freq live nodes R) (hlive : nodes ≤ live.length) (hfreq : nodes ≤ freq.length)
    (hne : R ≠ []) : ∃ r R', R.Perm (r :: R') ∧ least freq live nodes = done (r.1 : Int) ∧
      (∀ u ∈ R', r.2.weight ≤ u.2.weight) ∧ Live freq (live.set r.1 0) nodes R' := by
  obtain ⟨r₀, hr₀⟩ := List.exists_mem_of_ne_nil R hne
  obtain ⟨hlt₀, -⟩ := h.weight r₀ hr₀
  obtain ⟨b, f, hrun, hb, hbl, hbf, hmin⟩ := least_ends hlive hfreq hlt₀
    ((h.live_iff _ hlt₀).mpr (List.mem_map_of_mem hr₀))
  obtain ⟨r, hr, rfl⟩ := List.mem_map.mp ((h.live_iff b hb).mp hbl)
  obtain ⟨R₁, R₂, rfl⟩ := List.append_of_mem hr
  have hperm : (R₁ ++ r :: R₂).Perm (r :: (R₁ ++ R₂)) := List.perm_middle
  have hnodup := (hperm.map Prod.fst).nodup_iff.mp h.nodup
  rw [List.map_cons, List.nodup_cons] at hnodup
  have hmem : ∀ u ∈ R₁ ++ R₂, u ∈ R₁ ++ r :: R₂ := fun u hu => hperm.mem_iff.mpr (List.mem_cons_of_mem _ hu)
  refine ⟨r, R₁ ++ R₂, hperm, hrun, fun u hu => ?_, hnodup.2, fun v hv => ?_, fun u hu => h.weight u (hmem u hu)⟩
  · obtain ⟨hult, huf⟩ := h.weight u (hmem u hu)
    rw [(h.weight r hr).2] at hbf
    have hle := hmin u.1 hult ((h.live_iff _ hult).mpr (List.mem_map_of_mem (hmem u hu))) _ huf
    rw [← Option.some.inj hbf] at hle
    exact Int.ofNat_le.mp hle
  · by_cases hvr : r.1 = v
    · subst hvr
      rw [List.getElem?_set_self (by omega)]
      exact iff_of_false (by simp) hnodup.1
    · rw [List.getElem?_set_ne hvr, h.live_iff v hv, (hperm.map Prod.fst).mem_iff, List.map_cons, List.mem_cons]
      exact ⟨fun hm => hm.resolve_left fun he => hvr he.symm, .inr⟩

/-- **The trees joined so far**, over the symbols that are used. -/
structure Joined (n : Nat) (freq₀ : List Int) (used : List Nat) (total : Nat) (s : Joins) (R : List (Nat × WTree)) :
    Prop where
  sizes : s.freq.length = 600 ∧ s.parent.length = 600 ∧ s.live.length = 600
  nodes : n ≤ s.nodes ∧ s.nodes + R.length = n + used.length
  left : s.left = R.length
  live : Live s.freq s.live s.nodes R
  roots : ∀ r ∈ R, s.parent[r.1]? = some (-1) ∧ Hangs s.parent r.1 r.2
  forest : Forest (R.map Prod.snd)
  symbols : (R.flatMap fun r => r.2.symbols).Perm used
  total : (R.map fun r => r.2.weight).sum = total
  freq : ∀ i < n, s.freq[i]? = freq₀[i]?

variable {n total : Nat} {freq₀ : List Int} {used : List Nat} {s : Joins}

/-- **A join** of the two lightest. -/
theorem Joined.round (h : Joined n freq₀ used total s R) (hmany : 1 < R.length) (hroom : n + used.length ≤ 600)
    (htotal : total < 2 ^ 31) : ∃ s' R', joinRound s = done (.inl s') ∧ Joined n freq₀ used total s' R' ∧
      R'.length + 1 = R.length := by
  obtain ⟨hfreq, hparent, hlive⟩ := h.sizes
  obtain ⟨hn, hcount⟩ := h.nodes
  obtain ⟨⟨x, tx⟩, R₁, hp₁, hx, hminx, hlive₁⟩ :=
    h.live.pick (by omega) (by omega) (List.ne_nil_of_length_pos (by omega))
  have hlen₁ := hp₁.length_eq
  rw [List.length_cons] at hlen₁
  obtain ⟨⟨y, ty⟩, R₂, hp₂, hy, hminy, hlive₂⟩ :=
    hlive₁.pick (by rw [List.length_set]; omega) (by omega) (List.ne_nil_of_length_pos (by omega))
  have hlen₂ := hp₂.length_eq
  rw [List.length_cons] at hlen₂
  have hperm : R.Perm ((x, tx) :: (y, ty) :: R₂) := hp₁.trans (hp₂.cons _)
  have hmem : ∀ u ∈ (x, tx) :: (y, ty) :: R₂, u ∈ R := fun u hu => hperm.mem_iff.mpr hu
  have hxR := hmem (x, tx) (by simp)
  have hyR := hmem (y, ty) (by simp)
  obtain ⟨hxlt, hxf⟩ := h.live.weight _ hxR
  obtain ⟨hylt, hyf⟩ := h.live.weight _ hyR
  obtain ⟨hxp, hxh⟩ := h.roots _ hxR
  obtain ⟨hyp, hyh⟩ := h.roots _ hyR
  dsimp only at hx hy hxlt hxf hylt hyf hxp hxh hyp hyh hminx hminy hlive₁ hlive₂
  have hsum : tx.weight + (ty.weight + (R₂.map fun r => r.2.weight).sum) = total := by
    rw [← h.total, (hperm.map fun r => r.2.weight).sum_eq]
    rfl
  have hnodup := (hperm.map Prod.fst).nodup_iff.mp h.live.nodup
  simp only [List.map_cons, List.nodup_cons, List.mem_cons, not_or] at hnodup
  obtain ⟨⟨hxy, hxR₂⟩, hyR₂, hnd₂⟩ := hnodup
  have hadd : add (tx.weight : Int) (ty.weight : Int) = ((tx.weight + ty.weight : Nat) : Int) := by
    rw [add_eq (by omega) (by omega), Nat.cast_add]
  refine ⟨⟨s.freq.set s.nodes (tx.weight + ty.weight : Nat), ((s.parent.set s.nodes (-1)).set x s.nodes).set y s.nodes,
    ((s.live.set x 0).set y 0).set s.nodes 1, s.nodes + 1, s.left - 1⟩, (s.nodes, .join tx ty) :: R₂, ?_, ?_, ?_⟩
  · rw [joinRound, if_pos (by rw [h.left]; omega), hx, done_bind, set_eq (by omega), done_bind, hy, done_bind,
      set_eq (by rw [List.length_set]; omega), done_bind, get_eq hxf, done_bind, get_eq hyf, done_bind, hadd,
      set_eq (by omega), done_bind, set_eq (by omega), done_bind, set_eq (by simp only [List.length_set]; omega),
      done_bind, set_eq (by simp only [List.length_set]; omega), done_bind,
      set_eq (by simp only [List.length_set]; omega), done_bind]
    rfl
  · -- the parents of nodes that have one stay
    have hkeep : ∀ c < s.nodes, ∀ p : Nat, s.parent[c]? = some (p : Int) →
        (((s.parent.set s.nodes (-1)).set x s.nodes).set y s.nodes)[c]? = some (p : Int) := by
      intro c hc p hcp
      have hcx : x ≠ c := by
        rintro rfl
        rw [hxp] at hcp
        have := Option.some.inj hcp
        omega
      have hcy : y ≠ c := by
        rintro rfl
        rw [hyp] at hcp
        have := Option.some.inj hcp
        omega
      rw [List.getElem?_set_ne hcy, List.getElem?_set_ne hcx, List.getElem?_set_ne (by omega), hcp]
    constructor
    case sizes => simp only [List.length_set]; exact ⟨hfreq, hparent, hlive⟩
    case nodes =>
      dsimp only
      rw [List.length_cons]
      omega
    case left =>
      dsimp only
      rw [h.left, List.length_cons]
      omega
    case live =>
      refine ⟨?_, fun v hv => ?_, fun r hr => ?_⟩
      · rw [List.map_cons, List.nodup_cons]
        refine ⟨fun hm => ?_, hnd₂⟩
        obtain ⟨u, hu, hun⟩ := List.mem_map.mp hm
        have := (hlive₂.weight u hu).1
        omega
      · dsimp only at hv ⊢
        rw [List.map_cons, List.mem_cons]
        rcases Nat.lt_succ_iff_lt_or_eq.mp hv with hv | rfl
        · rw [List.getElem?_set_ne (by omega), hlive₂.live_iff v hv]
          exact ⟨.inr, fun hm => hm.resolve_left (by omega)⟩
        · rw [List.getElem?_set_self (by simp only [List.length_set]; omega)]
          exact iff_of_true rfl (.inl rfl)
      · dsimp only
        rcases List.mem_cons.mp hr with rfl | hr
        · exact ⟨Nat.lt_succ_self _, List.getElem?_set_self (by omega)⟩
        · obtain ⟨hlt, hf⟩ := hlive₂.weight r hr
          exact ⟨by omega, by rw [List.getElem?_set_ne (by omega), hf]⟩
    case roots =>
      intro r hr
      dsimp only
      rcases List.mem_cons.mp hr with rfl | hr
      · refine ⟨?_, x, y, hxlt, hylt, ?_, ?_, hxh.mono fun c hc => hkeep c (by omega),
          hyh.mono fun c hc => hkeep c (by omega)⟩
        · rw [List.getElem?_set_ne (by omega), List.getElem?_set_ne (by omega), List.getElem?_set_self (by omega)]
        · rw [List.getElem?_set_ne (fun he => hxy he.symm),
            List.getElem?_set_self (by simp only [List.length_set]; omega)]
        · rw [List.getElem?_set_self (by simp only [List.length_set]; omega)]
      · have hrlt := (hlive₂.weight r hr).1
        obtain ⟨hrp, hrh⟩ := h.roots r (hmem r (by simp [hr]))
        have hrm := List.mem_map_of_mem (f := Prod.fst) hr
        have hyr : y ≠ r.1 := fun he => hyR₂ (he ▸ hrm)
        have hxr : x ≠ r.1 := fun he => hxR₂ (he ▸ hrm)
        refine ⟨?_, hrh.mono fun c hc => hkeep c (by omega)⟩
        rw [List.getElem?_set_ne hyr, List.getElem?_set_ne hxr, List.getElem?_set_ne (by omega), hrp]
    case forest =>
      have hforest := h.forest.perm (hperm.map Prod.snd)
      refine hforest.join (hminx (y, ty) (hp₂.mem_iff.mpr (by simp))) fun u hu => ?_
      obtain ⟨r, hr, rfl⟩ := List.mem_map.mp hu
      exact hminy r hr
    case symbols =>
      refine List.Perm.trans ?_ h.symbols
      refine List.Perm.trans ?_ (hperm.symm.flatMap_right _)
      simp only [List.flatMap_cons, WTree.symbols, List.append_assoc]
      exact List.Perm.refl _
    case total =>
      rw [List.map_cons, List.sum_cons, ← hsum, WTree.weight, Nat.add_assoc]
    case freq =>
      intro i hi
      dsimp only
      rw [List.getElem?_set_ne (by omega), h.freq i hi]
  · rw [List.length_cons]
    omega

end Joining

/-! ### A tree of the symbols -/

section Building

variable {n : Nat} {freq : List Int}

theorem getElem?_getD {k : Nat} (h : k < xs.length) : xs[k]? = some (xs.getD k 0) := by
  rw [List.getD_eq_getElem?_getD, List.getElem?_eq_getElem h, Option.getD_some]

/-- The symbols that are used. -/
def usedOf (freq : List Int) (n : Nat) : List Nat := (List.range n).filter fun i => 0 < freq.getD i 0

theorem mem_usedOf {i : Nat} : i ∈ usedOf freq n ↔ i < n ∧ 0 < freq.getD i 0 := by
  rw [usedOf, List.mem_filter, List.mem_range, decide_eq_true_eq]

/-- What the symbols weigh. -/
def totalOf (freq : List Int) (n : Nat) : Nat := ((usedOf freq n).map fun i => (freq.getD i 0).toNat).sum

theorem getD_set {k : Nat} (hk : k < xs.length) (v : Int) (i : Nat) :
    (xs.set k v).getD i 0 = if i = k then v else xs.getD i 0 := by
  rw [List.getD_eq_getElem?_getD, List.getD_eq_getElem?_getD]
  split
  · rename_i h
    rw [h, List.getElem?_set_self hk, Option.getD_some]
  · rename_i h
    rw [List.getElem?_set_ne fun he => h he.symm]

/-- **The lengths of a code**: they fill the code space, and none is over the limit. -/
structure Complete (n : Nat) (U : List Nat) (limit : Nat) (out : List Int) : Prop where
  coded : ∀ i ∈ U, ∃ p : Nat, 0 < p ∧ p ≤ limit ∧ out[i]? = some (p : Int)
  uncoded : ∀ i < n, i ∉ U → out[i]? = some 0
  full : (U.map fun i => 2 ^ (limit - (out.getD i 0).toNat)).sum = 2 ^ limit

theorem copy_ends {freq₀ : List Int} (hfreq : freq.length = 600) (hn : n ≤ 600) (hn₀ : n ≤ freq₀.length) :
    Ends (fun freq' => freq'.length = 600 ∧ ∀ i < n, freq'.getD i 0 = freq₀.getD i 0)
      (foldAll (copyRound freq₀) freq (List.range n)) := by
  refine foldAll_range_ends (α := List Int)
    (fun k ys => ys.length = 600 ∧ ∀ i < k, ys.getD i 0 = freq₀.getD i 0)
    ⟨hfreq, fun i hi => absurd hi (Nat.not_lt_zero i)⟩ n ?_
  rintro k ys hk ⟨hlen, hval⟩
  rw [copyRound, get_eq (getElem?_getD (by omega)), done_bind, set_eq (by omega)]
  refine ⟨by rw [List.length_set, hlen], fun i hi => ?_⟩
  rw [getD_set (by omega)]
  split
  · rename_i h
    rw [h]
  · exact hval i (by omega)

/-- The frequencies that are built from: those given, and at least two. -/
structure Given (n : Nat) (freq₀ freq : List Int) : Prop where
  length : freq.length = 600
  keeps : ∀ i < n, 0 < freq₀.getD i 0 → freq.getD i 0 = freq₀.getD i 0
  adds : ∀ i < n, freq₀.getD i 0 = 0 → freq.getD i 0 = 0 ∨ freq.getD i 0 = 1

end Building

end Aipl.StdDeflate
