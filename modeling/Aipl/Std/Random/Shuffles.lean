import Aipl.Lib.Swaps
import Aipl.Std.Random.Below

/-! # Shuffles and samples

Whatever is drawn, within the bounds that are asked for, a shuffle leaves a permutation, and a sample takes elements of
places of its own.

* `Bounded` — draws that end within their bounds, as `below_bounded` says those of `below` do.
* `shuffle_eq` — a shuffle is the swaps of its draws.
* `sample_endsOr` — a sample's elements, and their places.
* `random_exact` — these, and the bounded numbers.
-/

namespace Aipl.StdRandom

open Aipl.Lib Aipl.Lib.Outcome Aipl.Lib.Swaps Aipl.Lib.Wasm Aipl.Std

variable {σ ρ T : Type} {draw : ρ → BitVec 32 → Outcome (BitVec 32 × ρ)} {r r' : ρ} {xs pool out : List T} {i j : BitVec 32}
  {n fuel : Nat}

/-- Draws that end, with a number below the bound. -/
def Bounded (draw : ρ → BitVec 32 → Outcome (BitVec 32 × ρ)) : Prop :=
  ∀ r b, b ≠ 0#32 → Ends (fun s => s.1.toNat < b.toNat) (draw r b)

theorem below_bounded (hfuel : 2 ^ 64 ≤ fuel) : Bounded (below fuel) := fun r _ hb => below_ends r hb hfuel

theorem ofNat_ne_zero {n : Nat} (h0 : 0 < n) (hn : n < 2 ^ 32) : BitVec.ofNat 32 n ≠ 0#32 := by
  intro h
  have hnat := congrArg BitVec.toNat h
  rw [toNat_ofNat_of_lt hn] at hnat
  exact absurd hnat h0.ne'

theorem swapAt_eq (hi : i.toNat < xs.length) (hj : j.toNat < xs.length) : swapAt xs i j = done (swap xs i.toNat j.toNat) := by
  have hx := List.getElem?_eq_getElem hi
  have hy := List.getElem?_eq_getElem hj
  rw [swapAt, arrGet_eq hx, done_bind, arrGet_eq hy, done_bind, arrSet_eq hi, done_bind, arrSet_eq (by rwa [List.length_set]),
    swap_eq hx hy]

/-! ### Shuffles -/

/-- What is drawn for the places below `n`, from the last one down. -/
inductive Drawn (draw : ρ → BitVec 32 → Outcome (BitVec 32 × ρ)) : Nat → ρ → List Nat → ρ → Prop
  | none {n : Nat} {r : ρ} (h : n ≤ 1) : Drawn draw n r [] r
  | next {n : Nat} {r r' r'' : ρ} {j : BitVec 32} {js : List Nat} (h : draw r (BitVec.ofNat 32 (n + 2)) = done (j, r'))
      (rest : Drawn draw (n + 1) r' js r'') : Drawn draw (n + 2) r (j.toNat :: js) r''

/-- Draws within their bounds. -/
theorem exists_drawn (hdraw : Bounded draw) : ∀ n < 2 ^ 32, ∀ r, ∃ js r', Draws n js ∧ Drawn draw n r js r'
  | 0, _, r => ⟨[], r, rfl, .none (by decide)⟩
  | 1, _, r => ⟨[], r, rfl, .none (by decide)⟩
  | n + 2, hn, r => by
      obtain ⟨⟨j, r'⟩, hj, hlt⟩ := (hdraw r _ (ofNat_ne_zero (Nat.succ_pos _) hn)).exists
      obtain ⟨js, r'', hjs, hdrawn⟩ := exists_drawn hdraw (n + 1) (by omega) r'
      rw [toNat_ofNat_of_lt hn] at hlt
      exact ⟨j.toNat :: js, r'', ⟨hlt, hjs⟩, .next hj hdrawn⟩

theorem shuffleLoop_eq {js : List Nat} (h : Drawn draw n r js r') : Draws n js → ∀ (xs : List T) (fuel : Nat), n ≤ xs.length →
    xs.length < 2 ^ 31 → n < fuel →
    iterate (shuffleRound draw) fuel (BitVec.ofNat 32 n - 1#32, xs, r) = done (shuffled n js xs, r') := by
  induction h with
  | @none n r hn =>
    rintro - xs (_ | fuel) hle hlen hfuel
    · exact absurd hfuel (Nat.not_lt_zero _)
    · have hdone : (0#32).slt (BitVec.ofNat 32 n - 1#32) = false := by
        rcases Nat.le_one_iff_eq_zero_or_eq_one.mp hn with rfl | rfl <;> decide
      have hshuffled : shuffled n [] xs = xs := by
        rcases Nat.le_one_iff_eq_zero_or_eq_one.mp hn with rfl | rfl <;> rfl
      rw [iterate, shuffleRound]
      dsimp only
      rw [hdone, hshuffled]
      rfl
  | @next n r r' r'' j js hj hrest ih =>
    rintro ⟨hlt, hjs⟩ xs (_ | fuel) hle hlen hfuel
    · exact absurd hfuel (Nat.not_lt_zero _)
    · have hplace : BitVec.ofNat 32 (n + 2) - 1#32 = BitVec.ofNat 32 (n + 1) := by
        rw [show n + 2 = n + 1 + 1 from rfl, BitVec.ofNat_add, BitVec.add_sub_cancel]
      have hnat : (BitVec.ofNat 32 (n + 1)).toNat = n + 1 := toNat_ofNat_of_lt (by omega)
      have hpos : (0#32).slt (BitVec.ofNat 32 (n + 1)) = true := by
        rw [slt_iff (by decide) (by omega), hnat]
        exact Nat.succ_pos n
      have hbound : BitVec.ofNat 32 (n + 1) + 1#32 = BitVec.ofNat 32 (n + 2) := (BitVec.ofNat_add ..).symm
      have hswap : swapAt xs (BitVec.ofNat 32 (n + 1)) j = done (swap xs (n + 1) j.toNat) := by
        rw [swapAt_eq (by omega) (by omega), hnat]
      rw [iterate, shuffleRound, hplace]
      dsimp only
      rw [if_pos hpos, hbound, hj, done_bind]
      dsimp only
      rw [hswap, done_bind]
      exact ih hjs (swap xs (n + 1) j.toNat) fuel (by rw [length_swap]; omega) (by rwa [length_swap]) (by omega)

/-- **A shuffle** is the swaps of its draws. -/
theorem shuffle_eq {js : List Nat} (h : Drawn draw xs.length r js r') (hjs : Draws xs.length js) (hlen : xs.length < 2 ^ 31)
    (hfuel : xs.length < fuel) : shuffle draw fuel r xs = done (shuffled xs.length js xs, r') :=
  shuffleLoop_eq h hjs xs fuel le_rfl hlen hfuel

/-- The elements, by their places. -/
theorem map_some_eq (xs : List T) : xs.map some = (List.range xs.length).map (xs[·]?) := by
  refine List.ext_getElem (by simp) fun i h₁ h₂ => ?_
  simp only [List.length_map] at h₁
  simp [h₁]

theorem shuffled_places (js : List Nat) (xs : List T) :
    (shuffled xs.length js xs).map some = (shuffled xs.length js (List.range xs.length)).map (xs[·]?) := by
  rw [map_shuffled, map_shuffled, map_some_eq]

/-! ### Samples -/

/-- The pool and what is taken of it after `i` draws: places permuted, and the elements of the first `i` of them. -/
structure Taken (xs : List T) (k i : Nat) (s : List T × List T × ρ) : Prop where
  room : s.2.1.length = k
  places : ∃ ps : List Nat, ps.Perm (List.range xs.length) ∧ s.1.map some = ps.map (xs[·]?) ∧
    (s.2.1.take i).map some = (ps.take i).map (xs[·]?)

theorem take_swap (l : List T) {i j : Nat} (h : i ≤ j) : (swap l i j).take i = l.take i := by
  refine List.ext_getElem? fun m => ?_
  rw [List.getElem?_take, List.getElem?_take]
  split
  · exact getElem?_swap_of_ne (by omega) (by omega)
  · rfl

theorem sampleRound_ends (hdraw : Bounded draw) {k m : Nat} {s : List T × List T × ρ} (hk : k ≤ xs.length)
    (hlen : xs.length < 2 ^ 31) (hm : m < k) (h : Taken xs k m s) :
    Ends (Taken xs k (m + 1)) (sampleRound draw (arrLen xs) (BitVec.ofNat 32 m) s) := by
  obtain ⟨pool, out, r⟩ := s
  obtain ⟨hroom, ps, hperm, hpool, htaken⟩ := h
  dsimp only at hroom hpool htaken
  have hnat : (BitVec.ofNat 32 m).toNat = m := toNat_ofNat_of_lt (by omega)
  have hbound : (arrLen xs - BitVec.ofNat 32 m).toNat = xs.length - m := by
    rw [BitVec.toNat_sub_of_le (by rw [BitVec.le_def, hnat, toNat_arrLen (by omega)]; omega), hnat, toNat_arrLen (by omega)]
  have hne : arrLen xs - BitVec.ofNat 32 m ≠ 0#32 := fun h0 => by
    rw [h0] at hbound
    simp only [BitVec.toNat_ofNat] at hbound
    omega
  have hpoolLen : pool.length = xs.length := by
    have hlength := congrArg List.length hpool
    rwa [List.length_map, List.length_map, hperm.length_eq, List.length_range] at hlength
  rw [sampleRound]
  dsimp only
  refine ends_bind (hdraw r _ hne) ?_
  rintro ⟨j, r'⟩ hj
  dsimp only at hj ⊢
  rw [hbound] at hj
  have hplace : (BitVec.ofNat 32 m + j).toNat = m + j.toNat := by
    rw [BitVec.toNat_add, hnat, Nat.mod_eq_of_lt (by omega)]
  have hget : (swap pool m (m + j.toNat))[(BitVec.ofNat 32 m).toNat]? = pool[m + j.toNat]? := by
    rw [hnat, getElem?_swap_left (by omega) (by omega)]
  have hsome : pool[m + j.toNat]? = some (pool[m + j.toNat]) := List.getElem?_eq_getElem (by omega)
  rw [swapAt_eq (by omega) (by omega), done_bind, hplace, hnat, arrGet_eq (hget.trans hsome), done_bind,
    arrSet_eq (by omega), done_bind, hnat]
  refine ⟨by rw [List.length_set]; exact hroom, swap ps m (m + j.toNat), (swap_perm ..).trans hperm, ?_, ?_⟩
  · rw [map_swap, map_swap, hpool]
  · have hps : ps.length = xs.length := by rw [hperm.length_eq, List.length_range]
    have hlast : (swap ps m (m + j.toNat))[m]?.map (xs[·]?) = some (some (pool[m + j.toNat])) := by
      rw [getElem?_swap_left (by omega) (by omega), ← List.getElem?_map, ← hpool, List.getElem?_map, hsome]
      rfl
    obtain ⟨p, hp, hpx⟩ := Option.map_eq_some_iff.mp hlast
    rw [List.take_add_one, List.take_add_one, List.map_append, List.map_append, List.getElem?_set_self (by omega), hp,
      take_swap ps (Nat.le_add_right _ _), ← htaken, List.take_set_of_le (Nat.le_refl m)]
    simp [hpx]

/-- The memory that a sample asks for. -/
def Roomy (A : Allocator σ) (t : ElemType T) (xs : List T) : Prop :=
  Plentiful A ∧ 0 ≤ t.size.toInt ∧ (xs.length : Int) * t.size.toInt + 8 < 2 ^ 31

theorem copyRound_ends {m : Nat} (hlen : xs.length < 2 ^ 31) (hm : m < xs.length)
    (h : pool.length = xs.length ∧ pool.take m = xs.take m) :
    Ends (fun pool => pool.length = xs.length ∧ pool.take (m + 1) = xs.take (m + 1))
      (do arrSet pool (BitVec.ofNat 32 m) (← arrGet xs (BitVec.ofNat 32 m))) := by
  have hnat : (BitVec.ofNat 32 m).toNat = m := toNat_ofNat_of_lt (by omega)
  have hget : xs[(BitVec.ofNat 32 m).toNat]? = some xs[m] := by
    rw [hnat]
    exact List.getElem?_eq_getElem hm
  obtain ⟨hroom, htaken⟩ := h
  rw [arrGet_eq hget, done_bind, arrSet_eq (by omega), hnat]
  refine ⟨by rw [List.length_set]; exact hroom, ?_⟩
  rw [List.take_add_one, List.take_add_one, List.take_set_of_le (Nat.le_refl m), htaken, List.getElem?_set_self (by omega),
    List.getElem?_eq_getElem hm]

/-- **A sample** is elements of distinct places, unless there is no memory. -/
theorem sample_endsOr (hdraw : Bounded draw) (A : Allocator σ) (t : ElemType T) (heap : σ) (r : ρ) {k : BitVec 32}
    (hlen : xs.length < 2 ^ 31) (hk : k.toNat ≤ xs.length) (hfuel : xs.length < fuel) :
    EndsOr (¬ Roomy A t xs) (fun s => ∃ ps : List Nat, ps.Nodup ∧ ps.length = k.toNat ∧ (∀ p ∈ ps, p < xs.length) ∧
      s.1.map some = ps.map (xs[·]?)) (sample draw A t fuel heap r xs k) := by
  have hnat : (arrLen xs).toNat = xs.length := toNat_arrLen (by omega)
  have hmem : ∀ n : BitVec 32, n.toNat ≤ xs.length →
      ¬ Roomy A t xs ∨ Plentiful A ∧ 0 ≤ n.toInt ∧ 0 ≤ t.size.toInt ∧ n.toInt * t.size.toInt + 8 < 2 ^ 31 := by
    intro n hn
    by_cases hroomy : Roomy A t xs
    · obtain ⟨hA, hsize, hbytes⟩ := hroomy
      have hle : (n.toNat : Int) * t.size.toInt ≤ xs.length * t.size.toInt :=
        Int.mul_le_mul_of_nonneg_right (by exact_mod_cast hn) hsize
      rw [toInt_eq_toNat (by omega)]
      exact .inr ⟨hA, by omega, hsize, by omega⟩
    · exact .inl hroomy
  have hcontract : ((0#32).sle k && k.sle (arrLen xs)) = true := by
    rw [Bool.and_eq_true, sle_iff (by decide) (by omega), sle_iff (by omega) (by omega), hnat]
    exact ⟨Nat.zero_le _, hk⟩
  rw [sample, require, if_pos hcontract, done_bind]
  refine endsOr_bind (array_endsOr (hmem _ hnat.le)) ?_
  rintro ⟨pool, heap₁⟩ ⟨hpool, -⟩
  dsimp only at hpool ⊢
  have hcopied : Ends (fun pool => pool.length = xs.length ∧ pool.take (arrLen xs).toNat = xs.take (arrLen xs).toNat)
      (forLoop fuel 0#32 (arrLen xs) (fun i pool => do arrSet pool i (← arrGet xs i)) pool) :=
    forLoop_range_ends (by omega) (Nat.zero_le _) (by rw [hnat]; exact Nat.lt_add_right _ hfuel)
      (fun (m : Nat) (pool : List T) => pool.length = xs.length ∧ pool.take m = xs.take m) ⟨by rw [hpool, List.length_replicate, hnat], by simp⟩
      (fun m pool _ hm h => copyRound_ends hlen (hnat ▸ hm) h)
  refine endsOr_bind hcopied.endsOr ?_
  rintro pool ⟨hroom, hcopy⟩
  rw [hnat, List.take_length, List.take_of_length_le hroom.le] at hcopy
  subst hcopy
  refine endsOr_bind (array_endsOr (hmem k hk)) ?_
  rintro ⟨out, heap₂⟩ ⟨hout, -⟩
  dsimp only at hout ⊢
  have hstart : Taken pool k.toNat 0 (pool, out, r) :=
    ⟨by rw [hout, List.length_replicate], List.range pool.length, .refl _, map_some_eq pool, by simp⟩
  have htaken : Ends (Taken pool k.toNat k.toNat) (forLoop fuel 0#32 k (sampleRound draw (arrLen pool)) (pool, out, r)) :=
    forLoop_range_ends (by omega) (Nat.zero_le _) (Nat.lt_add_right _ (by omega)) (Taken pool k.toNat) hstart
      (fun m s _ hm h => sampleRound_ends hdraw hk hlen hm h)
  refine endsOr_bind htaken.endsOr ?_
  rintro ⟨pool', out', r'⟩ ⟨hroom', ps, hperm, -, hplaces⟩
  dsimp only at hroom' hplaces ⊢
  refine endsOr_bind (freeArray_endsOr ((hmem k hk).imp_right And.left)) fun _ _ => ?_
  rw [List.take_of_length_le hroom'.le] at hplaces
  have hlength : ps.length = pool.length := by rw [hperm.length_eq, List.length_range]
  refine ⟨ps.take k.toNat, (hperm.nodup_iff.mpr List.nodup_range).sublist (List.take_sublist _ _), ?_, fun p hp => ?_, hplaces⟩
  · rw [List.length_take, hlength]
    exact Nat.min_eq_left hk
  · exact List.mem_range.mp (hperm.mem_iff.mp (List.mem_of_mem_take hp))

/-- **`below`** keeps at least half of all draws, the same number for each result, and returns the result of the first that it
keeps; **`range`** returns a number in the range; **`shuffle`**, whatever is drawn, leaves the permutation of its draws, one for
each sequence of them; **`sample`** returns elements of distinct places. -/
theorem random_exact :
    (∀ b ≠ 0#32, (∀ y < b.toNat, (drawsOf b y).card = 2 ^ 32 / b.toNat) ∧ 2 ^ 31 ≤ (keptDraws b).card ∧
      ∀ (r : Rng) (fuel : Nat), 2 ^ 64 ≤ fuel → ∃ n, Kept b (r.drawn n) ∧ (∀ m < n, ¬ Kept b (r.drawn m)) ∧
        below fuel r b = done (r.drawn n % b, r.after (n + 1))) ∧
    (∀ (r : Rng) (lo hi : BitVec 32) (fuel : Nat), lo.slt hi = true → 2 ^ 64 ≤ fuel →
      Ends (fun s => lo.sle s.1 = true ∧ s.1.slt hi = true) (range fuel r lo hi)) ∧
    (∀ fuel, 2 ^ 64 ≤ fuel → Bounded (below fuel)) ∧
    (∀ (ρ T : Type) (draw : ρ → BitVec 32 → Outcome (BitVec 32 × ρ)), Bounded draw → ∀ (xs : List T) (r : ρ) (fuel : Nat),
      xs.length < 2 ^ 31 → xs.length < fuel → ∃ js r', Draws xs.length js ∧ Drawn draw xs.length r js r' ∧
        shuffle draw fuel r xs = done (shuffled xs.length js xs, r')) ∧
    (∀ (T : Type) (xs : List T) (js : List Nat), (shuffled xs.length js xs).Perm xs ∧
      (shuffled xs.length js xs).map some = (shuffled xs.length js (List.range xs.length)).map (xs[·]?)) ∧
    (∀ (n : Nat) (js js' : List Nat), Draws n js → Draws n js' →
      shuffled n js (List.range n) = shuffled n js' (List.range n) → js = js') ∧
    (∀ (σ ρ T : Type) (draw : ρ → BitVec 32 → Outcome (BitVec 32 × ρ)), Bounded draw → ∀ (A : Allocator σ) (t : ElemType T)
      (heap : σ) (r : ρ) (xs : List T) (k : BitVec 32) (fuel : Nat), xs.length < 2 ^ 31 → k.toNat ≤ xs.length → xs.length < fuel →
      EndsOr (¬ Roomy A t xs) (fun s => ∃ ps : List Nat, ps.Nodup ∧ ps.length = k.toNat ∧ (∀ p ∈ ps, p < xs.length) ∧
        s.1.map some = ps.map (xs[·]?)) (sample draw A t fuel heap r xs k)) := by
  refine ⟨fun b hb => ⟨fun y hy => card_drawsOf hb hy, half_kept hb, fun r fuel hfuel => below_eq r hb hfuel⟩,
    fun r lo hi fuel hlt hfuel => range_ends r hlt hfuel, fun fuel hfuel => below_bounded hfuel, ?_,
    fun T xs js => ⟨shuffled_perm _ _ _, shuffled_places js xs⟩, ?_,
    fun σ ρ T draw hdraw A t heap r xs k fuel hlen hk hfuel => sample_endsOr hdraw A t heap r hlen hk hfuel⟩
  · intro ρ T draw hdraw xs r fuel hlen hfuel
    obtain ⟨js, r', hjs, hdrawn⟩ := exists_drawn hdraw xs.length (by omega) r
    exact ⟨js, r', hjs, hdrawn, shuffle_eq hdrawn hjs hlen hfuel⟩
  · intro n js js' hjs hjs' heq
    exact shuffled_inj n js js' (List.range n) List.nodup_range (by rw [List.length_range]) hjs hjs' heq

/-- A die: each face comes of 715827882 draws, and a throw is one of them. -/
theorem random_die : (drawsOf 6#32 3).card = 715827882 ∧
    Ends (fun s => (1#32).sle s.1 = true ∧ s.1.slt 7#32 = true) (range (2 ^ 64) ⟨0#64, 109#64⟩ 1#32 7#32) := by
  obtain ⟨hcount, hrange, -⟩ := random_exact
  exact ⟨(hcount 6#32 (by decide)).1 3 (by decide), hrange _ _ _ _ (by decide) le_rfl⟩

end Aipl.StdRandom
