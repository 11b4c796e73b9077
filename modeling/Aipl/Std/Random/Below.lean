import Aipl.Lib.Congruential
import Aipl.Lib.Wasm.Ints
import Aipl.Std.Alloc
import Mathlib.Data.Int.CardIntervalMod
import Mathlib.Data.Nat.Periodic

/-! # `std/random`, and its bounded numbers

PCG-32, and what is drawn from it.  What a shuffle and a sample draw with is a parameter; the source's is `below`.  The
generator runs through all states of its stream, so that a draw at or above the threshold comes, and those draws fall
on each result equally often.

* `Rng.nextU32` — 32 bits and the next state; `below`, `range` — bounded numbers; `shuffle`, `sample` — arrays.
* `state_reached` — every state follows every other.
* `below_ends` — `below` returns the remainder of the first draw that is kept.
* `card_kept`, `half_kept` — how many draws give each result, and how many are kept.
* `range_ends` — a number in the range.
-/

namespace Aipl.StdRandom

section

open Aipl.Lib Aipl.Lib.Outcome Aipl.Std

/-- The state and the stream. -/
structure Rng where
  state : BitVec 64
  inc : BitVec 64
deriving DecidableEq

/-- The 32 bits that a state gives. -/
def output (old : BitVec 64) : BitVec 32 :=
  let x := (((old >>> 18) ^^^ old) >>> 27).setWidth 32
  let rot := (old >>> 59).setWidth 32
  (x >>> (rot.toNat % 32)) ||| (x <<< (((0#32 - rot) &&& 31#32).toNat % 32))

def multiplier : BitVec 64 := 6364136223846793005#64

/-- `next_u32`. -/
def Rng.nextU32 (r : Rng) : BitVec 32 × Rng :=
  let old := r.state
  (output old, { r with state := old * multiplier + (r.inc ||| 1#64) })

/-- A round of the loop of `below`: another draw, below the threshold. -/
def belowRound (threshold : BitVec 32) (s : BitVec 32 × Rng) : Outcome (BitVec 32 × Rng ⊕ BitVec 32 × Rng) :=
  if s.1.ult threshold then pure (.inl s.2.nextU32) else pure (.inr s)

def threshold (bound : BitVec 32) : BitVec 32 := (0#32 - bound) % bound

def below (fuel : Nat) (r : Rng) (bound : BitVec 32) : Outcome (BitVec 32 × Rng) := do
  require (bound ≠ 0#32)
  let (x, r) ← iterate (belowRound (threshold bound)) fuel r.nextU32
  pure (x % bound, r)

def range (fuel : Nat) (r : Rng) (lo hi : BitVec 32) : Outcome (BitVec 32 × Rng) := do
  require (lo.slt hi)
  let (x, r) ← below fuel r (hi - lo)
  pure (lo + x, r)

section Arrays

variable {σ ρ T : Type} (draw : ρ → BitVec 32 → Outcome (BitVec 32 × ρ))

/-- The elements at two places, swapped: what stands at `i` is kept while what stands at `j` is put there. -/
def swapAt (xs : List T) (i j : BitVec 32) : Outcome (List T) := do
  let t ← arrGet xs i
  let x ← arrGet xs j
  let xs ← arrSet xs i x
  arrSet xs j t

/-- A round of the loop of `shuffle`, for the place `i`. -/
def shuffleRound (s : BitVec 32 × List T × ρ) : Outcome (BitVec 32 × List T × ρ ⊕ List T × ρ) :=
  let (i, xs, r) := s
  if (0#32).slt i then do
    let (j, r) ← draw r (i + 1#32)
    let xs ← swapAt xs i j
    pure (.inl (i - 1#32, xs, r))
  else pure (.inr (xs, r))

def shuffle (fuel : Nat) (r : ρ) (xs : List T) : Outcome (List T × ρ) :=
  iterate (shuffleRound draw) fuel (arrLen xs - 1#32, xs, r)

/-- A round of the loop of `sample`: the pool, the elements taken, and the generator. -/
def sampleRound (n i : BitVec 32) (s : List T × List T × ρ) : Outcome (List T × List T × ρ) := do
  let (pool, out, r) := s
  let (j, r) ← draw r (n - i)
  let pool ← swapAt pool i (i + j)
  let x ← arrGet pool i
  let out ← arrSet out i x
  pure (pool, out, r)

def sample (A : Allocator σ) (t : ElemType T) (fuel : Nat) (heap : σ) (r : ρ) (xs : List T) (k : BitVec 32) :
    Outcome (List T × ρ × σ) := do
  require ((0#32).sle k && k.sle (arrLen xs))
  let (pool, heap) ← array A t heap (arrLen xs)
  let pool ← forLoop fuel 0#32 (arrLen xs) (fun i pool => do arrSet pool i (← arrGet xs i)) pool
  let (out, heap) ← array A t heap k
  let (pool, out, r) ← forLoop fuel 0#32 k (sampleRound draw (arrLen xs)) (pool, out, r)
  let heap ← freeArray A t heap pool
  pure (out, r, heap)

end Arrays

end

/-! ## Bounded numbers -/

section

open Aipl.Lib Aipl.Lib.Outcome Aipl.Lib.Congruential Aipl.Std

variable {b : BitVec 32} {fuel : Nat}

/-! ### The stream of draws -/

/-- The generator after `n` draws. -/
def Rng.after (r : Rng) (n : Nat) : Rng := (fun r : Rng => r.nextU32.2)^[n] r

/-- The `n`-th draw. -/
def Rng.drawn (r : Rng) (n : Nat) : BitVec 32 := (r.after n).nextU32.1

theorem Rng.after_succ (r : Rng) (n : Nat) : r.after (n + 1) = (r.after n).nextU32.2 := by
  rw [Rng.after, Function.iterate_succ_apply', ← Rng.after]

theorem Rng.nextU32_after (r : Rng) (n : Nat) : (r.after n).nextU32 = (r.drawn n, r.after (n + 1)) :=
  Prod.ext rfl (r.after_succ n).symm

theorem Rng.nextU32_snd (r : Rng) : r.nextU32.2 = ⟨r.state * multiplier + (r.inc ||| 1#64), r.inc⟩ := rfl

theorem Rng.inc_after (r : Rng) (n : Nat) : (r.after n).inc = r.inc := by
  induction n with
  | zero => rfl
  | succ n ih =>
    rw [Rng.after_succ, Rng.nextU32_snd]
    exact ih

theorem Rng.state_after_succ (r : Rng) (n : Nat) :
    (r.after (n + 1)).state = (r.after n).state * multiplier + (r.inc ||| 1#64) := by
  rw [Rng.after_succ, Rng.nextU32_snd, Rng.inc_after]

theorem toNat_step {s m c : BitVec 64} {x : Nat} (h : s.toNat ≡ x [MOD 2 ^ 64]) :
    (s * m + c).toNat ≡ affine m.toNat c.toNat x [MOD 2 ^ 64] := by
  rw [BitVec.toNat_add, BitVec.toNat_mul, affine, Nat.mul_comm m.toNat]
  exact (Nat.mod_modEq _ _).trans (Nat.ModEq.add_right _ ((Nat.mod_modEq _ _).trans (h.mul_right _)))

theorem Rng.toNat_state_after (r : Rng) (n : Nat) :
    (r.after n).state.toNat ≡ (affine multiplier.toNat (r.inc ||| 1#64).toNat)^[n] r.state.toNat [MOD 2 ^ 64] := by
  induction n with
  | zero => exact Nat.ModEq.refl _
  | succ n ih =>
    rw [Function.iterate_succ_apply', Rng.state_after_succ]
    exact toNat_step ih

/-- **Every state of the stream is reached.** -/
theorem state_reached (r : Rng) (s : BitVec 64) : ∃ n < 2 ^ 64, (r.after n).state = s := by
  have hodd : (r.inc ||| 1#64).toNat % 2 = 1 := by
    rw [BitVec.toNat_or, Nat.or_mod_two_eq_one]
    exact .inr rfl
  obtain ⟨n, hn, hreach⟩ := affine_reaches (show multiplier.toNat % 4 = 1 by decide) hodd r.state.toNat s.toNat 64
  refine ⟨n, hn, BitVec.eq_of_toNat_eq ?_⟩
  exact Nat.ModEq.eq_of_lt_of_lt ((r.toNat_state_after n).trans hreach) (r.after n).state.isLt s.isLt

/-- A state whose bits are all ones. -/
def onesState : BitVec 64 := 0x7fffe0000000000#64

theorem output_onesState : output onesState = BitVec.allOnes 32 := by decide

/-! ### `below` -/

/-- A draw that is not drawn again. -/
def Kept (b x : BitVec 32) : Prop := ¬ x.ult (threshold b) = true

instance (b x : BitVec 32) : Decidable (Kept b x) := inferInstanceAs (Decidable (¬ _))

theorem kept_allOnes (b : BitVec 32) : Kept b (BitVec.allOnes 32) := by
  have hlt := (threshold b).isLt
  rw [Kept, BitVec.ult, BitVec.toNat_allOnes, decide_eq_true_eq]
  omega

theorem exists_kept (r : Rng) (b : BitVec 32) : ∃ n < 2 ^ 64, Kept b (r.drawn n) := by
  obtain ⟨n, hn, hstate⟩ := state_reached r onesState
  refine ⟨n, hn, ?_⟩
  have hdrawn : r.drawn n = output (r.after n).state := rfl
  rw [hdrawn, hstate, output_onesState]
  exact kept_allOnes b

/-- The loop, from draw `m` on, when draw `n` is the first that is kept. -/
theorem belowLoop_eq {r : Rng} {n : Nat} (hkept : Kept b (r.drawn n)) (hfirst : ∀ m < n, ¬ Kept b (r.drawn m)) :
    ∀ k m fuel : Nat, m + k = n → k < fuel →
      iterate (belowRound (threshold b)) fuel (r.after m).nextU32 = done (r.drawn n, r.after (n + 1)) := by
  intro k
  induction k with
  | zero =>
    rintro m (_ | fuel) rfl hfuel
    · exact absurd hfuel (Nat.lt_irrefl 0)
    · have hkept' : ¬ (r.drawn m).ult (threshold b) = true := hkept
      rw [iterate, belowRound, Rng.nextU32_after, if_neg hkept']
      rfl
  | succ k ih =>
    rintro m (_ | fuel) hm hfuel
    · exact absurd hfuel (Nat.not_lt_zero _)
    · have hagain : (r.drawn m).ult (threshold b) = true := not_not.mp (hfirst m (by omega))
      rw [iterate, belowRound, Rng.nextU32_after, if_pos hagain]
      exact ih (m + 1) fuel (by omega) (by omega)

/-- **`below`** returns the remainder of the first draw that is kept. -/
theorem below_eq (r : Rng) (hb : b ≠ 0#32) (hfuel : 2 ^ 64 ≤ fuel) : ∃ n, Kept b (r.drawn n) ∧
    (∀ m < n, ¬ Kept b (r.drawn m)) ∧ below fuel r b = done (r.drawn n % b, r.after (n + 1)) := by
  obtain ⟨n₀, hn₀, hkept₀⟩ := exists_kept r b
  have hsome : ∃ n, Kept b (r.drawn n) := ⟨n₀, hkept₀⟩
  have hle : Nat.find hsome ≤ n₀ := Nat.find_min' hsome hkept₀
  have hloop := belowLoop_eq (Nat.find_spec hsome) (fun m hm => Nat.find_min hsome hm) (Nat.find hsome) 0 fuel
    (Nat.zero_add _) (by omega)
  refine ⟨Nat.find hsome, Nat.find_spec hsome, fun m hm => Nat.find_min hsome hm, ?_⟩
  rw [below, require, if_pos (decide_eq_true hb), done_bind, show r.nextU32 = (r.after 0).nextU32 from rfl, hloop]
  rfl

theorem toNat_pos_of_ne {b : BitVec 32} (hb : b ≠ 0#32) : 0 < b.toNat :=
  Nat.pos_of_ne_zero fun h => hb (BitVec.eq_of_toNat_eq h)

theorem below_ends (r : Rng) (hb : b ≠ 0#32) (hfuel : 2 ^ 64 ≤ fuel) :
    Ends (fun s => s.1.toNat < b.toNat) (below fuel r b) := by
  obtain ⟨n, -, -, heq⟩ := below_eq r hb hfuel
  rw [heq]
  show (r.drawn n % b).toNat < b.toNat
  rw [BitVec.toNat_umod]
  exact Nat.mod_lt _ (toNat_pos_of_ne hb)

/-! ### Each result equally often -/

/-- The threshold is what `2 ^ 32` leaves over. -/
theorem toNat_threshold (hb : b ≠ 0#32) : (threshold b).toNat = 2 ^ 32 % b.toNat := by
  have hpos := toNat_pos_of_ne hb
  have hlt := b.isLt
  have hneg : (0#32 - b).toNat = 2 ^ 32 - b.toNat := by
    rw [BitVec.toNat_sub]
    simp only [BitVec.toNat_ofNat]
    omega
  rw [threshold, BitVec.toNat_umod, hneg]
  conv_rhs => rw [← Nat.sub_add_cancel hlt.le, Nat.add_mod_right]

theorem kept_iff (hb : b ≠ 0#32) {x : Nat} (hx : x < 2 ^ 32) : Kept b (BitVec.ofNat 32 x) ↔ 2 ^ 32 % b.toNat ≤ x := by
  rw [Kept, BitVec.ult, toNat_threshold hb, BitVec.toNat_ofNat, Nat.mod_eq_of_lt hx, decide_eq_true_eq, Nat.not_lt]

/-- The draws that are kept and give `y`. -/
def drawsOf (b : BitVec 32) (y : Nat) : Finset Nat :=
  (Finset.range (2 ^ 32)).filter fun x => Kept b (BitVec.ofNat 32 x) ∧ (BitVec.ofNat 32 x % b).toNat = y

/-- The draws that are kept. -/
def keptDraws (b : BitVec 32) : Finset Nat := (Finset.range (2 ^ 32)).filter fun x => Kept b (BitVec.ofNat 32 x)

theorem keptDraws_eq (hb : b ≠ 0#32) : keptDraws b = Finset.Ico (2 ^ 32 % b.toNat) (2 ^ 32) := by
  ext x
  rw [keptDraws, Finset.mem_filter, Finset.mem_range, Finset.mem_Ico]
  constructor
  · rintro ⟨hx, hkept⟩
    exact ⟨(kept_iff hb hx).mp hkept, hx⟩
  · rintro ⟨hle, hx⟩
    exact ⟨hx, (kept_iff hb hx).mpr hle⟩

theorem drawsOf_eq (hb : b ≠ 0#32) {y : Nat} (hy : y < b.toNat) :
    drawsOf b y = (Finset.Ico (2 ^ 32 % b.toNat) (2 ^ 32)).filter fun x => x ≡ y [MOD b.toNat] := by
  ext x
  rw [← keptDraws_eq hb, drawsOf, keptDraws, Finset.mem_filter, Finset.mem_filter, Finset.mem_filter, and_assoc]
  refine and_congr_right fun hx => and_congr_right fun _ => ?_
  rw [BitVec.toNat_umod, BitVec.toNat_ofNat, Nat.mod_eq_of_lt (Finset.mem_range.mp hx), Nat.ModEq, Nat.mod_eq_of_lt hy]

/-- **Each result comes of the same number of draws.** -/
theorem card_drawsOf (hb : b ≠ 0#32) {y : Nat} (hy : y < b.toNat) : (drawsOf b y).card = 2 ^ 32 / b.toNat := by
  have hpos := toNat_pos_of_ne hb
  have hperiodic : Function.Periodic (fun x => x ≡ y [MOD b.toNat]) (b.toNat * (2 ^ 32 / b.toNat)) := by
    intro x
    dsimp only
    rw [Nat.ModEq, Nat.ModEq, Nat.add_mul_mod_self_left]
  have hend : 2 ^ 32 = 2 ^ 32 % b.toNat + b.toNat * (2 ^ 32 / b.toNat) := (Nat.mod_add_div _ _).symm
  rw [drawsOf_eq hb hy]
  conv_lhs => rw [hend]
  rw [Nat.add_mul_mod_self_left, Nat.mod_mod, Nat.filter_Ico_card_eq_of_periodic _ _ _ hperiodic, Nat.count_modEq_card _ hpos,
    Nat.mul_div_cancel_left _ hpos, Nat.mul_mod_right, if_neg (Nat.not_lt_zero _), Nat.add_zero]

/-- **At least half of all draws are kept.** -/
theorem half_kept (hb : b ≠ 0#32) : 2 ^ 31 ≤ (keptDraws b).card := by
  have hpos := toNat_pos_of_ne hb
  have hlt := b.isLt
  have hmod := Nat.mod_lt (2 ^ 32) hpos
  have hdiv := Nat.mod_add_div (2 ^ 32) b.toNat
  have hone : 1 ≤ 2 ^ 32 / b.toNat := (Nat.one_le_div_iff hpos).mpr hlt.le
  have hle : b.toNat * 1 ≤ b.toNat * (2 ^ 32 / b.toNat) := Nat.mul_le_mul_left _ hone
  rw [keptDraws_eq hb, Nat.card_Ico]
  omega

/-! ### `range` -/

theorem toInt_add_of_lt {lo hi x : BitVec 32} (hlt : lo.slt hi = true) (hx : x.toNat < (hi - lo).toNat) :
    lo.toInt ≤ (lo + x).toInt ∧ (lo + x).toInt < hi.toInt := by
  rw [BitVec.slt_eq_decide, decide_eq_true_eq] at hlt
  have hsub : (hi - lo).toNat = (hi.toInt - lo.toInt).toNat := by
    rw [BitVec.toNat_sub]
    rw [BitVec.toInt_eq_toNat_cond, BitVec.toInt_eq_toNat_cond] at hlt ⊢
    have h1 := hi.isLt
    have h2 := lo.isLt
    split_ifs at hlt ⊢ <;> omega
  have hsum : (lo + x).toInt = lo.toInt + x.toNat := by
    have hlo := BitVec.le_toInt lo
    have hhi := BitVec.toInt_lt (x := hi)
    rw [BitVec.toInt_add, BitVec.toInt_eq_toNat_bmod x, Int.add_bmod_bmod]
    refine Int.bmod_eq_of_le ?_ ?_ <;> push_cast <;> omega
  omega

/-- **`range`** returns a number in the range. -/
theorem range_ends (r : Rng) {lo hi : BitVec 32} (hlt : lo.slt hi = true) (hfuel : 2 ^ 64 ≤ fuel) :
    Ends (fun s => lo.sle s.1 = true ∧ s.1.slt hi = true) (range fuel r lo hi) := by
  have hne : hi - lo ≠ 0#32 := by
    intro h
    have heq : hi = lo := by rw [← BitVec.sub_add_cancel hi lo, h, BitVec.zero_add]
    rw [heq, BitVec.slt_eq_decide, decide_eq_true_eq] at hlt
    exact absurd hlt (lt_irrefl _)
  rw [range, require, if_pos hlt, done_bind]
  refine ends_bind (below_ends r hne hfuel) fun s hs => ?_
  have hrange := toInt_add_of_lt hlt hs
  show lo.sle (lo + s.1) = true ∧ (lo + s.1).slt hi = true
  rw [BitVec.sle_eq_decide, BitVec.slt_eq_decide, decide_eq_true_eq, decide_eq_true_eq]
  exact hrange

end

end Aipl.StdRandom
