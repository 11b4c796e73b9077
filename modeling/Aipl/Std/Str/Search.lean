import Aipl.Lib.Outcome
import Aipl.Lib.TwoWay
import Mathlib.Data.BitVec
import Mathlib.Data.List.GetD

/-! # `str.find_from`, `str.rfind`

A needle of up to 64 bytes is compared where it may be; a longer one is found by two-way matching, with the
bytes of both read backwards for `rfind`.  A read outside a view stops the program here; the code reads on.

* `cut_ends` — the two loops over the needle find a plan for it.
* `alignRound_ends` — a round of the matching goes to the next alignment, or the needle is there.
-/

namespace Aipl.StdStr

open Aipl.Lib Aipl.Lib.Outcome Aipl.Lib.Words

/-- `mem.load8` of a view's byte. -/
def load8 (x : List (BitVec 8)) (i : Int) : Outcome Int :=
  if 0 ≤ i then ofOption (x[i.toNat]?.map fun c => (c.toNat : Int)) else stop

/-- A sum of two `i32`s. -/
@[irreducible] def wrap (a b : Int) : Int := (a + b).bmod (2 ^ 32)

def atIs (b p : List (BitVec 8)) (i : Int) : Outcome Bool :=
  allOf (fun k : Nat => do
    let x ← load8 b (i + k)
    let y ← load8 p k
    pure (x = y)) (List.range p.length)

def nth (x : List (BitVec 8)) (i : Int) (rev : Bool) : Outcome Int :=
  load8 x (if rev then x.length - 1 - i else i)

/-! ### Two-way matching -/

/-- The variables of a search for a greatest suffix. -/
structure Suffix where
  ip : Int
  jp : Int
  k : Int
  per : Int
deriving DecidableEq

/-- A round of the search for the greatest suffix, for the order that `gt` is the converse of. -/
def suffixRound (gt : Int → Int → Bool) (p : List (BitVec 8)) (rev : Bool) (s : Suffix) :
    Outcome (Suffix ⊕ Suffix) :=
  if s.jp + s.k < p.length then do
    let a ← nth p (s.ip + s.k) rev
    let c ← nth p (s.jp + s.k) rev
    if a = c then
      if s.k = s.per then pure (.inl { s with jp := s.jp + s.per, k := 1 })
      else pure (.inl { s with k := s.k + 1 })
    else if gt a c then pure (.inl { s with jp := s.jp + s.k, k := 1, per := s.jp + s.k - s.ip })
    else pure (.inl ⟨s.jp, s.jp + 1, 1, 1⟩)
  else pure (.inr s)

/-- Whether the first bytes recur after `per`. -/
def periodicRound (p : List (BitVec 8)) (rev : Bool) (per : Int) (periodic : Bool) (i : Nat) : Outcome Bool := do
  let a ← nth p i rev
  let c ← nth p (i + per) rev
  pure (if a ≠ c then false else periodic)

/-- Where the needle is cut, what it moves by, and what is then remembered. -/
structure Cut where
  ms : Int
  per : Int
  mem0 : Int
deriving DecidableEq

def cut (fuel : Nat) (p : List (BitVec 8)) (rev : Bool) : Outcome Cut := do
  let s ← iterate (suffixRound (fun a c => c < a) p rev) fuel ⟨-1, 0, 1, 1⟩
  let t ← iterate (suffixRound (fun a c => a < c) p rev) fuel ⟨-1, 0, 1, 1⟩
  let (ms, per) := if s.ip + 1 < t.ip + 1 then (t.ip, t.per) else (s.ip, s.per)
  let periodic ← foldAll (periodicRound p rev per) true (List.range (ms + 1).toNat)
  if periodic then pure ⟨ms, per, p.length - per⟩
  else pure ⟨ms, (if p.length - ms - 1 < ms then ms else p.length - ms - 1) + 1, 0⟩

/-- The right part, left to right. -/
def rightRound (h p : List (BitVec 8)) (rev : Bool) (pos j : Int) : Outcome (Int ⊕ Int) :=
  if j < p.length then do
    let x ← nth p j rev
    let y ← nth h (wrap pos j) rev
    pure (if x = y then .inl (j + 1) else .inr j)
  else pure (.inr j)

/-- The left part, right to left. -/
def leftRound (h p : List (BitVec 8)) (rev : Bool) (mem pos q : Int) : Outcome (Int ⊕ Int) :=
  if mem < q then do
    let x ← nth p (q - 1) rev
    let y ← nth h (wrap pos (q - 1)) rev
    pure (if x = y then .inl (q - 1) else .inr q)
  else pure (.inr q)

/-- Where the needle is held, and how many of its first bytes are known to agree. -/
structure Held where
  mem : Int
  pos : Int
deriving DecidableEq

def alignRound (fuel : Nat) (h p : List (BitVec 8)) (rev : Bool) (k : Cut) (s : Held) : Outcome (Held ⊕ Int) :=
  if wrap s.pos p.length ≤ h.length then do
    let j ← iterate (rightRound h p rev s.pos) fuel (if s.mem < k.ms + 1 then k.ms + 1 else s.mem)
    if j < p.length then pure (.inl ⟨0, wrap s.pos (j - k.ms)⟩)
    else do
      let q ← iterate (leftRound h p rev s.mem s.pos) fuel (k.ms + 1)
      pure (if q ≤ s.mem then .inr s.pos else .inl ⟨k.mem0, wrap s.pos k.per⟩)
  else pure (.inr (-1))

def twoWay (fuel : Nat) (h p : List (BitVec 8)) (start : Int) (rev : Bool) : Outcome Int := do
  let k ← cut fuel p rev
  iterate (alignRound fuel h p rev k) fuel ⟨0, start⟩

/-! ### The searches -/

/-- A round of the loop of `find_from` for a short needle. -/
def findRound (b p : List (BitVec 8)) (first i : Int) : Outcome (Int ⊕ Int) :=
  if i < (b.length : Int) - p.length + 1 then do
    let x ← load8 b i
    let found ← (if x = first then atIs b p i else pure false : Outcome Bool)
    pure (if found then .inr i else .inl (i + 1))
  else pure (.inr (-1))

def findFrom (fuel : Nat) (b p : List (BitVec 8)) (start : Int) : Outcome Int := do
  require (0 ≤ start ∧ start ≤ b.length)
  if p.length = 0 then pure start
  else if 64 < p.length then twoWay fuel b p start false
  else do
    let first ← load8 p 0
    iterate (findRound b p first) fuel start

/-- A round of the loop of `rfind` for a short needle. -/
def rfindRound (b p : List (BitVec 8)) (j : Int) : Outcome (Int ⊕ Int) :=
  if j < (b.length : Int) - p.length + 1 then do
    let i := (b.length : Int) - p.length - j
    let found ← atIs b p i
    pure (if found then .inr i else .inl (j + 1))
  else pure (.inr (-1))

def rfind (fuel : Nat) (b p : List (BitVec 8)) : Outcome Int :=
  if p.length = 0 then pure b.length
  else if 64 < p.length then do
    let r ← twoWay fuel b p 0 true
    pure (if r < 0 then -1 else (b.length : Int) - p.length - r)
  else iterate (rfindRound b p) fuel 0

/-! ### Views as words -/

/-- Byte `i` of a view, or of its reverse. -/
def letters (x : List (BitVec 8)) (rev : Bool) (i : Nat) : Int :=
  ((x.getD (if rev then x.length - 1 - i else i) 0#8).toNat : Int)

variable {x h p : List (BitVec 8)} {rev : Bool} {i : Nat}

theorem load8_eq (hi : i < x.length) : load8 x i = done ((x.getD i 0#8).toNat : Int) := by
  rw [load8, if_pos (Int.natCast_nonneg i), Int.toNat_natCast, List.getElem?_eq_getElem hi,
    List.getD_eq_getElem _ _ hi]
  rfl

theorem nth_eq (hi : i < x.length) : nth x i rev = done (letters x rev i) := by
  cases rev with
  | false => exact load8_eq hi
  | true =>
    have hidx : (x.length : Int) - 1 - i = (x.length - 1 - i : Nat) := by omega
    rw [nth, if_pos rfl, hidx, load8_eq (by omega)]
    rfl

/-- Only what is inside a view is read. -/
theorem nth_returns (i : Int) : Returns (fun _ => 0 ≤ i ∧ i < x.length) (nth x i rev) := by
  have hload : ∀ i : Int, Returns (fun _ => 0 ≤ i ∧ i < x.length) (load8 x i) := by
    intro i
    rw [load8]
    split_ifs with h0
    · cases hget : x[i.toNat]? with
      | none => trivial
      | some c =>
        obtain ⟨hlt, -⟩ := List.getElem?_eq_some_iff.mp hget
        exact ⟨h0, by omega⟩
    · trivial
  cases rev with
  | false => exact hload i
  | true => exact (hload _).mono fun _ h => by omega

theorem wrap_eq {a b : Int} (hlo : 0 ≤ a + b) (hhi : a + b < 2 ^ 31) : wrap a b = a + b := by
  rw [wrap]
  exact Int.bmod_eq_of_le (by omega) (by omega)

/-- A sum that is too large is negative. -/
theorem wrap_neg {a b : Int} (hlo : 2 ^ 31 ≤ a + b) (hhi : a + b < 2 ^ 32) : wrap a b < 0 := by
  rw [wrap, Int.bmod_def]
  omega

/-! ### The needle is cut -/

/-- The variables of a search stand for where it has come to. -/
def Suffix.Stands (r : Int → Int → Prop) (w : Nat → Int) (l : Nat) (s : Suffix) : Prop :=
  ∃ i q m d : Nat, s = ⟨i - 1, i - 1 + q, m + 1, d⟩ ∧ Scan r w l i q m d

/-- What the search ends with. -/
def Suffix.Found (r : Int → Int → Prop) (w : Nat → Int) (l : Nat) (s : Suffix) : Prop :=
  ∃ i d : Nat, s.ip = i - 1 ∧ s.per = d ∧ Greatest r w l i ∧ LeastPeriod w i l d

/-- What is left of the search. -/
def Suffix.left (l : Nat) (s : Suffix) : Nat := (2 * (l : Int) - (s.ip + s.jp + s.k)).toNat

theorem suffixRound_ends {r : Int → Int → Prop} [Std.Irrefl r] [IsTrans Int r] {gt : Int → Int → Bool}
    (hgt : ∀ a c, gt a c = true ↔ r c a) (htotal : ∀ a c, a ≠ c → ¬ r c a → r a c) {s : Suffix}
    (hs : s.Stands r (letters p rev) p.length) :
    Ends (Sum.elim (fun s' => s'.Stands r (letters p rev) p.length ∧ s'.left p.length < s.left p.length)
      (Suffix.Found r (letters p rev) p.length)) (suffixRound gt p rev s) := by
  obtain ⟨i, q, m, d, rfl, hscan⟩ := hs
  have hle := hscan.le
  have hq := hscan.pos
  have hlt := hscan.lt
  have hdq := hscan.dvd_le
  rw [suffixRound]
  dsimp only
  by_cases hin : (i : Int) - 1 + q + (m + 1) < p.length
  · rw [if_pos hin]
    have hcopy : (i : Int) - 1 + (m + 1) = (i + m : Nat) := by omega
    have hnext : (i : Int) - 1 + q + (m + 1) = (i + q + m : Nat) := by omega
    have hnext_lt : i + q + m < p.length := by omega
    rw [hcopy, hnext, nth_eq (by omega), nth_eq hnext_lt, done_bind, done_bind]
    by_cases heq : letters p rev (i + m) = letters p rev (i + q + m)
    · rw [if_pos heq]
      by_cases hend : m + 1 = d
      · rw [if_pos (by omega)]
        exact ⟨⟨i, q + d, 0, d, by simp; omega, hscan.same_end hnext_lt heq hend⟩, by simp only [Suffix.left]; omega⟩
      · rw [if_neg (by omega)]
        exact ⟨⟨i, q, m + 1, d, by simp, hscan.same_more hnext_lt heq hend⟩, by simp only [Suffix.left]; omega⟩
    · rw [if_neg heq]
      by_cases hr : r (letters p rev (i + q + m)) (letters p rev (i + m))
      · rw [if_pos ((hgt _ _).mpr hr)]
        exact ⟨⟨i, q + m + 1, 0, q + m + 1, by simp; omega, hscan.smaller hnext_lt hr⟩,
          by simp only [Suffix.left]; omega⟩
      · rw [if_neg fun h => hr ((hgt _ _).mp h)]
        exact ⟨⟨i + q, 1, 0, 1, by simp; omega, hscan.larger hnext_lt (htotal _ _ heq hr)⟩,
          by simp only [Suffix.left]; omega⟩
  · rw [if_neg hin]
    have hend : i + q + m = p.length := by omega
    obtain ⟨hperiod, hleast⟩ := hscan.least_period hend
    exact ⟨i, d, rfl, rfl, hscan.greatest hend, ⟨by omega, hperiod, hleast⟩⟩

/-- **The loop finds the greatest suffix**, and the least period it has. -/
theorem suffix_ends {r : Int → Int → Prop} [Std.Irrefl r] [IsTrans Int r] {gt : Int → Int → Bool}
    (hgt : ∀ a c, gt a c = true ↔ r c a) (htotal : ∀ a c, a ≠ c → ¬ r c a → r a c) (hp : 0 < p.length)
    {fuel : Nat} (hfuel : 2 * p.length < fuel) :
    Ends (Suffix.Found r (letters p rev) p.length) (iterate (suffixRound gt p rev) fuel ⟨-1, 0, 1, 1⟩) := by
  refine iterate_ends _ _ (Suffix.left p.length) (fun s hs => suffixRound_ends hgt htotal hs) fuel _ ?_ ?_
  · exact ⟨0, 1, 0, 1, by simp, Scan.init hp⟩
  · simp only [Suffix.left]
    omega

/-- The loop that asks whether the first bytes recur. -/
theorem periodic_ends {c d : Nat} (hcd : c + d ≤ p.length) :
    Ends (fun b : Bool => b = true ↔ ∀ x < c, letters p rev x = letters p rev (x + d))
      (foldAll (periodicRound p rev d) true (List.range c)) := by
  refine foldAll_range_ends (fun (k : Nat) (b : Bool) => b = true ↔ ∀ x < k, letters p rev x = letters p rev (x + d))
    (by simp) c fun k b hk hb => ?_
  have hidx : (k : Int) + d = (k + d : Nat) := by omega
  rw [periodicRound, hidx, nth_eq (by omega), nth_eq (by omega), done_bind, done_bind]
  by_cases heq : letters p rev k = letters p rev (k + d)
  · simp only [heq, ne_eq, not_true_eq_false, if_false]
    refine hb.trans ⟨fun h x hx => ?_, fun h x hx => h x (by omega)⟩
    rcases Nat.lt_succ_iff_lt_or_eq.mp hx with hx | rfl
    · exact h x hx
    · exact heq
  · simp only [ne_eq, heq, not_false_eq_true, if_true]
    exact ⟨fun h => absurd h Bool.false_ne_true, fun h => absurd (h k (Nat.lt_succ_self k)) heq⟩

/-- The variables that a plan is kept in. -/
structure Cut.Keeps (k : Cut) (P : Plan) : Prop where
  ms : k.ms = P.cut - 1
  per : k.per = P.step
  mem0 : k.mem0 = P.keep

/-- What recurs from the cut on, and before it, does so in the whole word. -/
theorem period_iff {w : Nat → Int} {l c d : Nat} (hd : Period w c l d) (hcd : c + d ≤ l) :
    (∀ x < c, w x = w (x + d)) ↔ Period w 0 l d := by
  constructor
  · intro h x _ hx
    rcases Nat.lt_or_ge x c with hlt | hge
    · exact h x hlt
    · exact hd x hge hx
  · intro h x hx
    exact h x (Nat.zero_le x) (by omega)

/-- **The needle gets a plan.** -/
theorem cut_ends (hp : 0 < p.length) {fuel : Nat} (hfuel : 2 * p.length < fuel) :
    Ends (fun k => ∃ P : Plan, P.For (letters p rev) p.length ∧ k.Keeps P) (cut fuel p rev) := by
  rw [cut]
  refine ends_bind (suffix_ends (r := (· < ·)) (fun a c => decide_eq_true_iff) (fun a c => by omega) hp hfuel) ?_
  rintro s ⟨i, d, hip, hper, hi, hd⟩
  refine ends_bind (suffix_ends (r := (· > ·)) (fun a c => decide_eq_true_iff) (fun a c => by omega) hp hfuel) ?_
  rintro t ⟨i', d', hip', hper', hi', hd'⟩
  obtain ⟨c, e, hcrit, hleast, hpick⟩ : ∃ c e : Nat, Critical (letters p rev) p.length c ∧
      LeastPeriod (letters p rev) c p.length e ∧
      (if s.ip + 1 < t.ip + 1 then (t.ip, t.per) else (s.ip, s.per)) = ((c : Int) - 1, (e : Int)) := by
    rcases Nat.lt_or_ge i i' with hlt | hge
    · exact ⟨i', d', ⟨i, i', hi, hi', (max_eq_right hlt.le).symm⟩, hd', by rw [if_pos (by omega), hip', hper']⟩
    · exact ⟨i, d, ⟨i, i', hi, hi', (max_eq_left hge).symm⟩, hd, by rw [if_neg (by omega), hip, hper]⟩
  rw [hpick]
  dsimp only
  have hce := hleast.le hcrit.lt
  rw [show ((c : Int) - 1 + 1).toNat = c by omega]
  refine ends_bind (periodic_ends hce) fun b hb => ?_
  rw [period_iff hleast.period hce] at hb
  cases b with
  | true =>
    refine ⟨_, .periodic hcrit hleast (hb.mp rfl), rfl, rfl, ?_⟩
    show (p.length : Int) - e = (p.length - e : Nat)
    omega
  | false =>
    refine ⟨_, .aperiodic hcrit hleast fun h => Bool.false_ne_true (hb.mpr h), rfl, ?_, rfl⟩
    have hlt := hcrit.lt
    show (if (p.length : Int) - (c - 1) - 1 < c - 1 then (c : Int) - 1 else p.length - (c - 1) - 1) + 1
      = (max c (p.length - c + 1) : Nat)
    split_ifs with h <;> omega

/-! ### The needle is held against the text -/

/-- The variables of an alignment. -/
def Held.of (a : Align) : Held := ⟨a.mem, a.pos⟩

/-- The place of a byte of the text, under the needle. -/
theorem wrap_place {pos x : Nat} (hx : pos + x < 2 ^ 31) : wrap pos x = (pos + x : Nat) := by
  rw [wrap_eq (by omega) (by omega)]
  omega

theorem right_ends {pos j₀ : Nat} (hin : pos + p.length ≤ h.length) (hn : h.length < 2 ^ 31)
    (hj₀ : j₀ ≤ p.length) {fuel : Nat} (hfuel : p.length < fuel) :
    Ends (fun j : Int => ∃ j' : Nat, j = j' ∧ j₀ ≤ j' ∧ j' ≤ p.length ∧
        (∀ x, j₀ ≤ x → x < j' → letters p rev x = letters h rev (pos + x)) ∧
        (j' < p.length → letters p rev j' ≠ letters h rev (pos + j')))
      (iterate (rightRound h p rev pos) fuel (j₀ : Int)) := by
  refine iterate_ends (fun j : Int => ∃ j' : Nat, j = j' ∧ j₀ ≤ j' ∧ j' ≤ p.length ∧
      ∀ x, j₀ ≤ x → x < j' → letters p rev x = letters h rev (pos + x)) _ (fun j => (p.length - j).toNat) ?_ fuel _
    ⟨j₀, rfl, le_rfl, hj₀, fun x hx hx' => absurd hx' (Nat.not_lt.mpr hx)⟩ (by omega)
  rintro _ ⟨j, rfl, hj, hjl, heq⟩
  rw [rightRound]
  by_cases hlt : j < p.length
  · rw [if_pos (by omega), wrap_place (by omega), nth_eq hlt, nth_eq (by omega), done_bind, done_bind]
    by_cases hsame : letters p rev j = letters h rev (pos + j)
    · rw [if_pos hsame]
      refine ⟨⟨j + 1, by omega, by omega, hlt, fun x hx hxj => ?_⟩, by omega⟩
      rcases Nat.lt_succ_iff_lt_or_eq.mp hxj with hxj | rfl
      · exact heq x hx hxj
      · exact hsame
    · rw [if_neg hsame]
      exact ⟨j, rfl, hj, hjl, heq, fun _ => hsame⟩
  · rw [if_neg (by omega)]
    exact ⟨j, rfl, hj, hjl, heq, fun h => absurd h hlt⟩

theorem left_ends {pos mem c : Nat} (hin : pos + p.length ≤ h.length) (hn : h.length < 2 ^ 31)
    (hc : c < p.length) {fuel : Nat} (hfuel : p.length < fuel) :
    Ends (fun q : Int => ∃ q' : Nat, q = q' ∧ q' ≤ c ∧
        (∀ x, q' ≤ x → x < c → letters p rev x = letters h rev (pos + x)) ∧
        (mem < q' → letters p rev (q' - 1) ≠ letters h rev (pos + (q' - 1))))
      (iterate (leftRound h p rev mem pos) fuel (c : Int)) := by
  refine iterate_ends (fun q : Int => ∃ q' : Nat, q = q' ∧ q' ≤ c ∧
      ∀ x, q' ≤ x → x < c → letters p rev x = letters h rev (pos + x)) _ Int.toNat ?_ fuel _
    ⟨c, rfl, le_rfl, fun x hx hx' => absurd hx' (Nat.not_lt.mpr hx)⟩ (by omega)
  rintro _ ⟨q, rfl, hq, heq⟩
  rw [leftRound]
  by_cases hlt : mem < q
  · have hprev : (q : Int) - 1 = (q - 1 : Nat) := by omega
    rw [if_pos (by omega), hprev, wrap_place (by omega), nth_eq (by omega), nth_eq (by omega), done_bind, done_bind]
    by_cases hsame : letters p rev (q - 1) = letters h rev (pos + (q - 1))
    · rw [if_pos hsame]
      refine ⟨⟨q - 1, rfl, by omega, fun x hx hxc => ?_⟩, by omega⟩
      rcases Nat.lt_or_ge x q with hxq | hxq
      · obtain rfl : x = q - 1 := by omega
        exact hsame
      · exact heq x hxq hxc
    · rw [if_neg hsame]
      exact ⟨q, rfl, hq, heq, fun _ => hsame⟩
  · rw [if_neg (by omega)]
    exact ⟨q, rfl, hq, heq, fun h => absurd h hlt⟩

variable {P : Plan} {k : Cut} {a a' : Align}

theorem start_eq (hk : k.Keeps P) : (if (a.mem : Int) < k.ms + 1 then k.ms + 1 else (a.mem : Int)) =
    (max P.cut a.mem : Nat) := by
  rw [hk.ms]
  split_ifs with h <;> omega

/-- **A round of the matching** goes to the next alignment, or the needle is there. -/
theorem alignRound_ends (hP : P.For (letters p rev) p.length) (hk : k.Keeps P) (hn : h.length < 2 ^ 31)
    (hin : a.pos + p.length ≤ h.length) (hmem : a.mem < p.length) (ha : a.Agrees (letters p rev) (letters h rev))
    {fuel : Nat} (hfuel : p.length < fuel) :
    Ends (fun r => (∃ a', r = .inl (Held.of a') ∧ Shift P (letters p rev) p.length (letters h rev) h.length a a') ∨
        (r = .inr (a.pos : Int) ∧ Occurs (letters p rev) p.length (letters h rev) a.pos))
      (alignRound fuel h p rev k (Held.of a)) := by
  have hcut := hP.critical.lt
  have hstep := hP.step_le
  rw [alignRound, Held.of]
  dsimp only
  rw [wrap_place (by omega), if_pos (by omega), start_eq hk]
  refine ends_bind (right_ends hin hn (by omega) hfuel) ?_
  rintro _ ⟨j, rfl, hj, hjl, heq, hne⟩
  by_cases hlt : j < p.length
  · rw [if_pos (by omega)]
    refine .inl ⟨_, ?_, .right hin hj hlt heq (hne hlt)⟩
    have hsum : (a.pos : Int) + (j - k.ms) = (a.pos + (j - P.cut + 1) : Nat) := by
      rw [hk.ms]
      omega
    rw [wrap_eq (by omega) (by omega), hsum]
    rfl
  · obtain rfl : j = p.length := by omega
    rw [if_neg (by omega), show k.ms + 1 = (P.cut : Int) by rw [hk.ms]; omega]
    refine ends_bind (left_ends hin hn hcut hfuel) ?_
    rintro _ ⟨q, rfl, hq, heq', hne'⟩
    by_cases hmem' : q ≤ a.mem
    · rw [if_pos (by omega)]
      refine .inr ⟨rfl, fun x hx => ?_⟩
      rcases Nat.lt_or_ge x a.mem with hxm | hxm
      · exact (ha x hxm).symm
      · rcases Nat.lt_or_ge x P.cut with hxc | hxc
        · exact (heq' x (by omega) hxc).symm
        · exact (heq x (max_le hxc hxm) hx).symm
    · rw [if_neg (by omega), hk.per, hk.mem0, wrap_place (by omega)]
      exact .inl ⟨_, rfl, .left hin heq ⟨q - 1, by omega, by omega, hne' (by omega)⟩⟩

end Aipl.StdStr
