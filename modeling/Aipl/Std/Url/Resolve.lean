import Aipl.Std.Url.Model
import Mathlib.Data.List.DropRight

/-! # Resolving a reference

RFC 3986, section 5.2, and that `std/url` computes it.

* `removeDotSegments`, `mergePaths`, `target` — 5.2.4, 5.2.3 and 5.2.2.
* `clean_removeDotSegments`, `removeDotSegments_of_clean` — a path without dot segments, and what becomes of it.
* `removeRound_eq`, `removeDots_run` — a round of the loop, and all of them.
* `resolving_follows` — the runs compute the standard's paths and target.
-/

namespace Aipl.StdUrl

open Aipl.Lib Aipl.Lib.Outcome Aipl.StdBuf Aipl.StdBytes
open Aipl.Std (Allocator arrLen toNat_arrLen)

/-! ### The standard -/

/-- The output without its last segment and the `/` before it. -/
def dropSegment (output : Bytes) : Bytes := (output.rdropWhile (· ≠ 47#8)).dropLast

/-- The first segment, with the `/` before it if there is one. -/
def firstSegment : Bytes → Bytes
  | [] => []
  | c :: input => c :: input.takeWhile (· ≠ 47#8)

/-- 5.2.4: the input buffer is moved to the output buffer, by the steps A to E. -/
def removeDotSegments (input output : Bytes) : Bytes :=
  if input = [] then output
  else if [46#8, 46#8, 47#8] <+: input then removeDotSegments (input.drop 3) output
  else if [46#8, 47#8] <+: input then removeDotSegments (input.drop 2) output
  else if [47#8, 46#8, 47#8] <+: input then removeDotSegments (47#8 :: input.drop 3) output
  else if input = [47#8, 46#8] then removeDotSegments [47#8] output
  else if [47#8, 46#8, 46#8, 47#8] <+: input then removeDotSegments (47#8 :: input.drop 4) (dropSegment output)
  else if input = [47#8, 46#8, 46#8] then removeDotSegments [47#8] (dropSegment output)
  else if input = [46#8] ∨ input = [46#8, 46#8] then removeDotSegments [] output
  else removeDotSegments (input.drop (firstSegment input).length) (output ++ firstSegment input)
termination_by input.length
decreasing_by
  · have hle := List.IsPrefix.length_le ‹[46#8, 46#8, 47#8] <+: input›
    simp at hle ⊢
    omega
  · have hle := List.IsPrefix.length_le ‹[46#8, 47#8] <+: input›
    simp at hle ⊢
    omega
  · have hle := List.IsPrefix.length_le ‹[47#8, 46#8, 47#8] <+: input›
    simp at hle ⊢
    omega
  · simp_all
  · have hle := List.IsPrefix.length_le ‹[47#8, 46#8, 46#8, 47#8] <+: input›
    simp at hle ⊢
    omega
  · simp_all
  · rename_i hdots
    rcases hdots with rfl | rfl
    · simp
    · simp
  · cases input with
    | nil => contradiction
    | cons c input =>
      simp [firstSegment]

/-- 5.2.3. -/
def mergePaths (base : Url) (path : Bytes) : Bytes :=
  if base.hasAuthority ∧ base.path = [] then 47#8 :: path else base.path.rdropWhile (· ≠ 47#8) ++ path

/-- Whether the path of the reference is put after the base's. -/
def Merges (ref : Url) : Prop := ref.scheme = [] ∧ ref.hasAuthority = false ∧ ref.path ≠ [] ∧ ¬ [47#8] <+: ref.path

/-- 5.2.2, strict. -/
def target (base ref : Url) : Url :=
  if ref.scheme ≠ [] then { ref with path := removeDotSegments ref.path [] }
  else if ref.hasAuthority then { ref with scheme := base.scheme, path := removeDotSegments ref.path [] }
  else
    let path :=
      if ref.path = [] then base.path
      else if [47#8] <+: ref.path then removeDotSegments ref.path []
      else removeDotSegments (mergePaths base ref.path) []
    let ofBase := ref.path = [] ∧ ref.hasQuery = false
    { base with path, hasQuery := if ofBase then base.hasQuery else ref.hasQuery,
                query := if ofBase then base.query else ref.query, hasFragment := ref.hasFragment,
                fragment := ref.fragment }

/-! ### Dot segments -/

/-- No segment is a dot or two dots. -/
def Clean (path : Bytes) : Prop := ∀ s ∈ path.splitOn 47#8, s ≠ [46#8] ∧ s ≠ [46#8, 46#8]

variable {path input output w : Bytes}

theorem clean_nil : Clean [] := by
  simp [Clean]

theorem clean_append {p q : Bytes} : Clean (p ++ 47#8 :: q) ↔ Clean p ∧ Clean q := by
  rw [Clean, List.splitOn_append_cons_self, List.forall_mem_append]
  rfl

theorem clean_segment (hw : 47#8 ∉ w) : Clean w ↔ w ≠ [46#8] ∧ w ≠ [46#8, 46#8] := by
  rw [Clean, List.splitOn_eq_singleton hw, List.forall_mem_singleton]

theorem not_mem_takeWhile : 47#8 ∉ input.takeWhile (· ≠ 47#8) := by
  intro hmem
  simpa using List.mem_takeWhile_imp hmem

theorem rdropWhile_of_not_mem (hw : 47#8 ∉ w) : w.rdropWhile (· ≠ 47#8) = [] := by
  rw [List.rdropWhile_eq_nil_iff]
  rintro c hc
  exact decide_eq_true fun h => hw (h ▸ hc)

/-- What follows the last `/` is dropped. -/
theorem rdropWhile_append (hw : 47#8 ∉ w) : (output ++ 47#8 :: w).rdropWhile (· ≠ 47#8) = output ++ [47#8] := by
  induction w using List.reverseRecOn with
  | nil => exact List.rdropWhile_concat_neg _ _ _ (by simp)
  | append_singleton w c ih =>
    simp only [List.mem_append, List.mem_singleton, not_or] at hw
    rw [← ih hw.1, ← List.cons_append, ← List.append_assoc]
    exact List.rdropWhile_concat_pos _ _ _ (by simpa using fun h => hw.2 h.symm)

/-- A path is a segment, or a path, a `/` and a segment. -/
theorem last_segment (path : Bytes) : 47#8 ∉ path ∨ ∃ p w, path = p ++ 47#8 :: w ∧ 47#8 ∉ w := by
  induction path using List.reverseRecOn with
  | nil => exact .inl List.not_mem_nil
  | append_singleton path c ih =>
    by_cases hc : c = 47#8
    · subst hc
      exact .inr ⟨path, [], rfl, List.not_mem_nil⟩
    · rcases ih with hmem | ⟨p, w, rfl, hw⟩
      · exact .inl (by simp [hmem, Ne.symm hc])
      · exact .inr ⟨p, w ++ [c], by simp, by simp [hw, Ne.symm hc]⟩

theorem clean_dropSegment (h : Clean output) : Clean (dropSegment output) := by
  rcases last_segment output with hmem | ⟨p, w, rfl, hw⟩
  · rw [dropSegment, rdropWhile_of_not_mem hmem]
    exact clean_nil
  · rw [dropSegment, rdropWhile_append hw, List.dropLast_concat]
    exact (clean_append.mp h).1

/-- Step E takes the input up to the next `/`. -/
theorem firstSegment_append (input : Bytes) :
    ∃ rest, input = firstSegment input ++ rest ∧ (rest = [] ∨ ∃ r, rest = 47#8 :: r) := by
  cases input with
  | nil => exact ⟨[], rfl, .inl rfl⟩
  | cons c input =>
    refine ⟨input.dropWhile (· ≠ 47#8), by rw [firstSegment, List.cons_append, List.takeWhile_append_dropWhile], ?_⟩
    cases hrest : input.dropWhile (· ≠ 47#8) with
    | nil => exact .inl rfl
    | cons d rest =>
      have hd := List.head?_dropWhile_not (· ≠ 47#8) input
      rw [hrest] at hd
      exact .inr ⟨rest, by simpa using hd⟩

theorem drop_firstSegment {rest : Bytes} (h : input = firstSegment input ++ rest) :
    input.drop (firstSegment input).length = rest := by
  have hdrop := congrArg (List.drop (firstSegment input).length) h
  rwa [List.drop_left] at hdrop

/-- **No dot segments are left.** -/
theorem clean_removeDotSegments (hstart : output = [] ∨ input = [] ∨ ∃ r, input = 47#8 :: r) (h : Clean output) :
    Clean (removeDotSegments input output) := by
  fun_induction removeDotSegments input output with
  | case1 => exact h
  | case2 input output hne hA ih =>
    obtain ⟨r, rfl⟩ := hA
    simp at hstart
    exact ih (.inl hstart) h
  | case3 input output hne _ hA ih =>
    obtain ⟨r, rfl⟩ := hA
    simp at hstart
    exact ih (.inl hstart) h
  | case4 input output hne _ _ hB ih => exact ih (.inr (.inr ⟨_, rfl⟩)) h
  | case5 output hne _ _ _ ih => exact ih (.inr (.inr ⟨_, rfl⟩)) h
  | case6 input output hne _ _ _ _ hC ih => exact ih (.inr (.inr ⟨_, rfl⟩)) (clean_dropSegment h)
  | case7 output hne _ _ _ _ _ ih => exact ih (.inr (.inr ⟨_, rfl⟩)) (clean_dropSegment h)
  | case8 input output hne _ _ _ _ _ _ hD ih => exact ih (.inr (.inl rfl)) h
  | case9 input output hne hA hA' hB hB' hC hC' hD ih =>
    obtain ⟨rest, hrest, hnext⟩ := firstSegment_append input
    rw [drop_firstSegment hrest] at ih ⊢
    refine ih (.inr hnext) ?_
    obtain ⟨c, input, rfl⟩ := List.exists_cons_of_ne_nil hne
    by_cases hc : c = 47#8
    · subst hc
      rw [firstSegment, clean_append, clean_segment not_mem_takeWhile]
      refine ⟨h, fun hw => ?_, fun hw => ?_⟩
      · rw [firstSegment, hw] at hrest
        rw [hrest] at hB hB'
        rcases hnext with rfl | ⟨r, rfl⟩
        · simp at hB'
        · simp at hB
      · rw [firstSegment, hw] at hrest
        rw [hrest] at hC hC'
        rcases hnext with rfl | ⟨r, rfl⟩
        · simp at hC'
        · simp at hC
    · obtain rfl : output = [] := by simpa [hc] using hstart
      have hw : 47#8 ∉ firstSegment (c :: input) := by
        rw [firstSegment, List.mem_cons, not_or]
        exact ⟨Ne.symm hc, not_mem_takeWhile⟩
      rw [List.nil_append, clean_segment hw]
      refine ⟨fun hw => ?_, fun hw => ?_⟩
      · rw [hw] at hrest
        rw [hrest] at hA' hD
        rcases hnext with rfl | ⟨r, rfl⟩
        · simp at hD
        · simp at hA'
      · rw [hw] at hrest
        rw [hrest] at hA hD
        rcases hnext with rfl | ⟨r, rfl⟩
        · simp at hD
        · simp at hA

/-- **A path without dot segments is moved as it is.** -/
theorem removeDotSegments_of_clean (h : Clean input) : removeDotSegments input output = output ++ input := by
  fun_induction removeDotSegments input output with
  | case1 => exact (List.append_nil _).symm
  | case2 input output hne hA ih =>
    obtain ⟨r, rfl⟩ := hA
    simp [Clean, List.splitOn_cons_eq_if_modifyHead] at h
  | case3 input output hne _ hA ih =>
    obtain ⟨r, rfl⟩ := hA
    simp [Clean, List.splitOn_cons_eq_if_modifyHead] at h
  | case4 input output hne _ _ hB ih =>
    obtain ⟨r, rfl⟩ := hB
    simp [Clean, List.splitOn_cons_eq_if_modifyHead] at h
  | case5 output hne _ _ _ ih => simp [Clean, List.splitOn_cons_eq_if_modifyHead] at h
  | case6 input output hne _ _ _ _ hC ih =>
    obtain ⟨r, rfl⟩ := hC
    simp [Clean, List.splitOn_cons_eq_if_modifyHead] at h
  | case7 output hne _ _ _ _ _ ih => simp [Clean, List.splitOn_cons_eq_if_modifyHead] at h
  | case8 input output hne _ _ _ _ _ _ hD ih =>
    rcases hD with rfl | rfl
    · simp [Clean, List.splitOn_cons_eq_if_modifyHead] at h
    · simp [Clean, List.splitOn_cons_eq_if_modifyHead] at h
  | case9 input output hne hA hA' hB hB' hC hC' hD ih =>
    obtain ⟨rest, hrest, hnext⟩ := firstSegment_append input
    rw [drop_firstSegment hrest] at ih ⊢
    have hclean : Clean rest := by
      rcases hnext with rfl | ⟨r, rfl⟩
      · exact clean_nil
      · rw [hrest, clean_append] at h
        rw [← List.nil_append (47#8 :: r), clean_append]
        exact ⟨clean_nil, h.2⟩
    rw [ih hclean, List.append_assoc, ← hrest]

/-! ### The loops -/

section

variable {σ : Type} {A : Allocator σ} {fuel : Nat} {b p : Bytes} {i : Nat}

theorem isAtLoop_eq : ∀ (s : Bytes) (i : Nat), i + s.length ≤ b.length → isAtLoop b i s = done (decide (s <+: b.drop i))
  | [], _, _ => by simp [isAtLoop]
  | c :: s, i, h => by
      rw [List.length_cons] at h
      obtain ⟨d, r, hdrop⟩ := exists_cons (show i < b.length by omega)
      rw [isAtLoop, byteAt_drop hdrop, done_bind, isAtLoop_eq s (i + 1) (by omega), drop_succ hdrop, hdrop]
      by_cases hc : d = c
      · subst hc
        simp
      · rw [if_pos (by simpa [BitVec.toNat_inj] using hc)]
        simp [Ne.symm hc]

/-- `str.is_at` looks for the text at the place. -/
theorem isAt_eq (s : Bytes) (h : i ≤ b.length) : isAt b i s = done (decide (s <+: b.drop i)) := by
  rw [isAt]
  by_cases hlt : b.length < i + s.length
  · rw [if_pos hlt, pure_eq]
    have hnot : ¬ s <+: b.drop i := fun hp => by
      have hle := hp.length_le
      rw [List.length_drop] at hle
      omega
    rw [decide_eq_false hnot]
  · rw [if_neg hlt, isAtLoop_eq s i (Nat.le_of_not_lt hlt)]

/-- … and is the rest of the view, if that is as long. -/
theorem isAt_and_eq {s : Bytes} (hs : s.length = n) : (decide (s <+: b) && decide (b.length = n)) = decide (b = s) := by
  rw [← Bool.decide_and]
  refine decide_eq_decide.mpr ⟨fun ⟨hp, hlen⟩ => (hp.eq_of_length (by rw [hs, hlen])).symm, ?_⟩
  rintro rfl
  exact ⟨List.prefix_rfl, hs⟩

theorem backRound_loop (b : Bytes) : ∀ (k m : Nat), k ≤ b.length → k < m →
    iterate (backRound b) m k = done ((b.take k).rdropWhile (· ≠ 47#8)).length
  | 0, m + 1, _, _ => rfl
  | k + 1, m + 1, hk, hm => by
      obtain ⟨c, r, hdrop⟩ := exists_cons (show k < b.length by omega)
      have htake : b.take (k + 1) = b.take k ++ [c] := by
        rw [List.take_add_one, getElem?_of_drop hdrop]
        rfl
      rw [iterate, backRound, if_pos (Nat.succ_pos k), Nat.add_sub_cancel, byteAt_drop hdrop, done_bind, htake]
      by_cases hc : c = 47#8
      · subst hc
        rw [List.rdropWhile_concat_neg _ _ _ (by simp)]
        simp [Nat.min_eq_left (show k ≤ b.length by omega)]
      · rw [List.rdropWhile_concat_pos _ _ _ (by simpa using hc), if_pos (show c.toNat ≠ 47 from fun h => hc (BitVec.eq_of_toNat_eq h))]
        exact backRound_loop b k m (by omega) (by omega)

theorem back_eq (hfuel : b.length < fuel) :
    iterate (backRound b) fuel b.length = done (b.rdropWhile (· ≠ 47#8)).length := by
  rw [backRound_loop b b.length fuel le_rfl hfuel, List.take_length]

theorem dropLast_eq {o : Content σ} (hfuel : o.bytes.length < fuel) :
    dropLast fuel o = done { o with bytes := dropSegment o.bytes } := by
  have hprefix := List.rdropWhile_prefix (p := (· ≠ 47#8)) (l := o.bytes)
  have hle := hprefix.length_le
  rw [dropLast, back_eq hfuel, done_bind]
  have hk : (if 0 < (o.bytes.rdropWhile (· ≠ 47#8)).length then (o.bytes.rdropWhile (· ≠ 47#8)).length - 1
      else (o.bytes.rdropWhile (· ≠ 47#8)).length) = (o.bytes.rdropWhile (· ≠ 47#8)).length - 1 := by
    split <;> omega
  have htake : o.bytes.take ((o.bytes.rdropWhile (· ≠ 47#8)).length - 1) = dropSegment o.bytes := by
    rw [dropSegment]
    generalize o.bytes.rdropWhile (· ≠ 47#8) = p at hprefix
    obtain ⟨t, ht⟩ := hprefix
    rw [← ht, List.dropLast_eq_take, List.take_append_of_le_length (by omega)]
  dsimp only
  rw [hk, htake, require, if_pos (decide_eq_true (by omega)), done_bind]
  rfl

/-! ### The loop of `remove_dots_into` -/

/-- What a round does to the output: the last segment may go, and a text is put after it. -/
structure Edit where
  cut : Bool
  text : Bytes

namespace Edit

def apply (e : Edit) (output : Bytes) : Bytes := (if e.cut then dropSegment output else output) ++ e.text

variable (A fuel) in
def run (o : Content σ) (e : Edit) : Outcome (Content σ) :=
  pushAll A fuel (if e.cut then { o with bytes := dropSegment o.bytes } else o) e.text

theorem run_returns (o : Content σ) (e : Edit) : Returns (fun o' => o'.bytes = e.apply o.bytes) (e.run A fuel o) := by
  rw [run, apply]
  refine (pushAll_returns e.text _).mono fun o' ho' => ?_
  rw [ho']
  cases e.cut with
  | true => rfl
  | false => rfl

end Edit

theorem length_dropSegment_le (output : Bytes) : (dropSegment output).length ≤ output.length := by
  have hle := (List.rdropWhile_prefix (p := (· ≠ 47#8)) (l := output)).length_le
  rw [dropSegment, List.length_dropLast]
  omega

theorem Edit.length_apply_le (e : Edit) (output : Bytes) : (e.apply output).length ≤ output.length + e.text.length := by
  have hle := length_dropSegment_le output
  rw [Edit.apply, List.length_append]
  split <;> omega

/-- A part of a view is pushed byte by byte. -/
theorem pushAll_slice (path : Bytes) : ∀ (m i : Nat) (o : Content σ), i + m ≤ path.length →
    foldAll (fun o k => do o.pushByte A fuel (BitVec.ofNat 32 (← byteAt path k))) o (List.range' i m)
      = pushAll A fuel o ((path.drop i).take m)
  | 0, _, _, _ => rfl
  | m + 1, i, o, h => by
      obtain ⟨c, r, hdrop⟩ := exists_cons (show i < path.length by omega)
      have hc : (BitVec.ofNat 32 c.toNat).setWidth 8 = c := by
        apply BitVec.eq_of_toNat_eq
        simp
      rw [List.range'_succ, foldAll, byteAt_drop hdrop, done_bind, hdrop, List.take_succ_cons, pushAll_cons hc, ← drop_succ hdrop]
      congr
      funext o'
      exact pushAll_slice path m (i + 1) o' (by omega)

/-- Up to the next `/`. -/
theorem Cut.takeWhile_eq {k e : Nat} (h : Cut path k path.length [47] e) :
    (path.drop k).take (e - k) = (path.drop k).takeWhile (· ≠ 47#8) := by
  have hrest : (path.drop e).takeWhile (· ≠ 47#8) = [] := by
    rcases Nat.lt_or_ge e path.length with hlt | hge
    · obtain ⟨c, r, hdrop, hc⟩ := h.found hlt
      obtain rfl : c = 47#8 := BitVec.eq_of_toNat_eq (List.mem_singleton.mp hc)
      rw [hdrop]
      rfl
    · rw [List.drop_eq_nil_of_le hge]
      rfl
  conv_rhs => rw [drop_eq_append h.le]
  rw [List.takeWhile_append_of_pos, hrest, List.append_nil]
  intro c hc
  exact decide_eq_true fun hc47 => h.none c hc (by rw [hc47]; exact List.mem_singleton_self _)

/-- The part that step E moves. -/
theorem firstSegment_view {c : BitVec 8} {r : Bytes} {e : Nat} (hdrop : path.drop i = c :: r)
    (hcut : Cut path (i + if c.toNat = 47 then 1 else 0) path.length [47] e) :
    (path.drop i).take (e - i) = firstSegment (path.drop i) ∧ i < e := by
  by_cases hc : c.toNat = 47
  · rw [if_pos hc] at hcut
    have hle := hcut.le
    have htake := hcut.takeWhile_eq
    rw [drop_succ hdrop] at htake
    rw [hdrop, firstSegment, ← htake, show e - i = (e - (i + 1)) + 1 by omega, List.take_succ_cons]
    exact ⟨rfl, by omega⟩
  · rw [if_neg hc, Nat.add_zero] at hcut
    have hlt : i < e := by
      refine Nat.lt_of_le_of_ne hcut.le fun heq => ?_
      subst heq
      obtain ⟨d, r', hd, hd47⟩ := hcut.found (lt_of_drop hdrop)
      rw [hdrop] at hd
      injection hd with hd
      exact hc (hd ▸ List.mem_singleton.mp hd47)
    rw [hcut.takeWhile_eq, hdrop, firstSegment, List.takeWhile_cons_of_pos]
    · exact ⟨rfl, hlt⟩
    · exact decide_eq_true fun h => hc (by rw [h]; rfl)

/-- Step E. -/
theorem moveSegment_eq (hi : i < path.length) (hinput : path.drop i = input) (o : Content σ) :
    (do let c ← byteAt path i
        let end_ ← findAny path (i + if c = 47 then 1 else 0) path.length [47]
        let o ← foldAll (fun o k => do o.pushByte A fuel (BitVec.ofNat 32 (← byteAt path k))) o (List.range' i (end_ - i))
        done (.inl (o, end_)) : Outcome (Content σ × Nat ⊕ Content σ))
      = pushAll A fuel o (firstSegment input) >>= fun o => done (.inl (o, i + (firstSegment input).length)) := by
  obtain ⟨c, r, hdrop⟩ := exists_cons hi
  obtain ⟨e, hfind, hcut⟩ := findAny_eq (b := path) [47]
    (show (i + if c.toNat = 47 then 1 else 0) ≤ path.length by split <;> omega) le_rfl
  obtain ⟨htake, hlt⟩ := firstSegment_view hdrop hcut
  have hlen : (firstSegment input).length = e - i := by
    rw [← hinput, ← htake, List.length_take, List.length_drop]
    have hle := hcut.le_to
    omega
  rw [byteAt_drop hdrop, done_bind, hfind, done_bind, pushAll_slice path (e - i) i o (by have hle := hcut.le_to; omega),
    htake, hinput, hlen, Nat.add_sub_cancel' hlt.le]

variable (A fuel) in
/-- A round, by what the rest of the path begins with. -/
theorem removeRound_if (hi : i < path.length) (hinput : path.drop i = input) (o : Content σ) (ho : o.bytes.length < fuel) :
    removeRound A fuel path (o, i) =
      if [46#8, 46#8, 47#8] <+: input then pure (.inl (o, i + 3))
      else if [46#8, 47#8] <+: input then pure (.inl (o, i + 2))
      else if [47#8, 46#8, 47#8] <+: input then pure (.inl (o, i + 2))
      else if input = [47#8, 46#8] then pushAll A fuel o [47#8] >>= fun o => pure (.inl (o, path.length))
      else if [47#8, 46#8, 46#8, 47#8] <+: input then pure (.inl ({ o with bytes := dropSegment o.bytes }, i + 3))
      else if input = [47#8, 46#8, 46#8] then
        pushAll A fuel { o with bytes := dropSegment o.bytes } [47#8] >>= fun o => pure (.inl (o, path.length))
      else if input = [46#8] ∨ input = [46#8, 46#8] then pure (.inl (o, path.length))
      else pushAll A fuel o (firstSegment input) >>= fun o => pure (.inl (o, i + (firstSegment input).length)) := by
  have hat := fun s => isAt_eq (b := path) s hi.le
  have hlen : input.length = path.length - i := by rw [← hinput, List.length_drop]
  have hslash : ∀ o : Content σ, o.pushByte A fuel 47#32 = pushAll A fuel o [47#8] := fun o => (pushAll_one rfl).symm
  have hexact := fun (s : Bytes) n (hs : s.length = n) => isAt_and_eq (b := input) hs
  rw [hinput] at hat
  rw [hlen] at hexact
  rw [removeRound]
  simp only [hat, if_pos hi, done_bind, pure_eq, decide_eq_true_eq, hexact [47#8, 46#8] 2 rfl,
    hexact [47#8, 46#8, 46#8] 3 rfl, hexact [46#8] 1 rfl, hexact [46#8, 46#8] 2 rfl, hslash, dropLast_eq ho,
    Bool.or_eq_true, moveSegment_eq hi hinput]

variable (A fuel) in
/-- **A round** edits the output, and goes on with the rest of the input as the standard does. -/
theorem removeRound_eq (hi : i < path.length) : ∃ (e : Edit) (i' : Nat), i < i' ∧ i' ≤ path.length ∧
    e.text.length ≤ i' - i ∧
    (∀ output, removeDotSegments (path.drop i) output = removeDotSegments (path.drop i') (e.apply output)) ∧
    ∀ o : Content σ, o.bytes.length < fuel →
      removeRound A fuel path (o, i) = e.run A fuel o >>= fun o => pure (.inl (o, i')) := by
  generalize hinput : path.drop i = input
  have hlen : input.length = path.length - i := by rw [← hinput, List.length_drop]
  have hround := removeRound_if A fuel hi hinput
  have hskip : ∀ k : Nat, path.drop (i + k) = input.drop k := fun k => by rw [← hinput, List.drop_drop]
  have hend : path.drop path.length = [] := List.drop_length
  have hne : input ≠ [] := fun h => by rw [h] at hlen; simp at hlen; omega
  have hspec := fun output => removeDotSegments.eq_1 input output
  simp only [if_neg hne] at hspec
  by_cases hA : [46#8, 46#8, 47#8] <+: input
  · have hle := hA.length_le
    simp only [if_pos hA] at hround hspec
    refine ⟨⟨false, []⟩, i + 3, by omega, by simp at hle; omega, by simp, fun output => ?_, hround⟩
    rw [hspec, hskip]
    simp [Edit.apply]
  simp only [if_neg hA] at hround hspec
  by_cases hA' : [46#8, 47#8] <+: input
  · have hle := hA'.length_le
    simp only [if_pos hA'] at hround hspec
    refine ⟨⟨false, []⟩, i + 2, by omega, by simp at hle; omega, by simp, fun output => ?_, hround⟩
    rw [hspec, hskip]
    simp [Edit.apply]
  simp only [if_neg hA'] at hround hspec
  by_cases hB : [47#8, 46#8, 47#8] <+: input
  · have hle := hB.length_le
    simp only [if_pos hB] at hround hspec
    refine ⟨⟨false, []⟩, i + 2, by omega, by simp at hle; omega, by simp, fun output => ?_, hround⟩
    obtain ⟨r, rfl⟩ := hB
    rw [hspec, hskip]
    simp [Edit.apply]
  simp only [if_neg hB] at hround hspec
  have hslash : ∀ output, removeDotSegments [47#8] output = output ++ [47#8] := fun output =>
    removeDotSegments_of_clean (by simp [Clean, List.splitOn_cons_eq_if_modifyHead])
  by_cases hB' : input = [47#8, 46#8]
  · simp only [if_pos hB'] at hround hspec
    refine ⟨⟨false, [47#8]⟩, path.length, hi, le_rfl, by simp; omega, fun output => ?_, hround⟩
    rw [hspec, hend, hslash, removeDotSegments]
    simp [Edit.apply]
  simp only [if_neg hB'] at hround hspec
  by_cases hC : [47#8, 46#8, 46#8, 47#8] <+: input
  · have hle := hC.length_le
    simp only [if_pos hC] at hround hspec
    refine ⟨⟨true, []⟩, i + 3, by omega, by simp at hle; omega, by simp, fun output => ?_, hround⟩
    obtain ⟨r, rfl⟩ := hC
    rw [hspec, hskip]
    simp [Edit.apply]
  simp only [if_neg hC] at hround hspec
  by_cases hC' : input = [47#8, 46#8, 46#8]
  · simp only [if_pos hC'] at hround hspec
    refine ⟨⟨true, [47#8]⟩, path.length, hi, le_rfl, by simp; omega, fun output => ?_, hround⟩
    rw [hspec, hend, hslash, removeDotSegments]
    simp [Edit.apply]
  simp only [if_neg hC'] at hround hspec
  by_cases hD : input = [46#8] ∨ input = [46#8, 46#8]
  · simp only [if_pos hD] at hround hspec
    refine ⟨⟨false, []⟩, path.length, hi, le_rfl, by simp, fun output => ?_, hround⟩
    rw [hspec, hend]
    simp [Edit.apply]
  simp only [if_neg hD] at hround hspec
  obtain ⟨rest, hrest, -⟩ := firstSegment_append input
  have hle := congrArg List.length hrest
  rw [List.length_append] at hle
  have hpos : 0 < (firstSegment input).length := by
    obtain ⟨c, r, rfl⟩ := List.exists_cons_of_ne_nil hne
    exact Nat.succ_pos _
  refine ⟨⟨false, firstSegment input⟩, i + (firstSegment input).length, by omega, by omega, by simp, fun output => ?_, hround⟩
  rw [hspec, hskip]
  simp [Edit.apply]

variable (A) in
/-- **The loop** is a run of edits: as many bytes as the path has are pushed at most, and what they make of the output
is the standard's. -/
theorem removeDots_run (hfuel : path.length < fuel) : ∀ (n i : Nat), path.length = i + n →
    ∃ es : List Edit, (es.map fun e => e.text.length).sum ≤ n ∧
      (∀ output, removeDotSegments (path.drop i) output = es.foldl (fun output e => e.apply output) output) ∧
      ∀ (m : Nat) (o : Content σ), n < m → o.bytes.length ≤ i →
        iterate (removeRound A fuel path) m (o, i) = foldAll (Edit.run A fuel) o es := by
  intro n
  induction n using Nat.strongRecOn with
  | ind n ih =>
    intro i hn
    rcases Nat.eq_zero_or_pos n with rfl | hpos
    · refine ⟨[], le_rfl, fun output => ?_, fun m o hm ho => ?_⟩
      · rw [List.drop_eq_nil_of_le (by omega), removeDotSegments, if_pos rfl]
        rfl
      · obtain ⟨m, rfl⟩ := Nat.exists_eq_add_one_of_ne_zero (Nat.ne_of_gt hm)
        rw [iterate, removeRound]
        dsimp only
        rw [if_neg (by omega)]
        rfl
    · obtain ⟨e, i', hlt, hle, htext, hspec, hround⟩ := removeRound_eq A fuel (show i < path.length by omega)
      obtain ⟨es, hsum, hes, hrun⟩ := ih (path.length - i') (by omega) i' (by omega)
      refine ⟨e :: es, ?_, fun output => ?_, fun m o hm ho => ?_⟩
      · rw [List.map_cons, List.sum_cons]
        omega
      · rw [hspec, hes, List.foldl_cons]
      · obtain ⟨m, rfl⟩ := Nat.exists_eq_add_one_of_ne_zero (show m ≠ 0 by omega)
        rw [iterate, hround o (by omega), bind_assoc, foldAll]
        refine bind_congr_of_returns (e.run_returns o) fun o' ho' => ?_
        have hlen := e.length_apply_le o.bytes
        rw [← ho'] at hlen
        rw [pure_eq, done_bind]
        exact hrun m o' (by omega) (by omega)

theorem edits_returns : ∀ (es : List Edit) (o : Content σ),
    Returns (fun o' => o'.bytes = es.foldl (fun output e => e.apply output) o.bytes) (foldAll (Edit.run A fuel) o es)
  | [], _ => rfl
  | e :: es, o => by
      rw [foldAll]
      refine returns_bind (e.run_returns o) fun o' ho' => (edits_returns es o').mono fun o'' ho'' => ?_
      rw [ho'', ho', List.foldl_cons]

/-- Up to the bytes that doubling reaches, the edits are made. -/
theorem edits_sat {N : Nat} (hfuel : 2 ^ 31 ≤ fuel) : ∀ (es : List Edit) (o : Content σ), o.Holds N →
    o.bytes.length + (es.map fun e => e.text.length).sum ≤ N →
    Sat (fun o' => o'.bytes = es.foldl (fun output e => e.apply output) o.bytes) (foldAll (Edit.run A fuel) o es)
  | [], _, _, _ => rfl
  | e :: es, o, hN, hroom => by
      rw [List.map_cons, List.sum_cons] at hroom
      have hdrop := length_dropSegment_le o.bytes
      have hlen := e.length_apply_le o.bytes
      have hrun : Sat (fun o' => o'.bytes = e.apply o.bytes ∧ o'.Holds N) (e.run A fuel o) := by
        rw [Edit.run, Edit.apply]
        cases e.cut with
        | true => exact pushAll_sat hfuel e.text { o with bytes := dropSegment o.bytes } hN (by dsimp only; omega)
        | false => exact pushAll_sat hfuel e.text o hN (by omega)
      rw [foldAll]
      refine sat_bind hrun ?_
      rintro o' ⟨ho', hN'⟩
      refine (edits_sat hfuel es o' hN' ?_).mono fun o'' ho'' => ?_
      · rw [ho']
        omega
      · rw [ho'', ho', List.foldl_cons]

/-- **`remove_dots_into`** on a path: for every output, a run of edits that push at most as many bytes as the path has;
it makes the standard's path, and ends where the output can grow to hold as many bytes. -/
structure RemovesDots (A : Allocator σ) (fuel : Nat) (path : Bytes) : Prop where
  edits : ∃ es : List Edit, (es.map fun e => e.text.length).sum ≤ path.length ∧
    ∀ o : Content σ, o.bytes = [] → removeDotsInto A fuel o path = foldAll (Edit.run A fuel) o es
  returns : ∀ o : Content σ, o.bytes = [] →
    Returns (fun o' => o'.bytes = removeDotSegments path []) (removeDotsInto A fuel o path)
  ends : ∀ o : Content σ, o.bytes = [] → o.Holds path.length →
    Sat (fun o' => o'.bytes = removeDotSegments path []) (removeDotsInto A fuel o path)

theorem removeDotsInto_removesDots (hpath : path.length < fuel) (hfuel : 2 ^ 31 ≤ fuel) : RemovesDots A fuel path := by
  obtain ⟨es, hsum, hspec, hloop⟩ := removeDots_run A hpath path.length 0 (Nat.zero_add _).symm
  have hrun : ∀ o : Content σ, o.bytes = [] → removeDotsInto A fuel o path = foldAll (Edit.run A fuel) o es := by
    intro o ho
    rw [removeDotsInto, require, if_pos (by simp [ho]), done_bind]
    exact hloop fuel o hpath (by simp [ho])
  rw [List.drop_zero] at hspec
  refine ⟨⟨es, hsum, hrun⟩, fun o ho => ?_, fun o ho hN => ?_⟩
  · rw [hrun o ho, hspec, ← ho]
    exact edits_returns es o
  · rw [hrun o ho, hspec, ← ho]
    exact edits_sat hfuel es o hN (by simp [ho]; omega)

/-! ### The target -/

theorem mergeInto_eq {base : Url} (hfuel : base.path.length < fuel) (path : Bytes) (o : Content σ) :
    mergeInto A fuel o base path =
      (if base.hasAuthority ∧ base.path = [] then o.pushByte A fuel 47#32
        else o.pushBytes A fuel (base.path.rdropWhile (· ≠ 47#8))) >>= fun o => o.pushBytes A fuel path := by
  have hprefix := List.rdropWhile_prefix (p := (· ≠ 47#8)) (l := base.path)
  have hview : view base.path 0 (base.path.rdropWhile (· ≠ 47#8)).length = done (base.path.rdropWhile (· ≠ 47#8)) := by
    rw [view_eq (Nat.zero_le _) hprefix.length_le, List.drop_zero, Nat.sub_zero, ← List.prefix_iff_eq_take.mp hprefix]
  rw [mergeInto]
  simp only [List.length_eq_zero_iff, back_eq hfuel, done_bind, hview]

theorem mergePaths_eq (base : Url) (path : Bytes) : mergePaths base path =
    (if base.hasAuthority ∧ base.path = [] then [47#8] else base.path.rdropWhile (· ≠ 47#8)) ++ path := by
  rw [mergePaths]
  split <;> rfl

theorem appends_mergeInto {base : Url} (hfuel : base.path.length < fuel) (path : Bytes) :
    Appends (fun o : Content σ => mergeInto A fuel o base path) (mergePaths base path) := by
  simp only [mergeInto_eq hfuel, mergePaths_eq]
  exact (appends_ite (fun _ => appends_pushByte rfl) fun _ => appends_pushBytes _).bind (appends_pushBytes path)

theorem mergeInto_sat {base : Url} {N : Nat} {o : Content σ} (hbase : base.path.length < fuel) (hfuel : 2 ^ 31 ≤ fuel)
    (hN : o.Holds N) (hle : o.bytes.length + (mergePaths base path).length ≤ N) :
    Sat (fun o' => o'.bytes = o.bytes ++ mergePaths base path) (mergeInto A fuel o base path) := by
  rw [mergePaths_eq, List.length_append] at hle
  rw [mergeInto_eq hbase, mergePaths_eq]
  have hdir : Sat (fun o' => o'.bytes = o.bytes ++ (if base.hasAuthority ∧ base.path = [] then [47#8]
      else base.path.rdropWhile (· ≠ 47#8)) ∧ o'.Holds N)
      (if base.hasAuthority ∧ base.path = [] then o.pushByte A fuel 47#32
        else o.pushBytes A fuel (base.path.rdropWhile (· ≠ 47#8))) := by
    by_cases hroot : base.hasAuthority ∧ base.path = []
    · simp only [if_pos hroot, List.length_singleton] at hle ⊢
      exact Content.pushByte_sat hN (by omega) hfuel
    · simp only [if_neg hroot] at hle ⊢
      exact Content.pushBytes_sat hN (by omega) hfuel
  refine sat_bind hdir fun o' ⟨ho', hN'⟩ => (Content.pushBytes_sat hN' ?_ hfuel).mono fun o'' ⟨ho'', _⟩ => ?_
  · rw [ho', List.length_append]
    omega
  · rw [ho'', ho', List.append_assoc]

theorem setPath_returns (heap : σ) (t : Url) (hpath : path.length < fuel) (hfuel : 2 ^ 31 ≤ fuel) :
    Returns (fun t' => t' = { t with path := removeDotSegments path [] }) (setPath A fuel heap t path) := by
  rw [setPath]
  refine returns_bind (make_returns heap _) fun o ho => ?_
  refine returns_bind ((removeDotsInto_removesDots hpath hfuel).returns o ho) fun o' ho' => ?_
  rw [ho']
  rfl

theorem setPath_sat (heap : σ) (t : Url) (hpath : path.length + 1 < 2 ^ 31) (hfuel : 2 ^ 31 ≤ fuel) :
    Sat (fun t' => t' = { t with path := removeDotSegments path [] }) (setPath A fuel heap t path) := by
  have hcap : (arrLen path + 1#32).toNat = path.length + 1 := by
    have h1 : (1#32).toNat = 1 := rfl
    rw [toNat_add_of_lt (by rw [toNat_arrLen (by omega)]; omega), toNat_arrLen (by omega), h1]
  rw [setPath]
  refine sat_bind (make_holds (N := path.length) heap (by omega) (by omega)) fun o ⟨ho, hN⟩ => ?_
  refine sat_bind ((removeDotsInto_removesDots (by omega) hfuel).ends o ho hN) fun o' ho' => ?_
  rw [ho']
  rfl

/-- The scheme and the authority of the base. -/
def withBase (base t : Url) : Url :=
  { t with scheme := base.scheme, hasAuthority := base.hasAuthority, authority := base.authority, hasUser := base.hasUser,
           user := base.user, hasPassword := base.hasPassword, password := base.password, host := base.host,
           port := base.port }

/-- The ways that `resolve` may take. -/
inductive Resolution (A : Allocator σ) (fuel : Nat) (heap : σ) (base ref : Url) : Prop where
  | copied (h : resolve A fuel heap base ref = pure (target base ref))
  | cleaned (f : Url → Url) (hf : f { ref with path := removeDotSegments ref.path [] } = target base ref)
      (h : resolve A fuel heap base ref = setPath A fuel heap ref ref.path >>= fun t => pure (f t))
  | merged (hmerges : Merges ref) (f : Url → Url)
      (hf : f { ref with path := removeDotSegments (mergePaths base ref.path) [] } = target base ref)
      (h : resolve A fuel heap base ref = (do
        let m ← Content.make A heap 64#32
        let m ← mergeInto A fuel m base ref.path
        let t ← setPath A fuel m.heap ref m.bytes
        pure (f t)))

variable (A fuel) in
theorem resolve_resolution (heap : σ) (base ref : Url) : Resolution A fuel heap base ref := by
  by_cases hscheme : ref.scheme = []
  · have hnone : ¬ 0 < ref.scheme.length := by simp [hscheme]
    cases hauthority : ref.hasAuthority with
    | true =>
      refine .cleaned (fun t => { t with scheme := base.scheme }) ?_ ?_
      · simp [target, hscheme, hauthority]
      · rw [resolve, if_neg hnone, if_pos hauthority]
    | false =>
      cases hpath : ref.path with
      | nil =>
        refine .copied ?_
        rw [resolve, if_neg hnone, if_neg (by simp [hauthority]), if_pos (by simp [hpath])]
        cases hquery : ref.hasQuery with
        | true => simp [target, hscheme, hauthority, hpath, hquery]
        | false => simp [target, hscheme, hauthority, hpath, hquery]
      | cons c r =>
        have hbyte : byteAt ref.path 0 = done c.toNat := byteAt_drop (show ref.path.drop 0 = c :: r by rw [hpath]; rfl)
        by_cases hc : c.toNat = 47
        · obtain rfl : c = 47#8 := BitVec.eq_of_toNat_eq hc
          refine .cleaned (withBase base) ?_ ?_
          · simp [target, withBase, hscheme, hauthority, hpath]
          · rw [resolve, if_neg hnone, if_neg (by simp [hauthority]), if_neg (by simp [hpath]), hbyte, done_bind, if_pos hc]
            simp [withBase]
        · have hne : (47#8 : BitVec 8) ≠ c := fun h => hc (by rw [← h]; rfl)
          refine .merged ⟨hscheme, hauthority, by simp [hpath], by simp [hpath, hne]⟩ (withBase base) ?_ ?_
          · simp [target, withBase, hscheme, hauthority, hpath, hne]
          · rw [resolve, if_neg hnone, if_neg (by simp [hauthority]), if_neg (by simp [hpath]), hbyte, done_bind, if_neg hc]
            simp [withBase]
  · refine .cleaned id ?_ ?_
    · simp [target, hscheme]
    · rw [resolve, if_pos (List.length_pos_iff.mpr hscheme)]
      exact (bind_pure _).symm

/-- What `resolve` returns is the target. -/
theorem resolve_returns (heap : σ) {base ref : Url} (hbase : base.path.length + ref.path.length + 1 < fuel)
    (hfuel : 2 ^ 31 ≤ fuel) : Returns (fun t => t = target base ref) (resolve A fuel heap base ref) := by
  cases resolve_resolution A fuel heap base ref with
  | copied h =>
    rw [h]
    rfl
  | cleaned f hf h =>
    rw [h]
    refine returns_bind (setPath_returns heap ref (by omega) hfuel) ?_
    rintro _ rfl
    exact hf
  | merged _ f hf h =>
    rw [h]
    refine returns_bind (make_returns heap 64#32) fun m hm => ?_
    refine returns_bind ((appends_mergeInto (by omega) ref.path).returns m) fun m' hm' => ?_
    rw [hm, List.nil_append] at hm'
    have hle := (List.rdropWhile_prefix (p := (· ≠ 47#8)) (l := base.path)).length_le
    have hlen : (mergePaths base ref.path).length ≤ base.path.length + ref.path.length + 1 := by
      rw [mergePaths_eq, List.length_append]
      split
      · rw [List.length_singleton]
        omega
      · omega
    rw [hm']
    refine returns_bind (setPath_returns m'.heap ref (by omega) hfuel) ?_
    rintro _ rfl
    exact hf

/-- … and it returns it where the merged path, if there is one, fits a buffer. -/
theorem resolve_sat (heap : σ) {base ref : Url} (hbase : base.path.length + 8 < 2 ^ 31) (href : ref.path.length + 8 < 2 ^ 31)
    (hmerged : Merges ref → (mergePaths base ref.path).length ≤ 2 ^ 30) (hfuel : 2 ^ 31 ≤ fuel) :
    Sat (fun t => t = target base ref) (resolve A fuel heap base ref) := by
  cases resolve_resolution A fuel heap base ref with
  | copied h =>
    rw [h]
    rfl
  | cleaned f hf h =>
    rw [h]
    refine sat_bind (setPath_sat heap ref (by omega) hfuel) ?_
    rintro _ rfl
    exact hf
  | merged hmerges f hf h =>
    have hfits := hmerged hmerges
    have h64 : (64#32).toNat = 64 := rfl
    rw [h]
    refine sat_bind (Content.make_sat (by decide)) fun m ⟨hm, hcap⟩ => ?_
    have hN : m.Holds (2 ^ 30) := ⟨24, by rw [hcap, h64]; norm_num, by rw [hcap, h64]; norm_num⟩
    refine sat_bind (mergeInto_sat (by omega) hfuel hN (by rw [hm, List.length_nil]; omega)) fun m' hm' => ?_
    rw [hm, List.nil_append] at hm'
    rw [hm']
    refine sat_bind (setPath_sat m'.heap ref (by omega) hfuel) ?_
    rintro _ rfl
    exact hf

end

/-- **Resolving follows the standard.**  On every path `remove_dots_into` computes 5.2.4, whose output has no dot
segments and is not changed by another run, `merge_into` computes 5.2.3, and `resolve` computes 5.2.2. -/
theorem resolving_follows {σ : Type} (A : Allocator σ) (fuel : Nat) (hfuel : 2 ^ 32 ≤ fuel) :
    (∀ path : Bytes, path.length + 8 < 2 ^ 31 → RemovesDots A fuel path ∧
      (∀ s ∈ (removeDotSegments path []).splitOn 47#8, s ≠ [46#8] ∧ s ≠ [46#8, 46#8]) ∧
      removeDotSegments (removeDotSegments path []) [] = removeDotSegments path []) ∧
    (∀ (base : Url) (path : Bytes), base.path.length + 8 < 2 ^ 31 →
      Appends (fun o : Content σ => mergeInto A fuel o base path) (mergePaths base path)) ∧
    ∀ (heap : σ) (base ref : Url), base.path.length + 8 < 2 ^ 31 → ref.path.length + 8 < 2 ^ 31 →
      Returns (fun t => t = target base ref) (resolve A fuel heap base ref) ∧
      ((Merges ref → (mergePaths base ref.path).length ≤ 2 ^ 30) →
        Sat (fun t => t = target base ref) (resolve A fuel heap base ref)) := by
  refine ⟨fun path hpath => ⟨removeDotsInto_removesDots (by omega) (by omega), ?_⟩, fun base path hbase => ?_,
    fun heap base ref hbase href => ⟨?_, fun hmerged => ?_⟩⟩
  · have hclean : Clean (removeDotSegments path []) := clean_removeDotSegments (.inl rfl) clean_nil
    exact ⟨hclean, removeDotSegments_of_clean hclean⟩
  · exact appends_mergeInto (by omega) path
  · exact resolve_returns heap (by omega) (by omega)
  · exact resolve_sat heap hbase href hmerged (by omega)

/-- The base `http://a/b/c/d`. -/
def deepUrl : Url where
  scheme := [104#8, 116#8, 116#8, 112#8]
  hasAuthority := true
  authority := [97#8]
  hasUser := false
  user := []
  hasPassword := false
  password := []
  host := [97#8]
  port := -1
  path := [47#8, 98#8, 47#8, 99#8, 47#8, 100#8]
  hasQuery := false
  query := []
  hasFragment := false
  fragment := []

/-- The reference `../g?y`. -/
def upwards : Url where
  scheme := []
  hasAuthority := false
  authority := []
  hasUser := false
  user := []
  hasPassword := false
  password := []
  host := []
  port := -1
  path := [46#8, 46#8, 47#8, 103#8]
  hasQuery := true
  query := [121#8]
  hasFragment := false
  fragment := []

theorem target_upwards : target deepUrl upwards =
    { deepUrl with path := [47#8, 98#8, 47#8, 103#8], hasQuery := true, query := [121#8] } := by
  simp [target, deepUrl, upwards, mergePaths, List.rdropWhile, removeDotSegments, dropSegment, firstSegment]

/-- `../g?y` is resolved against `http://a/b/c/d` to `http://a/b/g?y`. -/
theorem upwards_follows :
    Sat (fun t => t = { deepUrl with path := [47#8, 98#8, 47#8, 103#8], hasQuery := true, query := [121#8] })
        (resolve Allocator.ample (2 ^ 32) () deepUrl upwards) ∧
      RemovesDots Allocator.ample (2 ^ 32) upwards.path ∧
      Appends (fun o => mergeInto Allocator.ample (2 ^ 32) o deepUrl upwards.path)
        [47#8, 98#8, 47#8, 99#8, 47#8, 46#8, 46#8, 47#8, 103#8] := by
  have hresolving := resolving_follows Allocator.ample (2 ^ 32) le_rfl
  have hmerged : mergePaths deepUrl upwards.path = [47#8, 98#8, 47#8, 99#8, 47#8, 46#8, 46#8, 47#8, 103#8] := by decide
  refine ⟨?_, (hresolving.1 upwards.path (by decide)).1, ?_⟩
  · have hsat := (hresolving.2.2 () deepUrl upwards (by decide) (by decide)).2 fun _ => by rw [hmerged]; decide
    rwa [target_upwards] at hsat
  · have happends := hresolving.2.1 deepUrl upwards.path (by decide)
    rwa [hmerged] at happends

end Aipl.StdUrl
