import Aipl.Std.Http.Scans

/-! # The head is read as its list is

* `startLine_agrees`, `headerLine_agrees` — a line of the head.
* `head_agrees` — the start line and the headers, or the end of the text or of the limit.
-/

namespace Aipl.StdHttp

open Aipl.Lib Aipl.Lib.Outcome Aipl.Lib.Fallible Aipl.Std
open Aipl.StdStream (byteAt)
open Wire (Byte Field Head splitLine of_splitLine readRequestLine readStatusLine readStartLine readField
  readFields readFields_none readFields_nil readFields_line readHead versionOk digitValue statusOf trimOws must)

variable {b : Text} {fuel : Nat}

/-! ### Versions -/

theorem digitAt_eq {p : Nat} {c : Byte} (h : b.bytes[p]? = some c) :
    digitAt b (pos p) = done (isDigit (c.setWidth 32)) := by
  rw [digitAt, byteAt_pos h]
  rfl

theorem dotAt_eq {p : Nat} {c : Byte} (h : b.bytes[p]? = some c) :
    dotAt b (pos p) = done (decide (c = 46#8)) := by
  rw [dotAt, byteAt_pos h, done_bind, pure_eq]
  congr 1
  exact decide_eq_decide.mpr (setWidth_byte_inj (y := 46#8))

theorem isAt_eq {p : Nat} {s : List Byte} (hp : p + s.length ≤ b.bytes.length) (hfuel : 2 ^ 32 ≤ fuel) :
    isAt fuel b (pos p) s = done (decide ((b.bytes.drop p).take s.length = s)) := by
  have hlt := b.short
  have hbody : ∀ (k : Nat) (y : Byte), k < s.length → s[k]? = some y →
      (byteAt b.bytes (pos p + BitVec.ofNat 32 k) >>= fun x => arrGet s (BitVec.ofNat 32 k) >>= fun y =>
          pure (if x = y.setWidth 32 then none else some false))
        = done (if b.bytes[p + k]? = some y then none else some false) := by
    intro k y hk hy
    obtain ⟨x, hx⟩ := b.exists_byte (p := p + k) (by omega)
    have hk' : (BitVec.ofNat 32 k).toNat = k := toNat_pos (p := k) (by omega)
    have hadd : pos p + BitVec.ofNat 32 k = pos (p + k) := pos_add p k
    rw [hadd, byteAt_pos hx, done_bind, arrGet_eq (by rw [hk']; exact hy), done_bind, hx, pure_eq]
    congr 1
    by_cases hxy : x = y
    · rw [if_pos (by rw [hxy]), if_pos (by rw [hxy])]
    · rw [if_neg fun h => hxy (setWidth_byte_inj.mp h), if_neg fun h => hxy (Option.some.inj h)]
  have hneg : (pos p).slt 0#32 = false := not_slt_zero (by rw [toNat_pos (by omega)]; omega)
  have hsum : pos p + arrLen s = pos (p + s.length) := pos_add p s.length
  rw [isAt, hneg, hsum, Text.len_eq, pos_slt (by omega) (by omega), if_neg (by simp; omega)]
  have hloop := forReturn_eq (fun k => do
      let x ← byteAt b.bytes (pos p + k)
      let y ← arrGet s k
      pure (if x = y.setWidth 32 then none else some false)) true le_rfl (by omega) hbody fuel 0
    (Nat.zero_le _) (by omega)
  refine hloop.trans ?_
  rw [List.take_length, List.drop_zero]
  clear hloop hbody hsum hneg
  have hsearch : ∀ (s : List Byte) (lo : Nat), p + lo + s.length ≤ b.bytes.length →
      searchFrom (fun k y => if b.bytes[p + k]? = some y then none else some false) true lo s
        = decide ((b.bytes.drop (p + lo)).take s.length = s) := by
    intro s
    induction s with
    | nil => simp [searchFrom]
    | cons y s ih =>
      intro lo hle
      rw [List.length_cons] at hle
      obtain ⟨x, hx⟩ := b.exists_byte (p := p + lo) (by omega)
      rw [searchFrom, hx]
      have hdrop : b.bytes.drop (p + lo) = x :: b.bytes.drop (p + lo + 1) := by
        rw [List.drop_eq_getElem_cons (by omega)]
        congr 1
        exact (List.getElem?_eq_some_iff.mp hx).2
      by_cases hxy : x = y
      · rw [if_pos (by rw [hxy]), hdrop, List.length_cons, List.take_succ_cons]
        simp only [hxy, List.cons.injEq, true_and]
        exact ih (lo + 1) (by omega)
      · rw [if_neg fun h => hxy (Option.some.inj h), hdrop, List.length_cons, List.take_succ_cons]
        simp [hxy]
  have h0 := hsearch s 0 (by omega)
  rw [Nat.add_zero] at h0
  rw [h0]

theorem isVersion_eq {lo hi : Nat} (hlo : lo ≤ hi) (hhi : hi ≤ b.bytes.length) (hfuel : 2 ^ 32 ≤ fuel) :
    isVersion fuel b (pos lo) (pos hi) = done (versionOk (b.part lo hi)) := by
  have hlt := b.short
  have hlen := Text.length_part b lo _ hhi
  have h8 : pos hi - pos lo = 8#32 ↔ hi - lo = 8 := by
    rw [pos_sub hlo (by omega)]
    exact pos_inj (q := 8) (by omega) (by decide)
  by_cases heq : hi - lo = 8
  · obtain ⟨x0, x1, x2, x3, x4, x5, x6, x7, hpart⟩ : ∃ x0 x1 x2 x3 x4 x5 x6 x7,
        b.part lo hi = [x0, x1, x2, x3, x4, x5, x6, x7] := by
      have h := hlen.trans heq
      revert h
      rcases b.part lo hi with _ | ⟨x0, _ | ⟨x1, _ | ⟨x2, _ | ⟨x3, _ | ⟨x4, _ | ⟨x5, _ | ⟨x6, _ | ⟨x7, _ | ⟨x8, xs⟩⟩⟩⟩⟩⟩⟩⟩⟩
      all_goals simp
    have hget : ∀ {k : Nat} {x : Byte}, [x0, x1, x2, x3, x4, x5, x6, x7][k]? = some x →
        b.bytes[lo + k]? = some x := by
      intro k x hx
      have hk : k < 8 := (List.getElem?_eq_some_iff.mp hx).1
      rw [← Text.getElem?_part _ _ hi _ (by omega), hpart, hx]
    have h5 : pos lo + 5#32 = pos (lo + 5) := pos_add lo 5
    have h6 : pos lo + 6#32 = pos (lo + 6) := pos_add lo 6
    have h7 : pos lo + 7#32 = pos (lo + 7) := pos_add lo 7
    have htake : (b.bytes.drop lo).take HTTP.length = [x0, x1, x2, x3, x4] := by
      have h := Text.take_part b lo hi 5 (by omega)
      rw [hpart] at h
      rw [Text.part, ← List.take_drop] at h
      exact h.symm
    have hHTTP : HTTP.length = 5 := rfl
    rw [isVersion, if_pos (h8.mpr heq), h5, h6, h7, isAt_eq (by omega) hfuel, digitAt_eq (hget (k := 5) rfl),
      dotAt_eq (hget (k := 6) rfl), digitAt_eq (hget (k := 7) rfl), htake, hpart]
    simp only [allOf, id, done_bind, pure_eq, versionOk]
    by_cases hhttp : [x0, x1, x2, x3, x4] = HTTP
    · cases hd1 : isDigit (x5.setWidth 32) <;> by_cases hdot : x6 = 46#8 <;>
        cases hd2 : isDigit (x7.setWidth 32) <;> simp [hhttp, hdot]
    · simp [hhttp]
  · rw [isVersion, if_neg fun h => heq (h8.mp h)]
    have hne : (b.part lo hi).length ≠ 8 := by omega
    rw [versionOk]
    · rfl
    · intro x0 x1 x2 x3 x4 x5 x6 x7 hpart
      rw [hpart] at hne
      exact hne rfl

/-! ### The start line -/

/-- What the start line gives is what its bytes do. -/
structure StartOk (b : Text) (s : Start) (h : Head) : Prop where
  method : Holds b s.method h.method
  target : Holds b s.target h.target
  status : s.status = h.status
  reason : Holds b s.reason h.reason
  version : Holds b s.version h.version

theorem requestLine_agrees {empty : View} {first s1 s2 : Nat} (hempty : Holds b empty [])
    (hfirst : first ≤ b.bytes.length) (hfuel : 2 ^ 32 ≤ fuel) (hlt1 : s1 < s2) (hlt2 : s2 < first) :
    Agrees Flag (StartOk b) (requestLine fuel b empty (pos first) (pos s1) (pos s2))
      (readRequestLine (b.part 0 s1) (b.part (s1 + 1) s2) (b.part (s2 + 1) first)) := by
  have hlt := b.short
  have hlen1 := Text.length_part b 0 s1 (by omega)
  have hlen2 := Text.length_part b (s1 + 1) s2 (by omega)
  have h1 : pos s1 + 1#32 = pos (s1 + 1) := pos_add s1 1
  have h2 : pos s2 + 1#32 = pos (s2 + 1) := pos_add s2 1
  have htab := findByte_eq b (s1 + 1) s2 9#8 (w := 9#32) rfl (by omega) (by omega) hfuel
  rw [requestLine, readRequestLine, h1, h2]
  refine agrees_failIf ?_ rfl fun hmethod => ?_
  · have h0 : pos s1 = 0#32 ↔ s1 = 0 := pos_inj (q := 0) (by omega) (by decide)
    rw [← decide_not]
    refine decide_eq_decide.mpr (h0.trans ?_)
    rw [ne_eq, not_not, ← List.length_eq_zero_iff, hlen1, Nat.sub_zero]
  refine agrees_bind (eachByte_agrees 0 _ (Nat.zero_le _) (by omega) hfuel (fun i x hx => if_pos hx)
    fun i x hx => ⟨_, if_neg (by simp [hx]), rfl⟩) fun _ _ _ _ => ?_
  rw [htab, lift_done_bind]
  refine agrees_failIf ?_ rfl fun htarget => ?_
  · have hle := takeWhile_length_le (· ≠ 9#8) (b.part (s1 + 1) s2)
    have hmem := takeWhile_ne_lt 9#8 (b.part (s1 + 1) s2)
    have hnil : b.part (s1 + 1) s2 = [] ↔ s2 = s1 + 1 := by
      rw [← List.length_eq_zero_iff, hlen2]
      omega
    rw [pos_slt (by omega) (by omega), Bool.eq_iff_iff, Bool.or_eq_true, decide_eq_true_eq, decide_eq_true_eq,
      pos_inj (by omega) (by omega), Bool.not_eq_true', decide_eq_false_iff_not, not_and_or, not_not, not_not,
      hnil, ← hmem]
    omega
  rw [isVersion_eq (by omega) hfirst hfuel, lift_done_bind]
  refine agrees_failIf rfl rfl fun hversion => ?_
  obtain ⟨hm, hmethod⟩ := view_eq b 0 s1 (Nat.zero_le _) (by omega)
  obtain ⟨ht, htarget⟩ := view_eq b (s1 + 1) s2 (by omega) (by omega)
  obtain ⟨hv, hversion⟩ := view_eq b (s2 + 1) first (by omega) hfirst
  have h0 : (0#32) = pos 0 := rfl
  rw [h0, hm, ht, hv]
  exact agrees_pure ⟨hmethod, htarget, rfl, hempty, hversion⟩

theorem reasonView_eq {empty : View} {first s2 : Nat} (hempty : Holds b empty [])
    (hfirst : first ≤ b.bytes.length) (hle : s2 ≤ first) :
    ∃ v, reasonView b empty (pos first) (pos s2) = done v ∧ Holds b v (b.part (s2 + 1) first) := by
  have hlt := b.short
  have h2 : pos s2 + 1#32 = pos (s2 + 1) := pos_add s2 1
  rw [reasonView, pos_slt (by omega) (by omega), h2]
  by_cases hspace : s2 < first
  · rw [if_pos (by simpa using hspace)]
    exact ⟨_, view_eq b _ _ (by omega) hfirst⟩
  · rw [if_neg (by simpa using hspace)]
    have hnil : b.part (s2 + 1) first = [] :=
      List.drop_eq_nil_of_le (by rw [List.length_take]; omega)
    exact ⟨_, rfl, hnil ▸ hempty⟩

theorem statusLine_agrees {empty : View} {first s1 s2 : Nat} (hempty : Holds b empty [])
    (hfirst : first ≤ b.bytes.length) (hfuel : 2 ^ 32 ≤ fuel) (hlt1 : s1 < s2) (hle2 : s2 ≤ first) :
    Agrees Flag (StartOk b) (statusLine fuel b empty (pos first) (pos s1) (pos s2))
      (readStatusLine (b.part 0 s1) (b.part (s1 + 1) s2) (b.part (s2 + 1) first)) := by
  have hlt := b.short
  have hlen := Text.length_part b (s1 + 1) s2 (by omega)
  have h0 : (0#32) = pos 0 := rfl
  have h1 : pos s1 + 1#32 = pos (s1 + 1) := pos_add s1 1
  have h2 : pos s1 + 2#32 = pos (s1 + 1 + 1) := pos_add s1 2
  have h3 : pos s1 + 3#32 = pos (s1 + 1 + 2) := pos_add s1 3
  have hend : (if (pos s2).slt (pos first) then pos s2 else pos first) = pos s2 := by
    rw [pos_slt (by omega) (by omega)]
    by_cases hspace : s2 < first
    · rw [if_pos (by simpa using hspace)]
    · rw [if_neg (by simpa using hspace)]
      congr 1
      omega
  rw [statusLine, readStatusLine, h0, isVersion_eq (Nat.zero_le _) (by omega) hfuel, lift_done_bind]
  refine agrees_failIf rfl rfl fun hversion => ?_
  dsimp only
  rw [hend, h1, h2, h3, pos_sub (by omega) (by omega)]
  refine agrees_failIf ?_ rfl fun hcode => ?_
  · rw [← decide_not]
    exact decide_eq_decide.mpr (not_congr ((pos_inj (q := 3) (by omega) (by decide)).trans (by rw [hlen])))
  obtain ⟨d₁, d₂, d₃, hpart⟩ : ∃ d₁ d₂ d₃, b.part (s1 + 1) s2 = [d₁, d₂, d₃] :=
    List.length_eq_three.mp (of_decide_eq_true hcode)
  rw [hpart, List.length_cons, List.length_cons, List.length_cons, List.length_nil] at hlen
  have hget : ∀ {k : Nat} {x : Byte}, [d₁, d₂, d₃][k]? = some x → b.bytes[s1 + 1 + k]? = some x := by
    intro k x hx
    have hk : k < 3 := (List.getElem?_eq_some_iff.mp hx).1
    rw [← Text.getElem?_part _ _ s2 _ (by omega), hpart, hx]
  have hb1 : b.bytes[s1 + 1]? = some d₁ := hget (k := 0) rfl
  have hb2 := hget (k := 1) rfl
  have hb3 := hget (k := 2) rfl
  rw [digitAt_eq hb1, digitAt_eq hb2, digitAt_eq hb3]
  have hdigits : allOf id [done (isDigit (d₁.setWidth 32)), done (isDigit (d₂.setWidth 32)),
      done (isDigit (d₃.setWidth 32))] = done ([d₁, d₂, d₃].all fun c => isDigit (c.setWidth 32)) := by
    simp only [allOf, id, done_bind, pure_eq, List.all_cons, List.all_nil, Bool.and_true]
    cases isDigit (d₁.setWidth 32) <;> cases isDigit (d₂.setWidth 32) <;> cases isDigit (d₃.setWidth 32) <;> rfl
  rw [hdigits, lift_done_bind, hpart]
  refine agrees_failIf rfl rfl fun hall => ?_
  obtain ⟨hv, hversion⟩ := view_eq b 0 s1 (Nat.zero_le _) (by omega)
  obtain ⟨v, hr, hreason⟩ := reasonView_eq hempty hfirst hle2
  rw [byteAt_pos hb1, lift_done_bind, byteAt_pos hb2, lift_done_bind, byteAt_pos hb3, lift_done_bind, hv,
    lift_done_bind, hr, lift_done_bind]
  exact agrees_pure ⟨hempty, hempty, rfl, hreason, hversion⟩

/-- **The start line.** -/
theorem startLine_agrees (request : Bool) {empty : View} (first : Nat) (hempty : Holds b empty [])
    (hfirst : first ≤ b.bytes.length) (hfuel : 2 ^ 32 ≤ fuel) :
    Agrees Flag (StartOk b) (startLine fuel b request empty (pos first))
      (readStartLine request (b.part 0 first)) := by
  have hlt := b.short
  obtain ⟨s1, hs1⟩ : ∃ s1, ((b.part 0 first).takeWhile (· ≠ 32#8)).length = s1 := ⟨_, rfl⟩
  have hlen := Text.length_part b 0 _ hfirst
  have hle1 : s1 ≤ (b.part 0 first).length := hs1 ▸ takeWhile_length_le _ _
  have hfind1 := findByte_eq b 0 _ 32#8 (w := 32#32) rfl (Nat.zero_le _) hfirst hfuel
  have hfirst' : b.part 0 s1 = (b.part 0 first).takeWhile (· ≠ 32#8) := by
    have h := part_takeWhile b 0 first (· ≠ 32#8) (Nat.zero_le _) hfirst
    rwa [Nat.zero_add, hs1] at h
  have hrest : (b.part 0 first).drop (s1 + 1) = b.part (s1 + 1) first := by rw [Text.drop_part, Nat.zero_add]
  rw [hs1, Nat.zero_add] at hfind1
  have h0 : (0#32) = pos 0 := rfl
  have h1 : pos s1 + 1#32 = pos (s1 + 1) := pos_add s1 1
  rw [startLine, readStartLine, h0, hfind1, lift_done_bind]
  dsimp only
  rw [hs1, hrest, h1]
  refine agrees_failIf ?_ rfl fun hspace => ?_
  · rw [← decide_not]
    exact decide_eq_decide.mpr ((pos_inj (by omega) (by omega)).trans (by omega))
  have hlt1 : s1 < first := by
    have := of_decide_eq_true hspace
    omega
  obtain ⟨s2, hs2⟩ : ∃ s2, s1 + 1 + ((b.part (s1 + 1) first).takeWhile (· ≠ 32#8)).length = s2 := ⟨_, rfl⟩
  have hlen2 := Text.length_part b (s1 + 1) _ hfirst
  have hle2 : s2 ≤ s1 + 1 + (b.part (s1 + 1) first).length :=
    hs2 ▸ Nat.add_le_add_left (takeWhile_length_le _ _) _
  have hfind2 := findByte_eq b (s1 + 1) _ 32#8 (w := 32#32) rfl (by omega) hfirst hfuel
  have hsecond : b.part (s1 + 1) s2 = (b.part (s1 + 1) first).takeWhile (· ≠ 32#8) := by
    rw [← hs2]
    exact part_takeWhile b _ _ (· ≠ 32#8) (by omega) hfirst
  have hthird : (b.part (s1 + 1) first).drop (((b.part (s1 + 1) first).takeWhile (· ≠ 32#8)).length + 1)
      = b.part (s2 + 1) first := by
    rw [Text.drop_part]
    congr 1
    omega
  rw [hs2] at hfind2
  rw [hfind2, lift_done_bind, hthird, ← hfirst']
  refine agrees_failIf ?_ rfl fun hspace2 => ?_
  · cases request with
    | false => rfl
    | true =>
      rw [Bool.true_and, Bool.not_true, Bool.false_or, ← decide_not]
      exact decide_eq_decide.mpr ((pos_inj (by omega) (by omega)).trans (by omega))
  rw [← hsecond]
  cases request with
  | true =>
    have hlt2 : s2 < first := by
      rw [Bool.not_true, Bool.false_or, decide_eq_true_eq] at hspace2
      omega
    exact requestLine_agrees hempty hfirst hfuel (by omega) hlt2
  | false => exact statusLine_agrees hempty hfirst hfuel (by omega) (by omega)

/-! ### Headers -/

theorem part_cons {lo hi : Nat} {x : Byte} (hlt : lo < hi) (h : b.bytes[lo]? = some x) :
    b.part lo hi = x :: b.part (lo + 1) hi := by
  have hlen : lo < (b.bytes.take hi).length := by
    rw [List.length_take]
    have := (List.getElem?_eq_some_iff.mp h).1
    omega
  rw [Text.part, List.drop_eq_getElem_cons hlen, List.getElem_take]
  congr 1
  exact (List.getElem?_eq_some_iff.mp h).2

theorem part_concat {lo hi : Nat} {x : Byte} (hle : lo ≤ hi) (h : b.bytes[hi]? = some x) :
    b.part lo (hi + 1) = b.part lo hi ++ [x] := by
  have hhi : hi < b.bytes.length := (List.getElem?_eq_some_iff.mp h).1
  rw [Text.part, List.take_add_one, h, Option.toList_some, List.drop_append_of_le_length
    (by rw [List.length_take]; omega)]
  rfl

theorem skipOws_eq {ve : Nat} (hve : ve ≤ b.bytes.length) : ∀ (k vs : Nat), vs ≤ ve → ve - vs < k →
    skipOws k b (pos ve) (pos vs)
      = done (pos (vs + ((b.part vs ve).takeWhile fun c => isOws (c.setWidth 32)).length))
  | 0, vs, hle, hk => by omega
  | k + 1, vs, hle, hk => by
      have hlt := b.short
      rw [skipOws, iterate, pos_slt (by omega) (by omega)]
      by_cases hmore : vs < ve
      · obtain ⟨c, hc⟩ := b.exists_byte (p := vs) (by omega)
        rw [if_pos (by simpa using hmore), byteAt_pos hc, done_bind, part_cons hmore hc, List.takeWhile_cons]
        cases hows : isOws (c.setWidth 32) with
        | true =>
          have hadd : pos vs + 1#32 = pos (vs + 1) := pos_add vs 1
          have hnext := skipOws_eq hve k (vs + 1) hmore (by omega)
          rw [Nat.add_assoc, Nat.add_comm 1] at hnext
          rw [if_pos rfl, if_pos rfl, pure_eq, done_bind, hadd, List.length_cons]
          exact hnext
        | false => rfl
      · obtain rfl : vs = ve := Nat.le_antisymm hle (by omega)
        rw [if_neg (by simp), Text.part_self]
        rfl

theorem dropOws_eq (vs : Nat) : ∀ (k ve : Nat), vs ≤ ve → ve ≤ b.bytes.length → ve - vs < k →
    dropOws k b (pos vs) (pos ve)
      = done (pos (vs + ((b.part vs ve).rdropWhile fun c => isOws (c.setWidth 32)).length))
  | 0, ve, hle, _, hk => by omega
  | k + 1, ve, hle, hve, hk => by
      have hlt := b.short
      rw [dropOws, iterate, pos_slt (by omega) (by omega)]
      by_cases hmore : vs < ve
      · obtain ⟨e, rfl⟩ : ∃ e, ve = e + 1 := ⟨ve - 1, by omega⟩
        obtain ⟨c, hc⟩ := b.exists_byte (p := e) (by omega)
        have hsub : pos (e + 1) - 1#32 = pos e := pos_sub (p := e + 1) (q := 1) (by omega) (by omega)
        rw [if_pos (by simpa using hmore), hsub, byteAt_pos hc, done_bind, part_concat (by omega) hc,
          List.rdropWhile_concat]
        cases hows : isOws (c.setWidth 32) with
        | true =>
          rw [if_pos rfl, if_pos rfl, pure_eq, done_bind]
          exact dropOws_eq vs k e (by omega) (by omega) (by omega)
        | false =>
          rw [if_neg (by simp), if_neg (by simp), pure_eq, done_bind, List.length_append,
            Text.length_part _ _ _ (by omega), List.length_singleton]
          show done (pos (e + 1)) = _
          congr 2
          omega
      · obtain rfl : vs = ve := Nat.le_antisymm hle (by omega)
        rw [if_neg (by simp), Text.part_self, List.rdropWhile_nil]
        rfl

/-- A header is where its line says. -/
structure HeaderOk (b : Text) (h : Header) (f : Field) : Prop where
  name : Holds b h.name f.name
  value : Holds b h.value f.value

/-- **A header line**, and the limit on how many there are. -/
theorem headerLine_agrees (lim : Limits) (count p e : Nat) (hcount : count < 2 ^ 31) (hpe : p < e)
    (he : e ≤ b.bytes.length) (hfuel : 2 ^ 32 ≤ fuel) :
    Agrees Flag (HeaderOk b) (headerLine fuel b lim (pos count) (pos p) (pos e))
      (readField (b.part p e) >>= fun f => must (0 < lim.headers.toNat - count) >>= fun _ => pure f) := by
  have hlt := b.short
  obtain ⟨c0, hc0⟩ := b.exists_byte (p := p) (by omega)
  have hlen := Text.length_part b p _ he
  obtain ⟨colon, hcolon⟩ : ∃ colon, p + ((b.part p e).takeWhile (· ≠ 58#8)).length = colon := ⟨_, rfl⟩
  have hle : colon ≤ p + (b.part p e).length := hcolon ▸ Nat.add_le_add_left (takeWhile_length_le _ _) _
  have hfind := findByte_eq b p e 58#8 (w := 58#32) rfl hpe.le he hfuel
  have hname : b.part p colon = (b.part p e).takeWhile (· ≠ 58#8) := by
    rw [← hcolon]
    exact part_takeWhile b _ _ (· ≠ 58#8) hpe.le he
  have hnlen := Text.length_part b p colon (by omega)
  have hpcolon : p ≤ colon := by omega
  rw [hcolon] at hfind
  rw [headerLine, readField, bind_assoc, byteAt_pos hc0, lift_done_bind]
  refine agrees_failIf ?_ rfl fun hfold => ?_
  · rw [part_cons hpe hc0]
    simp only [List.head?_cons, Option.all_some, Bool.not_not]
    rfl
  dsimp only
  rw [hfind, lift_done_bind, bind_assoc, ← hname]
  refine agrees_failIf ?_ rfl fun hfound => ?_
  · rw [← decide_not]
    exact decide_eq_decide.mpr ((pos_inj (by omega) (by omega)).trans (by omega))
  have hcolonlt : colon < e := by
    have := of_decide_eq_true hfound
    omega
  rw [bind_assoc]
  refine agrees_failIf ?_ rfl fun hempty => ?_
  · rw [← decide_not]
    refine decide_eq_decide.mpr ((pos_inj (by omega) (by omega)).trans ?_)
    rw [ne_eq, not_not, ← List.length_eq_zero_iff, hnlen]
    omega
  rw [bind_assoc]
  refine agrees_bind (eachByte_agrees _ _ hpcolon (by omega) hfuel (fun i x hx => if_pos hx)
    fun i x hx => ⟨_, if_neg (by simp [hx]), rfl⟩) fun _ _ _ _ => ?_
  obtain ⟨vs, hvs⟩ : ∃ vs, colon + 1 + ((b.part (colon + 1) e).takeWhile fun c => isOws (c.setWidth 32)).length = vs :=
    ⟨_, rfl⟩
  have hvslen := Text.length_part b (colon + 1) _ he
  have hvsle : vs ≤ colon + 1 + (b.part (colon + 1) e).length :=
    hvs ▸ Nat.add_le_add_left (takeWhile_length_le _ _) _
  have hskip := skipOws_eq (b := b) he fuel (colon + 1) (by omega) (by omega)
  rw [hvs] at hskip
  obtain ⟨ve, hve⟩ : ∃ ve, vs + ((b.part vs e).rdropWhile fun c => isOws (c.setWidth 32)).length = ve := ⟨_, rfl⟩
  have hdrop := dropOws_eq (b := b) vs fuel e (by omega) he (by omega)
  rw [hve] at hdrop
  have hprefix : (b.part vs e).rdropWhile (fun c => isOws (c.setWidth 32)) <+: b.part vs e :=
    List.rdropWhile_prefix _ _
  have hvelen := Text.length_part b vs _ he
  have hvele : ve ≤ e := by
    have := hprefix.length_le
    omega
  have hvalue : trimOws ((b.part p e).drop ((b.part p colon).length + 1)) = b.part vs ve := by
    have hrest : (b.part p e).drop ((b.part p colon).length + 1) = b.part (colon + 1) e := by
      rw [Text.drop_part, hnlen]
      congr 1
      omega
    have hdropWhile : (b.part (colon + 1) e).dropWhile (fun c => isOws (c.setWidth 32)) = b.part vs e := by
      have happend := List.takeWhile_append_dropWhile (p := fun c : Byte => isOws (c.setWidth 32))
        (l := b.part (colon + 1) e)
      have hdrop' := congrArg (List.drop (vs - (colon + 1))) happend
      rw [Text.drop_part, List.drop_append_of_le_length (by omega), List.drop_eq_nil_of_le (by omega),
        List.nil_append] at hdrop'
      rw [hdrop']
      congr 1
      omega
    have htake : (b.part vs e).rdropWhile (fun c => isOws (c.setWidth 32)) = b.part vs ve := by
      rw [List.prefix_iff_eq_take.mp hprefix, Text.take_part _ _ _ _ (by omega), hve]
    rw [trimOws, hrest, hdropWhile, htake]
  have hadd : pos colon + 1#32 = pos (colon + 1) := pos_add colon 1
  rw [hadd, hskip, lift_done_bind, hdrop, lift_done_bind, hvalue, bind_assoc]
  refine agrees_bind (eachByte_agrees _ _ (by omega) (by omega) hfuel (fun i x hx => if_neg (by simpa using hx))
    fun i x hx => ⟨_, if_pos (by simpa using hx), rfl⟩) fun _ _ _ _ => ?_
  have hmax := lim.headers_lt
  refine agrees_failIf ?_ rfl fun hroom => ?_
  · rw [← pos_toNat lim.headers, pos_sle hmax hcount, ← decide_not, toNat_pos (by omega)]
    exact decide_eq_decide.mpr (by omega)
  obtain ⟨hn, hname'⟩ := view_eq b p colon (by omega) (by omega)
  obtain ⟨hv, hvalue'⟩ := view_eq b vs ve (by omega) (by omega)
  rw [hn, lift_done_bind, hv, lift_done_bind]
  exact agrees_pure ⟨hname', hvalue'⟩

/-- A line that is taken off a part of the text is the part before its end. -/
theorem part_of_splitLine {p hi t : Nat} {l : List Byte} (hle : hi ≤ b.bytes.length)
    (h : splitLine (b.part p hi) = some (l, t)) : b.part p (p + l.length) = l := by
  obtain ⟨hline, ht, -⟩ := of_splitLine h
  have hlt := hline.length_lt
  rw [List.length_take, Nat.min_eq_left ht] at hlt
  rw [Text.length_part _ _ _ hle] at ht
  rw [← Text.take_part _ _ hi _ (by omega)]
  have htake : (b.part p hi).take l.length = ((b.part p hi).take t).take l.length := by
    rw [List.take_take, Nat.min_eq_left hlt.le]
  rw [htake]
  exact hline.take_length

theorem headError_flag {lim : Limits} :
    Flag (headError b lim.headBytes) (decide (b.bytes.length < lim.headBytes.toNat)) := by
  have hlt := b.short
  have hlim := lim.headBytes_lt
  rw [Flag, headError, Text.len_eq, ← pos_toNat lim.headBytes, pos_sle hlim hlt]
  by_cases hpast : lim.headBytes.toNat ≤ b.bytes.length
  · rw [if_pos (decide_eq_true hpast), toNat_pos (by omega), decide_eq_false (by omega)]
  · rw [if_neg (by simpa using hpast), toNat_pos (by omega), decide_eq_true (by omega)]
    rfl

theorem limit_eq {lim : Limits} {hi : Nat} (hhi : hi = min b.bytes.length lim.headBytes.toNat) :
    (if b.len.slt lim.headBytes then b.len else lim.headBytes) = pos hi := by
  have hlt := b.short
  have hlim := lim.headBytes_lt
  have hslt := pos_slt hlt hlim
  rw [pos_toNat] at hslt
  rw [Text.len_eq, hslt]
  by_cases hmore : b.bytes.length < lim.headBytes.toNat
  · rw [if_pos (decide_eq_true hmore), hhi, Nat.min_eq_left hmore.le]
  · rw [if_neg (by simpa using hmore), hhi, Nat.min_eq_right (by omega), pos_toNat]

/-- Headers read from the `p`-th byte on, after others. -/
structure HeadersOk (b : Text) (before : List Header) (p hi : Nat) (r : List Header × BitVec 32)
    (r' : List Field × Nat) : Prop where
  headers : ∃ hs, r.1 = before ++ hs ∧ List.Forall₂ (HeaderOk b) hs r'.1
  next : r.2 = pos (p + r'.2)
  le : p + r'.2 ≤ hi

/-- **The headers.** -/
theorem headers_agrees {lim : Limits} {hi : Nat} (hhi : hi = min b.bytes.length lim.headBytes.toNat)
    (hfuel : 2 ^ 32 ≤ fuel) : ∀ (k : Nat) (headers : List Header) (p : Nat), p ≤ hi → headers.length ≤ p →
      hi - p < k →
      Agrees Flag (HeadersOk b headers p hi) (loop (headerRound fuel b lim) k (headers, pos p))
        (readFields (decide (b.bytes.length < lim.headBytes.toNat)) (lim.headers.toNat - headers.length)
          (b.part p hi))
  | 0, headers, p, hp, _, hk => by omega
  | k + 1, headers, p, hp, hcount, hk => by
      have hlt := b.short
      have hlim := lim.headBytes_lt
      have hle : hi ≤ b.bytes.length := by omega
      rw [loop_succ, headerRound, lineEnd_eq (limit_eq hhi) hle hp hfuel, lift_done_bind]
      cases hsplit : splitLine (b.part p hi) with
      | none =>
        rw [readFields_none hsplit]
        exact agrees_throw headError_flag
      | some lt =>
        obtain ⟨l, t⟩ := lt
        obtain ⟨hnext, hpt, hlt'⟩ := nextLine_eq hle hsplit hp
        have hneg : (endOf p (some (l, t))).slt 0#32 = false := not_slt_zero (by
          rw [endOf, toNat_pos (by omega)]
          omega)
        rw [hneg, failIf_false_bind, endOf]
        by_cases hnil : l = []
        · subst hnil
          rw [List.length_nil, Nat.add_zero] at hnext
          rw [readFields_nil hsplit, List.length_nil, Nat.add_zero, if_pos rfl, hnext, lift_done_bind]
          exact agrees_pure ⟨⟨[], by simp, .nil⟩, rfl, hpt⟩
        · have hlen : 0 < l.length := List.length_pos_iff.mpr hnil
          have hne : ¬ pos (p + l.length) = pos p := by
            rw [pos_inj (by omega) (by omega)]
            omega
          have hline := headerLine_agrees (b := b) lim headers.length p (p + l.length) (by omega) (by omega) (by omega) hfuel
          rw [part_of_splitLine hle hsplit] at hline
          have hassoc : readFields (decide (b.bytes.length < lim.headBytes.toNat))
                (lim.headers.toNat - headers.length) (b.part p hi)
              = (readField l >>= fun f => must (0 < lim.headers.toNat - headers.length) >>= fun _ => pure f)
                >>= fun f => readFields (decide (b.bytes.length < lim.headBytes.toNat))
                  (lim.headers.toNat - (headers.length + 1)) (b.part (p + t) hi)
                >>= fun r => pure (f :: r.1, t + r.2) := by
            rw [readFields_line hsplit hnil, bind_assoc, Text.drop_part, Nat.sub_sub]
            refine bind_congr fun f => ?_
            rw [bind_assoc]
            rfl
          rw [if_neg hne, bind_assoc, hassoc]
          refine agrees_bind hline fun h f _ hok => ?_
          rw [hnext, bind_assoc, lift_done_bind, pure_bind]
          have ih := headers_agrees hhi hfuel k (headers ++ [h]) (p + t) hpt
            (by rw [List.length_append, List.length_singleton]; omega) (by omega)
          rw [List.length_append, List.length_singleton] at ih
          refine ih.map fun r r' _ hr => ?_
          obtain ⟨hs, hheaders, hforall⟩ := hr.headers
          refine ⟨⟨h :: hs, ?_, .cons hok hforall⟩, ?_, ?_⟩
          · rw [hheaders, List.append_assoc]
            rfl
          · rw [hr.next, Nat.add_assoc]
          · have := hr.le
            dsimp only
            omega

/-- A message that is read as far as its head. -/
structure HeadOk (b : Text) (request : Bool) (m : Message) (r : Head × Nat) : Prop where
  isRequest : m.isRequest = request
  method : Holds b m.method r.1.method
  target : Holds b m.target r.1.target
  status : m.status = r.1.status
  reason : Holds b m.reason r.1.reason
  version : Holds b m.version r.1.version
  headers : List.Forall₂ (HeaderOk b) m.headers r.1.fields
  body : ∃ v, m.body = .view v ∧ Holds b v []
  length : m.length = pos r.2
  le : r.2 ≤ b.bytes.length

/-- **The head.** -/
theorem head_agrees {lim : Limits} {request : Bool} (hfuel : 2 ^ 32 ≤ fuel) :
    Agrees Flag (HeadOk b request) (parseHead fuel b lim request)
      (readHead request lim.headBytes.toNat lim.headers.toNat b.bytes) := by
  have hlt := b.short
  have hlim := lim.headBytes_lt
  obtain ⟨hi, hhi⟩ : ∃ hi, hi = min b.bytes.length lim.headBytes.toNat := ⟨_, rfl⟩
  have hle : hi ≤ b.bytes.length := by omega
  have htake : b.bytes.take lim.headBytes.toNat = b.part 0 hi := by
    rw [Text.part, List.drop_zero, hhi, Nat.min_comm]
    exact List.take_eq_take_min
  obtain ⟨hempty, hholds⟩ := view_eq b 0 0 le_rfl (Nat.zero_le _)
  have h0 : (0#32) = pos 0 := rfl
  rw [parseHead, readHead, htake, h0, hempty, lift_done_bind, lineEnd_eq (limit_eq hhi) hle (Nat.zero_le _) hfuel,
    lift_done_bind]
  cases hsplit : splitLine (b.part 0 hi) with
  | none => exact agrees_throw headError_flag
  | some lt =>
    obtain ⟨l, t⟩ := lt
    obtain ⟨hnext, hpt, hlt'⟩ := nextLine_eq hle hsplit (Nat.zero_le _)
    have hline := part_of_splitLine hle hsplit
    rw [Nat.zero_add] at hnext hpt hline
    have hneg : (endOf 0 (some (l, t))).slt 0#32 = false := not_slt_zero (by
      rw [endOf, toNat_pos (by omega)]
      omega)
    have hstart := startLine_agrees request l.length hholds (by omega) hfuel
    rw [hline] at hstart
    rw [← h0, hneg, failIf_false_bind, endOf, Nat.zero_add]
    refine agrees_bind hstart fun start head _ hok => ?_
    rw [hnext, lift_done_bind, Text.drop_part, Nat.zero_add]
    have hheaders := headers_agrees hhi hfuel fuel [] t (by omega) (Nat.zero_le _) (by omega)
    refine agrees_bind hheaders fun r r' _ hr => agrees_pure ?_
    obtain ⟨hs, hheaders, hforall⟩ := hr.headers
    rw [List.nil_append] at hheaders
    exact
      { isRequest := rfl
        method := hok.method
        target := hok.target
        status := hok.status
        reason := hok.reason
        version := hok.version
        headers := hheaders ▸ hforall
        body := ⟨_, rfl, hholds⟩
        length := hr.next
        le := hr.le.trans hle }

end Aipl.StdHttp
