import Aipl.Std.Ip.Names

/-! # Name grants

`std/ip`'s `is_name_grant`, beside what `net.rs` takes as a grant to connect.  A port is at most five digits to the one, and
to the other whatever the host's parser of a `u16` takes.

* `portOk_eq` — the ports of a name grant.
* `isNameGrant_eq` — the name grants.
* `names_read_iff` — the texts the two read alike.
-/

namespace Aipl.StdIp

open Aipl.Lib Aipl.Lib.Outcome Aipl.StdBytes

/-! ### The source's functions -/

/-- A round of the loop of `parse_int`: the place, and the number so far, negated, which wraps. -/
def intRound (b : Bytes) (s : Nat × BitVec 32) : Outcome (Nat × BitVec 32 ⊕ Except Nat (BitVec 32)) :=
  let (i, n) := s
  if i < b.length then do
    let c ← byteAt b i
    if c < 48 ∨ 57 < c then pure (.inr (.error i))
    else pure (.inl (i + 1, n * 10#32 - BitVec.ofNat 32 (c - 48)))
  else pure (.inr (.ok n))

/-- `str.parse_int`. -/
def parseInt (fuel : Nat) (b : Bytes) : Outcome (Except Nat (BitVec 32)) := do
  let neg ← (if 0 < b.length then do pure (decide ((← byteAt b 0) = 45)) else pure false : Outcome Bool)
  let start := if neg then 1 else 0
  if b.length ≤ start then pure (.error 0)
  else do
    match ← iterate (intRound b) fuel (start, 0#32) with
    | .error i => pure (.error i)
    | .ok n => pure (.ok (if neg then n else 0#32 - n))

/-- `str.parse_int_or`. -/
def parseIntOr (fuel : Nat) (b : Bytes) (default_ : BitVec 32) : Outcome (BitVec 32) := do
  match ← parseInt fuel b with
  | .ok n => pure n
  | .error _ => pure default_

/-- The place of the last colon, or -1. -/
def lastColon (g : Bytes) : Outcome Int :=
  foldAll (fun (colon : Int) i => do pure (if (← byteAt g i) = 58 then (i : Int) else colon)) (-1) (List.range g.length)

/-- Whether all bytes of a port are digits. -/
def allDigits (port : Bytes) : Outcome Bool :=
  allOf (fun i => do
    let c ← byteAt port i
    pure (decide (¬ (c < 48 ∨ 57 < c)))) (List.range port.length)

def isNameGrant (fuel : Nat) (g : Bytes) : Outcome Bool := do
  let n := g.length
  let colon ← lastColon g
  if colon < 1 then pure false
  else do
    let colon := colon.toNat
    let port ← slice g (colon + 1) (n - colon - 1)
    let pn := port.length
    if pn = 0 then pure false
    else do
      let star ← (if pn = 1 then do pure (decide ((← byteAt port 0) = 42)) else pure false : Outcome Bool)
      let ok ← (if star then pure true else do
        if ← allDigits port then
          if 5 < pn then pure false else do pure (!(65535#32).slt (← parseIntOr fuel port (-1#32)))
        else pure false : Outcome Bool)
      if ok then isHostName fuel (← slice g 0 colon) else pure false

/-! ### The last colon -/

variable {g h p port : Bytes} {fuel : Nat}

theorem lastColon_ends (g : Bytes) : Ends (fun colon : Int => (colon = -1 ∧ 58#8 ∉ g) ∨
    ∃ j : Nat, colon = j ∧ g[j]? = some 58#8 ∧ ∀ i, j < i → g[i]? ≠ some 58#8) (lastColon g) := by
  have hloop : Ends _ (lastColon g) := foldAll_range_ends
    (fun k (colon : Int) => (colon = -1 ∧ ∀ i < k, g[i]? ≠ some 58#8) ∨
      ∃ j : Nat, colon = j ∧ g[j]? = some 58#8 ∧ ∀ i, j < i → i < k → g[i]? ≠ some 58#8)
    (.inl ⟨rfl, fun i hi => absurd hi (Nat.not_lt_zero i)⟩) g.length fun k colon hk hcolon => by
      have hget := List.getElem?_eq_getElem hk
      have hbyte : g[k].toNat = 58 ↔ g[k]? = some 58#8 := by
        rw [hget, Option.some_inj]
        exact ⟨fun h => BitVec.eq_of_toNat_eq h, fun h => by rw [h]; rfl⟩
      rw [byteAt_eq hget, done_bind, pure_eq, ends_done]
      by_cases hc : g[k].toNat = 58
      · rw [if_pos hc]
        exact .inr ⟨k, rfl, hbyte.mp hc, fun i hi hi' => by omega⟩
      · rw [if_neg hc]
        have hk' : ∀ i, i < k + 1 → ¬ i < k → g[i]? ≠ some 58#8 := fun i hi hi' => by
          rw [show i = k by omega]
          exact mt hbyte.mpr hc
        rcases hcolon with ⟨rfl, hnone⟩ | ⟨j, rfl, hj, hnone⟩
        · exact .inl ⟨rfl, fun i hi => (Decidable.em (i < k)).elim (hnone i) (hk' i hi)⟩
        · exact .inr ⟨j, rfl, hj, fun i hji hi => (Decidable.em (i < k)).elim (hnone i hji) (hk' i hi)⟩
  refine hloop.mono ?_
  rintro colon (⟨rfl, hnone⟩ | ⟨j, rfl, hj, hnone⟩)
  · refine .inl ⟨rfl, fun hmem => ?_⟩
    obtain ⟨i, hi, hget⟩ := List.mem_iff_getElem.mp hmem
    exact hnone i hi (by rw [List.getElem?_eq_getElem hi, hget])
  · refine .inr ⟨j, rfl, hj, fun i hi heq => ?_⟩
    exact hnone i hi (List.getElem?_eq_some_iff.mp heq).1 heq

theorem lastColon_none (hg : 58#8 ∉ g) : lastColon g = done (-1) := by
  obtain ⟨colon, hdone, ⟨rfl, -⟩ | ⟨j, -, hj, -⟩⟩ := (lastColon_ends g).exists
  · exact hdone
  · exact absurd (List.mem_of_getElem? hj) hg

theorem lastColon_eq (hp : 58#8 ∉ p) : lastColon (h ++ 58#8 :: p) = done (h.length : Int) := by
  have hat : (h ++ 58#8 :: p)[h.length]? = some 58#8 := by simp
  obtain ⟨colon, hdone, ⟨-, hnone⟩ | ⟨j, rfl, hj, hnone⟩⟩ := (lastColon_ends (h ++ 58#8 :: p)).exists
  · exact absurd (List.mem_of_getElem? hat) hnone
  · have hge : h.length ≤ j := Nat.le_of_not_lt fun hlt => hnone h.length hlt hat
    have hle : j ≤ h.length := Nat.le_of_not_lt fun hlt => by
      rw [List.getElem?_append_right hge, show j - h.length = (j - h.length - 1) + 1 by omega, List.getElem?_cons_succ] at hj
      exact hp (List.mem_of_getElem? hj)
    rw [hdone, Nat.le_antisymm hle hge]

/-! ### Ports -/

theorem allDigits_eq (port : Bytes) : allDigits port = done (port.all isDigitByte) := by
  have hbyte : ∀ i ∈ List.range port.length, (do
      let c ← byteAt port i
      pure (decide (¬ (c < 48 ∨ 57 < c))) : Outcome Bool) = done (port[i]?.any isDigitByte) := by
    intro i hi
    have hget := List.getElem?_eq_getElem (List.mem_range.mp hi)
    rw [byteAt_eq hget, hget, done_bind, pure_eq, Option.any_some, isDigitByte]
    exact congrArg done (decide_eq_decide.mpr (by omega))
  rw [allDigits, allOf_eq hbyte]
  refine congrArg done (Bool.eq_iff_iff.mpr ?_)
  rw [List.all_eq_true, List.all_eq_true]
  constructor
  · intro hall c hc
    obtain ⟨i, hi, rfl⟩ := List.mem_iff_getElem.mp hc
    have hany := hall i (List.mem_range.mpr hi)
    rwa [List.getElem?_eq_getElem hi] at hany
  · intro hall i hi
    have hi' := List.mem_range.mp hi
    rw [List.getElem?_eq_getElem hi']
    exact hall _ (List.getElem_mem hi')

/-- The value of digits. -/
def digitsValue (b : Bytes) : Nat := b.foldl (fun v c => v * 10 + (c.toNat - 48)) 0

theorem intLoop_eq : ∀ (rest pre : Bytes) (v fuel : Nat), rest.all isDigitByte = true → rest.length < fuel →
    iterate (intRound (pre ++ rest)) fuel (pre.length, -BitVec.ofNat 32 v) =
      done (.ok (-BitVec.ofNat 32 (rest.foldl (fun v c => v * 10 + (c.toNat - 48)) v)))
  | [], pre, v, fuel + 1, _, _ => by
      rw [iterate, intRound, List.append_nil, if_neg (Nat.lt_irrefl _)]
      rfl
  | c :: rest, pre, v, fuel + 1, hall, hfuel => by
      rw [List.all_cons, Bool.and_eq_true, isDigitByte, decide_eq_true_eq] at hall
      have hrest := intLoop_eq rest (pre ++ [c]) (v * 10 + (c.toNat - 48)) fuel hall.2 (Nat.lt_of_succ_lt_succ hfuel)
      have hstep : -BitVec.ofNat 32 v * 10#32 - BitVec.ofNat 32 (c.toNat - 48) =
          -BitVec.ofNat 32 (v * 10 + (c.toNat - 48)) := by
        rw [BitVec.ofNat_add, BitVec.ofNat_mul, BitVec.neg_mul, BitVec.neg_add, BitVec.sub_eq_add_neg]
      have hlt : pre.length < (pre ++ c :: rest).length := by simp
      rw [List.append_assoc, List.singleton_append, List.length_append, List.length_singleton] at hrest
      rw [iterate, intRound, if_pos hlt, byteAt_append, done_bind, if_neg (by omega), pure_eq, done_bind, List.foldl_cons, hstep]
      exact hrest

theorem parseIntOr_eq (hall : port.all isDigitByte = true) (hne : port ≠ []) (hfuel : port.length < fuel) (default_ : BitVec 32) :
    parseIntOr fuel port default_ = done (BitVec.ofNat 32 (digitsValue port)) := by
  have hpos := List.length_pos_iff.mpr hne
  have hloop := intLoop_eq port [] 0 fuel hall hfuel
  rw [parseIntOr, parseInt]
  obtain ⟨c, rest, rfl⟩ := List.exists_cons_of_ne_nil hne
  have hfirst : byteAt (c :: rest) 0 = done c.toNat := byteAt_append [] c rest
  rw [List.all_cons, Bool.and_eq_true, isDigitByte, decide_eq_true_eq] at hall
  rw [if_pos hpos, hfirst]
  simp only [done_bind, pure_eq, show ¬ c.toNat = 45 by omega, decide_false, Bool.false_eq_true, if_false,
    show ¬ (c :: rest).length ≤ 0 by omega]
  have hzero : (0#32 : BitVec 32) = -BitVec.ofNat 32 0 := rfl
  rw [hzero]
  rw [List.nil_append, List.length_nil] at hloop
  rw [hloop, done_bind, done_bind]
  simp [digitsValue]

/-- The port of a name grant: `*`, or a number of at most five digits. -/
def portOk (port : Bytes) : Bool :=
  decide (port = [42#8] ∨ port ≠ [] ∧ port.all isDigitByte = true ∧ port.length ≤ 5 ∧ digitsValue port ≤ 65535)

theorem digitsValue_lt (port : Bytes) (h : port.all isDigitByte = true) : digitsValue port < 10 ^ port.length := by
  induction port using List.reverseRecOn with
  | nil => exact Nat.one_pos
  | append_singleton port c ih =>
    rw [List.all_append, Bool.and_eq_true, List.all_cons, Bool.and_eq_true, isDigitByte, decide_eq_true_eq] at h
    have hrest := ih h.1
    rw [digitsValue] at hrest ⊢
    rw [List.foldl_concat, List.length_append, List.length_singleton, Nat.pow_succ]
    omega

theorem slt_port {v : Nat} (h : v < 10 ^ 5) : (65535#32).slt (BitVec.ofNat 32 v) = decide (65535 < v) := by
  rw [BitVec.slt_eq_decide]
  refine decide_eq_decide.mpr ?_
  have hv : (BitVec.ofNat 32 v).toInt = v := by
    rw [BitVec.toInt_eq_toNat_of_lt (by rw [BitVec.toNat_ofNat]; omega), BitVec.toNat_ofNat, Nat.mod_eq_of_lt (by omega)]
  have hmax : (65535#32).toInt = 65535 := rfl
  rw [hv, hmax]
  omega

/-- A name grant, cut at its last colon. -/
theorem isNameGrant_cut (hp : 58#8 ∉ p) (hne : h ≠ []) (hfuel : p.length < fuel) :
    isNameGrant fuel (h ++ 58#8 :: p) = if portOk p then isHostName fuel h else done false := by
  have hpos := List.length_pos_iff.mpr hne
  have hlen : (h ++ 58#8 :: p).length - h.length - 1 = p.length := by
    rw [List.length_append, List.length_cons]
    omega
  have hport : slice (h ++ 58#8 :: p) (h.length + 1) p.length = done p := by
    rw [slice_eq (by rw [List.length_append, List.length_cons]; omega), ← List.drop_drop, List.drop_left]
    exact congrArg done List.take_length
  have hhost : slice (h ++ 58#8 :: p) 0 h.length = done h := by
    rw [slice_eq (by rw [List.length_append, List.length_cons]; omega), List.drop_zero, List.take_left]
  rw [isNameGrant, lastColon_eq hp, done_bind, if_neg (by omega)]
  simp only [Int.toNat_natCast]
  rw [hlen, hport, done_bind, hhost]
  cases p with
  | nil => rfl
  | cons c p =>
    rw [if_neg (show ¬ (c :: p).length = 0 from Nat.succ_ne_zero _)]
    have hfirst : byteAt (c :: p) 0 = done c.toNat := byteAt_append [] c p
    have hcons : c :: p ≠ [] := List.cons_ne_nil c p
    have hstar : (if (c :: p).length = 1 then (do pure (decide ((← byteAt (c :: p) 0) = 42))) else pure false : Outcome Bool) =
        done (decide (c :: p = [42#8])) := by
      have h42 : c.toNat = 42 ↔ c = 42#8 := ⟨fun h => BitVec.eq_of_toNat_eq h, fun h => by rw [h]; rfl⟩
      rw [hfirst]
      cases p with
      | nil => simp [h42]
      | cons c' p => simp
    rw [hstar, done_bind, portOk]
    by_cases hs : c :: p = [42#8]
    · rw [decide_eq_true hs, decide_eq_true (.inl hs)]
      rfl
    · rw [decide_eq_false hs, allDigits_eq]
      cases hall : (c :: p).all isDigitByte with
      | false =>
        rw [decide_eq_false (by simp [hs])]
        rfl
      | true =>
        rw [parseIntOr_eq hall hcons hfuel]
        by_cases hlong : 5 < (c :: p).length
        · rw [decide_eq_false (by rintro (h | ⟨-, -, h, -⟩); exacts [hs h, absurd h (Nat.not_le.mpr hlong)])]
          simp only [done_bind, Bool.false_eq_true, if_false, if_true, hlong, pure_eq]
        · have hlt : digitsValue (c :: p) < 10 ^ 5 :=
            Nat.lt_of_lt_of_le (digitsValue_lt _ hall) (Nat.pow_le_pow_right (by decide) (Nat.le_of_not_lt hlong))
          simp only [done_bind, Bool.false_eq_true, if_false, if_true, hlong, pure_eq, slt_port hlt]
          by_cases hval : digitsValue (c :: p) ≤ 65535
          · rw [decide_eq_false (Nat.not_lt.mpr hval), decide_eq_true (.inr ⟨hcons, trivial, Nat.le_of_not_lt hlong, hval⟩)]
            rfl
          · rw [decide_eq_true (Nat.lt_of_not_le hval), decide_eq_false (by rintro (h | ⟨-, -, -, h⟩); exacts [hs h, hval h])]
            rfl

/-- A text without a colon, or with nothing before its only one. -/
theorem isNameGrant_no_host (hg : 58#8 ∉ g ∨ ∃ p, g = 58#8 :: p ∧ 58#8 ∉ p) : isNameGrant fuel g = done false := by
  rcases hg with hg | ⟨p, rfl, hp⟩
  · rw [isNameGrant, lastColon_none hg]
    rfl
  · have hcolon := lastColon_eq (h := []) hp
    rw [List.nil_append] at hcolon
    rw [isNameGrant, hcolon]
    rfl

/-! ### As characters -/

variable {s : List Char}

theorem bytes_star_iff : bytes s = [42#8] ↔ s = ['*'] := by
  constructor
  · intro heq
    rcases s with _ | ⟨c, _ | ⟨c', s⟩⟩
    · cases heq
    · rw [bytes_singleton] at heq
      have hstar : c = '*' := eq_of_byte_mem (by decide) (by rw [heq]; exact List.mem_cons_self)
      rw [hstar]
    · have hlen := congrArg List.length heq
      have hc := Utf8.length_encode_pos c.toNat
      have hc' := Utf8.length_encode_pos c'.toNat
      rw [bytes_cons, bytes_cons, List.length_append, List.length_append, List.length_singleton] at hlen
      omega
  · rintro rfl
    rfl

theorem digit_lt (h : s.all Char.isDigit = true) : ∀ c ∈ s, c.toNat < 128 := fun c hc => by
  have hdigit : 48 ≤ c.toNat ∧ c.toNat ≤ 57 := Char.isDigit_iff_toNat.mp (List.all_eq_true.mp h c hc)
  omega

theorem digitsValue_bytes (h : s.all Char.isDigit = true) :
    digitsValue (bytes s) = s.foldl (fun v c => v * 10 + (c.toNat - '0'.toNat)) 0 := by
  have hmap := bytes_eq_map (digit_lt h)
  rw [digitsValue, hmap, List.foldl_map]
  refine List.foldl_ext _ _ _ fun v c hc => ?_
  rw [Utf8.toNat_ofNat_byte (by have := digit_lt h c hc; omega)]
  rfl

theorem bytes_eq_nil : bytes s = [] ↔ s = [] := by
  cases s with
  | nil => exact ⟨fun _ => rfl, fun _ => rfl⟩
  | cons c s =>
    rw [bytes_cons, List.append_eq_nil_iff]
    exact ⟨fun h => absurd h.1 (Utf8.encode_ne_nil _), fun h => by cases h⟩

/-- **The ports**: those of `net.rs` without a sign, of five digits at most. -/
theorem portOk_bytes (s : List Char) :
    portOk (bytes s) = decide ((Net.parsePort s).isSome ∧ s.head? ≠ some '+' ∧ s.length ≤ 5) := by
  rw [portOk]
  refine decide_eq_decide.mpr ?_
  rw [bytes_star_iff, Net.parsePort, ne_eq, bytes_eq_nil, all_isDigit_bytes]
  by_cases hstar : s = ['*']
  · subst hstar
    decide
  · rw [if_neg hstar, Option.isSome_map]
    constructor
    · rintro (h | ⟨hne, hall, hlen, hval⟩)
      · exact absurd h hstar
      · rw [digitsValue_bytes hall] at hval
        have hlen' : (bytes s).length = s.length := by rw [bytes_eq_map (digit_lt hall), List.length_map]
        have hplus : s.head? ≠ some '+' := fun h => by
          have hdigit := List.all_eq_true.mp hall _ (List.mem_of_head? h)
          cases hdigit
        rw [Net.parseU16, if_neg hplus, if_neg (by simp [hne, hall])]
        dsimp only
        rw [if_pos hval]
        exact ⟨rfl, hplus, by omega⟩
    · rintro ⟨hport, hplus, hlen⟩
      rw [Net.parseU16, if_neg hplus] at hport
      split at hport
      · cases hport
      · rename_i hdigits
        rw [not_or] at hdigits
        have hall : s.all Char.isDigit = true := by simpa using hdigits.2
        dsimp only at hport
        split at hport
        · rename_i hval
          have hlen' : (bytes s).length = s.length := by rw [bytes_eq_map (digit_lt hall), List.length_map]
          exact .inr ⟨hdigits.1, hall, by omega, by rwa [digitsValue_bytes hall]⟩
        · cases hport

theorem rsplitOnce_eq_some {host port : List Char} (h : Net.rsplitOnce ':' s = some (host, port)) :
    s = host ++ ':' :: port ∧ ':' ∉ port := by
  rw [Net.rsplitOnce] at h
  split at h
  · rename_i hmem
    injection h with h
    injection h with hhost hport
    subst hhost hport
    have hsplit : s.rdropWhile (· != ':') ++ s.rtakeWhile (· != ':') = s := List.rdropWhile_append_rtakeWhile
    have hnot : ':' ∉ s.rtakeWhile (· != ':') := fun hc => by simpa using List.mem_rtakeWhile_imp hc
    have hne : s.rdropWhile (· != ':') ≠ [] := fun hnil => by
      rw [hnil, List.nil_append] at hsplit
      rw [hsplit] at hnot
      exact hnot hmem
    have hlast : (s.rdropWhile (· != ':')).getLast hne = ':' := by simpa using List.rdropWhile_last_not (· != ':') s hne
    refine ⟨?_, hnot⟩
    have hlead := List.dropLast_append_getLast hne
    rw [hlast] at hlead
    rw [List.append_cons, hlead, hsplit]
  · cases h

theorem rsplitOnce_eq_none (h : Net.rsplitOnce ':' s = none) : ':' ∉ s := by
  rw [Net.rsplitOnce] at h
  split at h
  · cases h
  · assumption

theorem mem_labels {c : Char} (h : c ∈ s) (hdot : c ≠ '.') : ∃ l ∈ Net.labels s, c ∈ l := by
  induction s with
  | nil => cases h
  | cons c' s ih =>
    obtain ⟨l₁, ls, hlabels⟩ := List.exists_cons_of_ne_nil (labels_ne_nil s)
    rw [Net.labels, hlabels, List.modifyHead_cons]
    rw [hlabels] at ih
    rcases List.mem_cons.mp h with rfl | h
    · rw [if_neg hdot]
      exact ⟨c :: l₁, List.mem_cons_self, List.mem_cons_self⟩
    · obtain ⟨l, hl, hc⟩ := ih h
      split
      · exact ⟨l, List.mem_cons_of_mem _ hl, hc⟩
      · rcases List.mem_cons.mp hl with rfl | hl
        · exact ⟨c' :: l, List.mem_cons_self, List.mem_cons_of_mem _ hc⟩
        · exact ⟨l, List.mem_cons_of_mem _ hl, hc⟩

/-- The characters of a host name. -/
theorem char_of_isHostName (h : Net.isHostName s = true) : ∀ c ∈ s, nameChar c = true ∨ c = '.' := by
  rw [net_isHostName_eq, Bool.and_eq_true, Net.labelsOk, Bool.and_eq_true, List.all_eq_true] at h
  intro c hc
  by_cases hdot : c = '.'
  · exact .inr hdot
  · obtain ⟨k, hk⟩ := Net.exists_dots s
    rw [hk] at hc
    rcases List.mem_append.mp hc with hc | hc
    · obtain ⟨l, hl, hc⟩ := mem_labels hc hdot
      have hlabel := h.2.2 l hl
      rw [Net.labelOk, Bool.and_eq_true, List.all_eq_true] at hlabel
      exact .inl (hlabel.2 c hc)
    · exact absurd (List.eq_of_mem_replicate hc) hdot

section Parser

variable {parseIp : List Char → Option Net.Ip}

/-- **`net.rs`'s grants** of a name. -/
theorem parseConnectGrant_name {host port : List Char} (hsplit : Net.rsplitOnce ':' s = some (host, port))
    (hip : parseIp (Net.hostText s) = none) :
    (Net.parseConnectGrant parseIp s).toBool = ((Net.parsePort port).isSome && Net.isHostName host) := by
  rw [Net.hostText, hsplit] at hip
  dsimp only at hip
  rw [Net.parseConnectGrant, hsplit]
  dsimp only
  cases hport : Net.parsePort port with
  | none => rfl
  | some port =>
    dsimp only
    rw [Option.isSome_some, Bool.true_and, hip]
    cases hhost : Net.isHostName host with
    | true =>
      have hchars := char_of_isHostName hhost
      have hbrackets : Net.stripBrackets host = none := by
        cases host with
        | nil => rfl
        | cons c host =>
          have hc : c ≠ '[' := by
            rintro rfl
            exact absurd (hchars '[' List.mem_cons_self) (by decide)
          rw [Net.stripBrackets]
          exact fun h heq => hc (List.cons.inj heq).1
      have hpercent : '%' ∉ host := fun hmem => absurd (hchars '%' hmem) (by decide)
      rw [hbrackets, Option.getD_none, if_neg hpercent, hhost]
      rfl
    | false =>
      split
      · rfl
      · rw [if_pos]
        · rfl
        · cases hbrackets : Net.stripBrackets host with
          | none => rw [Option.getD_none, hhost]; rfl
          | some h => rfl

/-- Where the two read a grant otherwise: its port is a number to the host's parser and not to `std/ip`, or its host ends in
dots. -/
def ReadOtherwise (g : List Char) : Prop :=
  ∃ host port, Net.rsplitOnce ':' g = some (host, port) ∧ (Net.parsePort port).isSome ∧ Net.byteLen host ≤ 253 ∧
    Net.labelsOk (Net.trimDots host) = true ∧ (TwoDots host ∨ port.head? = some '+' ∨ 5 < port.length)

theorem readOtherwise_iff {host port : List Char} (hsplit : Net.rsplitOnce ':' s = some (host, port)) :
    ReadOtherwise s ↔ (Net.parsePort port).isSome ∧ Net.isHostName host = true ∧
      (TwoDots host ∨ port.head? = some '+' ∨ 5 < port.length) := by
  rw [net_isHostName_eq, Bool.and_eq_true, decide_eq_true_eq, and_assoc]
  constructor
  · rintro ⟨host', port', hsplit', h⟩
    rw [hsplit] at hsplit'
    cases hsplit'
    exact h
  · exact fun h => ⟨host, port, hsplit, h⟩

/-- **`std/ip`'s grants**. -/
theorem isNameGrant_eq {host port : List Char} (hsplit : Net.rsplitOnce ':' s = some (host, port)) {fuel : Nat}
    (hfuel : (bytes s).length < fuel) :
    isNameGrant fuel (bytes s) = done (decide ((Net.parsePort port).isSome ∧ port.head? ≠ some '+' ∧ port.length ≤ 5) &&
      (Net.isHostName host && !decide (TwoDots host))) := by
  obtain ⟨rfl, hcolon⟩ := rsplitOnce_eq_some hsplit
  have hbytes : bytes (host ++ ':' :: port) = bytes host ++ 58#8 :: bytes port := by
    rw [bytes_append, bytes_cons]
    rfl
  have hnot : 58#8 ∉ bytes port := mt (byte_mem_iff (x := ':') (by decide) port).mp hcolon
  rw [hbytes, List.length_append, List.length_cons] at hfuel
  rw [hbytes]
  by_cases hhost : host = []
  · subst hhost
    rw [show bytes [] = [] from rfl, List.nil_append, isNameGrant_no_host (.inr ⟨bytes port, rfl, hnot⟩)]
    simp [Net.isHostName]
  · rw [isNameGrant_cut hnot (mt bytes_eq_nil.mp hhost) (by omega), portOk_bytes, isHostName_iff host (by omega)]
    cases decide ((Net.parsePort port).isSome ∧ port.head? ≠ some '+' ∧ port.length ≤ 5) <;> rfl

/-- **Names and grants, in both hosts.** -/
theorem names_read_iff (parseIp : List Char → Option Net.Ip) :
    (∀ t fuel, (bytes t).length < fuel → (isHostName fuel (bytes t) = done (Net.isHostName t) ↔
      ¬ (TwoDots t ∧ Net.byteLen t ≤ 253 ∧ Net.labelsOk (Net.trimDots t) = true))) ∧
    ∀ g fuel, (bytes g).length < fuel → parseIp (Net.hostText g) = none →
      (isNameGrant fuel (bytes g) = done (Net.parseConnectGrant parseIp g).toBool ↔ ¬ ReadOtherwise g) := by
  refine ⟨fun t fuel hfuel => ?_, fun g fuel hfuel hip => ?_⟩
  · rw [isHostName_iff t hfuel, ← decide_eq_true_iff (p := Net.byteLen t ≤ 253), ← Bool.and_eq_true, ← net_isHostName_eq]
    by_cases htwo : TwoDots t
    · cases hname : Net.isHostName t <;> simp [htwo]
    · simp [htwo]
  · cases hsplit : Net.rsplitOnce ':' g with
    | none =>
      have hnot : 58#8 ∉ bytes g := mt (byte_mem_iff (x := ':') (by decide) g).mp (rsplitOnce_eq_none hsplit)
      rw [isNameGrant_no_host (.inl hnot), Net.parseConnectGrant, hsplit]
      refine iff_of_true rfl ?_
      rintro ⟨host, port, hsome, -⟩
      rw [hsplit] at hsome
      cases hsome
    | some parts =>
      obtain ⟨host, port⟩ := parts
      rw [isNameGrant_eq hsplit hfuel, parseConnectGrant_name hsplit hip, readOtherwise_iff hsplit, Outcome.done.injEq]
      cases hport : (Net.parsePort port).isSome
      · simp
      · cases hname : Net.isHostName host
        · simp
        · by_cases htwo : TwoDots host
          · simp [htwo]
          · simp [htwo]

/-- A name, and a grant, that the two read alike. -/
theorem names_read_example :
    isHostName 64 (bytes "example.com.".toList) = done (Net.isHostName "example.com.".toList) ∧
      isNameGrant 64 (bytes "example.com:443".toList) =
        done (Net.parseConnectGrant Net.noAddress "example.com:443".toList).toBool := by
  have hread := names_read_iff Net.noAddress
  refine ⟨(hread.1 _ 64 (by decide)).mpr (by decide), (hread.2 _ 64 (by decide) rfl).mpr ?_⟩
  have hsplit : Net.rsplitOnce ':' "example.com:443".toList = some ("example.com".toList, "443".toList) := by decide
  rw [readOtherwise_iff hsplit]
  decide

/-- `a..` is a host name to `net.rs` and not to `std/ip`, as `h:+80` is a grant. -/
theorem names_read_twice :
    (Net.isHostName "a..".toList = true ∧ isHostName 64 (bytes "a..".toList) = done false) ∧
      (Net.parseConnectGrant Net.noAddress "h:+80".toList).toBool = true ∧
        isNameGrant 64 (bytes "h:+80".toList) = done false := by
  decide

end Parser

end Aipl.StdIp
