import Aipl.Std.Html.Unescaped

/-! # Escaping is inverted

* `unescapeLoop_eq` — the loop pushes what is read back.
* `escapeTo_appends` — escaping writes what the bytes are escaped as.
* `html_inverts` — what is escaped is read back, and every text is read.
-/

namespace Aipl.StdHtml

open Aipl.Lib Aipl.Lib.Outcome Aipl.StdBuf Aipl.StdBytes
open Aipl.Std (Allocator)

variable {n t rest out r v : Bytes} {c : BitVec 8} {k m : Nat}

/-! ### How long it is -/

theorem length_encode_le {cp m : Nat} (h : cp ≤ m) : (Utf8.encode cp).length ≤ (Utf8.encode m).length := by
  rw [Utf8.encode, Utf8.encode]
  split_ifs <;> first | omega | simp

theorem names_fit : ∀ e ∈ names, (Utf8.encode e.2).length ≤ e.1.toList.length + 1 := by
  decide +kernel

theorem length_named (h : 0 ≤ named n) : (Utf8.encode (named n).toNat).length ≤ n.length + 1 := by
  obtain ⟨e, he, hn, hcp⟩ := named_nonneg h
  rw [hcp, hn, length_ascii]
  exact names_fit e he

theorem replacements_fit : ∀ e ∈ replacements, (Utf8.encode e.2).length ≤ 3 := by
  decide +kernel

theorem digitValue_lt {hex : Bool} (h : digit hex c.toNat = true) : digitValue hex c.toNat < 16 := by
  have hlt := digit_lt h
  cases hex with
  | false =>
    have hdigit : isDigit c.toNat = true := h
    rw [isDigit, decide_eq_true_eq] at hdigit
    rw [digitValue, if_neg Bool.false_ne_true]
    omega
  | true =>
    rw [digitValue, if_pos rfl, hexValue, isDigit]
    simp only [decide_eq_true_eq]
    split_ifs <;> omega

/-- What a number stands for is no longer than the number with its `&#`. -/
theorem length_numberText {hex : Bool} {ds : Bytes} (hds : ∀ c ∈ ds, digit hex c.toNat = true) (hne : ds ≠ []) :
    (numberText (number hex ds)).length ≤ ds.length + 2 := by
  have hpos := List.length_pos_iff.mpr hne
  have hmost : ∀ k, k ≤ 1114111 → (Utf8.encode k).length ≤ 4 := fun k hk => length_encode_le hk
  rw [numberText]
  by_cases hr : 0 ≤ replaced (number hex ds)
  · obtain ⟨e, he, hval⟩ := replaced_nonneg hr
    rw [if_pos hr, hval]
    exact (replacements_fit e he).trans (by omega)
  · rw [if_neg hr]
    by_cases hs : (55296 ≤ number hex ds ∧ number hex ds ≤ 57343) ∨ 1114111 < number hex ds
    · rw [if_pos hs]
      exact Nat.add_le_add_right hpos 2
    · rw [if_neg hs]
      cases invalid (number hex ds) with
      | true => exact Nat.zero_le _
      | false =>
        rw [if_neg Bool.false_ne_true]
        by_cases h2 : 2 ≤ ds.length
        · exact (hmost _ (by omega)).trans (by omega)
        · -- one digit is below 128
          obtain ⟨c, rfl⟩ := List.length_eq_one_iff.mp (show ds.length = 1 by omega)
          have hdigit := digitValue_lt (hds c List.mem_cons_self)
          have hval : number hex [c] = digitValue hex c.toNat := by
            rw [number, List.foldl_cons, List.foldl_nil, Nat.zero_mul, Nat.zero_add]
          rw [hval]
          exact (length_encode_le (m := 127) (by omega)).trans (show (Utf8.encode 127).length ≤ 3 by decide)

theorem Recognised.length_le (h : Recognised r v) : v.length ≤ r.length + 1 := by
  cases h with
  | name h =>
    rw [List.length_append]
    exact (length_named h).trans (by simp)
  | legacy h => exact length_named (named_legacy h)
  | number hx hne hds hsemi =>
    refine (length_numberText hds hne).trans ?_
    simp only [List.length_cons, List.length_append]
    omega

/-- What is read back is no longer. -/
theorem Unescaped.length_le (h : Unescaped t out) : out.length ≤ t.length := by
  induction h with
  | nil => exact le_rfl
  | byte _ _ ih => exact Nat.succ_le_succ ih
  | amp _ _ ih => exact Nat.succ_le_succ ih
  | reference hr _ _ ih =>
    have hle := hr.length_le
    simp only [List.length_cons, List.length_append]
    omega

/-! ### The two loops -/

section Buffer

variable {σ : Type} {A : Allocator σ} {fuel i : Nat} {o : Content σ} {b s : Bytes}

theorem setWidth_ofNat_byte (c : BitVec 8) : (BitVec.ofNat 32 c.toNat).setWidth 8 = c := by
  rw [BitVec.setWidth_ofNat_of_le (by decide), BitVec.ofNat_toNat, BitVec.setWidth_eq]

/-- **The loop over a text** pushes what is read back. -/
theorem unescapeLoop_eq (hb : b.length + 8 < 2 ^ 31) (hfuel : b.length + 32 < fuel) (h : Unescaped t out) :
    ∀ {i : Nat} {f : Nat} {p : Bytes}, Utf8.IsUtf8 (p ++ t) → b.drop i = t → i ≤ b.length → t.length < f →
      ∀ o, iterate (unescapeRound A fuel b) f (o, i) = pushAll A fuel o out := by
  have hround : ∀ {i f : Nat} {c : BitVec 8} {rest : Bytes}, b.drop i = c :: rest → (c :: rest).length < f + 1 →
      i + 1 + rest.length = b.length := by
    intro i f c rest ht _
    have hlen := congrArg List.length ht
    rw [List.length_drop, List.length_cons] at hlen
    omega
  induction h with
  | nil =>
    intro i f pre _ ht hi hf o
    have hlen := congrArg List.length ht
    rw [List.length_drop, List.length_nil] at hlen
    obtain ⟨f, rfl⟩ := Nat.exists_eq_succ_of_ne_zero (Nat.ne_of_gt hf)
    rw [iterate, unescapeRound, if_neg (by omega)]
    rfl
  | @byte c rest out hc _ ih =>
    intro i f pre hutf ht hi hf o
    obtain ⟨f, rfl⟩ := Nat.exists_eq_succ_of_ne_zero (Nat.ne_of_gt (Nat.lt_of_le_of_lt (Nat.zero_le _) hf))
    have hlen := hround ht hf
    have hnat : c.toNat ≠ 38 := fun h => hc (BitVec.eq_of_toNat_eq h)
    rw [iterate, unescapeRound, if_pos (by omega), byteAt_drop ht, done_bind, if_pos hnat, pushAll_cons (setWidth_ofNat_byte c)]
    rw [bind_assoc]
    congr
    funext o'
    exact ih (p := pre ++ [c]) (by rwa [List.append_assoc]) (drop_succ ht) (by omega) (Nat.lt_of_succ_lt_succ hf) o'
  | @amp rest out hno _ ih =>
    intro i f pre hutf ht hi hf o
    obtain ⟨f, rfl⟩ := Nat.exists_eq_succ_of_ne_zero (Nat.ne_of_gt (Nat.lt_of_le_of_lt (Nat.zero_le _) hf))
    have hlen := hround ht hf
    obtain ⟨-, hrest⟩ := (Utf8.isUtf8_at (by decide)).mp hutf
    rw [iterate, unescapeRound, if_pos (by omega), byteAt_drop ht, done_bind, if_neg (by decide),
      reference_eq hb (drop_succ ht) (by omega) hfuel, recognise_none hno, show 38#8 :: out = [38#8] ++ out from rfl, pushAll_append]
    dsimp only
    rw [bind_assoc, bind_assoc]
    congr
    funext o'
    exact ih (p := []) hrest (drop_succ ht) (by omega) (Nat.lt_of_succ_lt_succ hf) o'
  | @reference r v rest out hr hmax _ ih =>
    intro i f pre hutf ht hi hf o
    obtain ⟨f, rfl⟩ := Nat.exists_eq_succ_of_ne_zero (Nat.ne_of_gt (Nat.lt_of_le_of_lt (Nat.zero_le _) hf))
    have hlen := hround ht hf
    obtain ⟨-, hrest⟩ := (Utf8.isUtf8_at (by decide)).mp hutf
    obtain ⟨k, v', hk, hlong⟩ := recognise_longest hr hrest
    -- none is longer
    obtain ⟨rfl, rfl⟩ : k = r.length ∧ v' = v := by
      refine hlong.resolve_left fun hlt => ?_
      obtain ⟨hr', hle⟩ := recognise_spec hk
      have hle' := hmax _ _ hr' (List.take_prefix k _)
      rw [List.length_take, Nat.min_eq_left hle] at hle'
      omega
    rw [List.length_append] at hlen
    rw [List.length_cons, List.length_append] at hf
    have hdrop : b.drop (i + 1 + r.length) = rest := by
      rw [← List.drop_drop, drop_succ ht, List.drop_left]
    rw [iterate, unescapeRound, if_pos (by omega), byteAt_drop ht, done_bind, if_neg (by decide),
      reference_eq hb (drop_succ ht) (by omega) hfuel, hk, pushAll_append]
    dsimp only
    rw [bind_assoc, bind_assoc]
    congr
    funext o'
    exact ih (p := []) (isUtf8_after hr.ascii hrest) hdrop (by omega) (by omega) o'

theorem unescapeTo_eq (hutf : Utf8.IsUtf8 b) (hb : b.length + 8 < 2 ^ 31) (hfuel : b.length + 32 < fuel) (h : Unescaped b out)
    (o : Content σ) : unescapeTo A fuel o b = pushAll A fuel o out :=
  unescapeLoop_eq hb hfuel h (p := []) hutf List.drop_zero (Nat.zero_le _) (by omega) o

/-- What a byte is escaped as. -/
def escaped (quote : Bool) (c : BitVec 8) : Bytes :=
  if c.toNat = 38 then ascii "&amp;"
  else if c.toNat = 60 then ascii "&lt;"
  else if c.toNat = 62 then ascii "&gt;"
  else if quote ∧ c.toNat = 34 then ascii "&quot;"
  else if quote ∧ c.toNat = 39 then ascii "&#x27;"
  else [c]

theorem length_escaped_le (quote : Bool) (c : BitVec 8) : (escaped quote c).length ≤ 6 := by
  rw [escaped]
  split_ifs <;> first | decide | exact Nat.succ_le_succ (Nat.zero_le _)

/-- **A round of the escaping loop** pushes what the byte is escaped as. -/
theorem escapeRound_eq {c : BitVec 8} (quote : Bool) (hc : b[i]? = some c) (o : Content σ) :
    escapeRound A fuel b quote o i = o.pushBytes A fuel (escaped quote c) := by
  have hbyte : o.pushByte A fuel (BitVec.ofNat 32 c.toNat) = o.pushBytes A fuel [c] := by
    rw [Content.pushByte, setWidth_ofNat_byte]
    rfl
  rw [escapeRound, byteAt_eq hc, done_bind, hbyte, escaped]
  split_ifs <;> rfl

/-- **Escaping writes** what the bytes are escaped as, one after the other. -/
theorem escapeTo_appends (quote : Bool) (s : Bytes) :
    Appends (fun o : Content σ => escapeTo A fuel o s quote) (s.flatMap (escaped quote)) := by
  have hloop : ∀ n ≤ s.length, Appends (fun o : Content σ => foldAll (escapeRound A fuel s quote) o (List.range n))
      ((s.take n).flatMap (escaped quote)) := by
    intro n
    induction n with
    | zero => exact fun _ => appends_pure
    | succ n ih =>
      intro hn
      have hget := List.getElem?_eq_getElem (show n < s.length by omega)
      have hpush : Appends (fun o : Content σ => o.pushBytes A fuel (escaped quote s[n])) (escaped quote s[n]) :=
        appends_pushBytes _
      have hnext := (ih (by omega)).bind hpush
      have heq : (fun o : Content σ => foldAll (escapeRound A fuel s quote) o (List.range (n + 1))) =
          fun o => foldAll (escapeRound A fuel s quote) o (List.range n) >>= fun o => o.pushBytes A fuel (escaped quote s[n]) := by
        funext o
        rw [List.range_succ, foldAll_append]
        congr
        funext o'
        rw [foldAll, escapeRound_eq quote hget]
        exact bind_pure _
      rw [List.take_add_one, hget, Option.toList_some, List.flatMap_append, List.flatMap_singleton, heq]
      exact hnext
  have hall := hloop s.length le_rfl
  rwa [List.take_length] at hall

end Buffer

/-! ### There and back -/

theorem isUtf8_ascii : ∀ {n : Bytes}, (∀ c ∈ n, c.toNat < 128) → Utf8.IsUtf8 n
  | [], _ => Utf8.isUtf8_nil
  | c :: n, h =>
    have hcut : Utf8.IsUtf8 ([] ++ c :: n) := (Utf8.isUtf8_at (h c List.mem_cons_self)).mpr
      ⟨Utf8.isUtf8_nil, isUtf8_ascii fun c hc => h c (List.mem_cons_of_mem _ hc)⟩
    hcut

/-- A byte below 128 that is escaped as a reference to it is read back. -/
theorem Unescaped.of_escape {x : BitVec 8} {pre s e : Bytes} (hx : x.toNat < 128) (he : ∀ c ∈ e, c.toNat < 128)
    (hfound : ∀ rest, recognise (e ++ rest) = some (e.length, [x])) (hutf : Utf8.IsUtf8 (pre ++ x :: s))
    (ih : ∀ pre, Utf8.IsUtf8 (pre ++ s) → Unescaped t s ∧ Utf8.IsUtf8 (pre ++ t)) :
    Unescaped (38#8 :: e ++ t) (x :: s) ∧ Utf8.IsUtf8 (pre ++ (38#8 :: e ++ t)) := by
  obtain ⟨hpre, hs⟩ := (Utf8.isUtf8_at hx).mp hutf
  obtain ⟨hread, ht⟩ := ih [] hs
  have hetext : Utf8.IsUtf8 (e ++ t) := (isUtf8_ascii he).append ht
  refine ⟨.of_recognise hetext (hfound t) (by rwa [List.drop_left]), (Utf8.isUtf8_at (by decide)).mpr ⟨hpre, hetext⟩⟩

theorem recognise_entity {e n : Bytes} {x : BitVec 8} (he : e = n ++ [59#8]) (hn : named n = x.toNat) (hx : x.toNat < 128)
    (rest : Bytes) : recognise (e ++ rest) = some (e.length, [x]) := by
  have hencode : Utf8.encode x.toNat = [x] := by rw [Utf8.encode, if_pos hx, BitVec.ofNat_toNat, BitVec.setWidth_eq]
  have hfound := recognise_name (n := n) (by rw [hn]; exact Int.natCast_nonneg _) rest
  rw [hn, Int.toNat_natCast, hencode] at hfound
  rw [he, List.append_assoc, List.length_append, List.length_singleton]
  exact hfound

theorem recognise_x27 (rest : Bytes) : recognise (ascii "#x27;" ++ rest) = some ((ascii "#x27;").length, [39#8]) := by
  have htext : numberText (number true [50#8, 55#8]) = [39#8] := by decide +kernel
  have hfound : recognise (35#8 :: ([120#8] ++ ([50#8, 55#8] ++ 59#8 :: rest))) =
      some ([120#8].length + [50#8, 55#8].length + 2, numberText (number true [50#8, 55#8])) :=
    @recognise_number_semi true [120#8] [50#8, 55#8] (.inl rfl) (by simp) (by decide) rest
  rw [htext] at hfound
  exact hfound

/-- **What is escaped is read back.** -/
theorem unescaped_escaped : ∀ (s pre : Bytes), Utf8.IsUtf8 (pre ++ s) →
    Unescaped (s.flatMap (escaped true)) s ∧ Utf8.IsUtf8 (pre ++ s.flatMap (escaped true))
  | [], pre, h => ⟨.nil, h⟩
  | c :: s, pre, h => by
      have ih := unescaped_escaped s
      rw [List.flatMap_cons, escaped]
      by_cases h38 : c.toNat = 38
      · rw [if_pos h38]
        exact Unescaped.of_escape (e := ascii "amp;") (by omega) (by decide)
          (recognise_entity (n := ascii "amp") rfl (by rw [h38]; decide +kernel) (by omega)) h ih
      rw [if_neg h38]
      by_cases h60 : c.toNat = 60
      · rw [if_pos h60]
        exact Unescaped.of_escape (e := ascii "lt;") (by omega) (by decide)
          (recognise_entity (n := ascii "lt") rfl (by rw [h60]; decide +kernel) (by omega)) h ih
      rw [if_neg h60]
      by_cases h62 : c.toNat = 62
      · rw [if_pos h62]
        exact Unescaped.of_escape (e := ascii "gt;") (by omega) (by decide)
          (recognise_entity (n := ascii "gt") rfl (by rw [h62]; decide +kernel) (by omega)) h ih
      rw [if_neg h62]
      by_cases h34 : c.toNat = 34
      · rw [if_pos ⟨rfl, h34⟩]
        exact Unescaped.of_escape (e := ascii "quot;") (by omega) (by decide)
          (recognise_entity (n := ascii "quot") rfl (by rw [h34]; decide +kernel) (by omega)) h ih
      rw [if_neg fun hq => h34 hq.2]
      by_cases h39 : c.toNat = 39
      · obtain rfl : c = 39#8 := BitVec.eq_of_toNat_eq h39
        rw [if_pos ⟨rfl, h39⟩]
        exact Unescaped.of_escape (e := ascii "#x27;") (by omega) (by decide) recognise_x27 h ih
      rw [if_neg fun hq => h39 hq.2]
      obtain ⟨hread, hutf⟩ := ih (pre ++ [c]) (by rwa [List.append_assoc])
      refine ⟨.byte (fun heq => h38 (by rw [heq]; rfl)) hread, ?_⟩
      rwa [List.append_assoc] at hutf

/-! ### Whole texts -/

section Whole

variable {σ : Type} {A : Allocator σ} {fuel : Nat} {b s : Bytes} {o : Content σ}

theorem make_capacity (heap : σ) {n : Nat} (hn : n + 16 < 2 ^ 31) :
    Sat (fun o => o.bytes = [] ∧ o.cap.toNat = n + 16) (Content.make A heap (BitVec.ofNat 32 n + 16#32)) := by
  have h16 : (16#32).toNat = 16 := rfl
  have hnat : (BitVec.ofNat 32 n).toNat = n := toNat_ofNat_of_lt (by omega)
  have hcap : (BitVec.ofNat 32 n + 16#32).toNat = n + 16 := by rw [toNat_add_of_lt (by omega), hnat, h16]
  refine (Content.make_sat (Bool.not_eq_true _ ▸ fun hslt => ?_)).mono fun o ⟨hbytes, ho⟩ => ⟨hbytes, by rw [ho, hcap]⟩
  rw [slt_iff (by omega) (by omega), hcap, h16] at hslt
  omega

theorem finish_sat (o : Content σ) : Sat (fun t => t = o.bytes) (finish A o) := by
  rw [finish]
  exact sat_bind (endsOr_true.mp (Content.free_endsOr (.inl trivial))) fun _ _ => rfl

/-- A text is read back in the buffer that is made for it. -/
theorem unescape_sat (hutf : Utf8.IsUtf8 b) (hb : b.length + 16 < 2 ^ 31) (hfuel : b.length + 32 < fuel) (h : Unescaped b out)
    (heap : σ) : Sat (fun t => t = out) (unescape A fuel heap b) := by
  have hle := h.length_le
  rw [unescape]
  refine sat_bind (make_capacity heap hb) ?_
  rintro o ⟨hbytes, hcap⟩
  rw [unescapeTo_eq hutf (by omega) hfuel h, pushAll_ends (by omega) (by rw [hbytes, List.length_nil]; omega), done_bind]
  refine (finish_sat _).mono fun t ht => ?_
  rw [ht, hbytes, List.nil_append]

theorem length_escapeds_le (quote : Bool) : ∀ s : Bytes, (s.flatMap (escaped quote)).length ≤ 6 * s.length
  | [] => Nat.zero_le _
  | c :: s => by
      have hc := length_escaped_le quote c
      have hs := length_escapeds_le quote s
      rw [List.flatMap_cons, List.length_append, List.length_cons]
      omega

/-- Up to the bytes that doubling reaches, a text is escaped. -/
theorem escapeTo_sat {N : Nat} (quote : Bool) (hN : o.Holds N) (hle : o.bytes.length + 6 * s.length ≤ N) (hfuel : 2 ^ 31 ≤ fuel) :
    Sat (fun o' => o'.bytes = o.bytes ++ s.flatMap (escaped quote)) (escapeTo A fuel o s quote) := by
  have hrun := foldAll_range_endsOr (C := True) (f := escapeRound A fuel s quote)
    (fun k o' => o'.bytes = o.bytes ++ (s.take k).flatMap (escaped quote) ∧ o'.Holds N)
    ⟨by rw [List.take_zero, List.flatMap_nil, List.append_nil], hN⟩ s.length ?_
  · refine (endsOr_true.mp hrun).mono fun o' ho' => ?_
    rw [ho'.1, List.take_length]
  · rintro k o' hk ⟨hbytes, hN'⟩
    have hget := List.getElem?_eq_getElem hk
    have hdone := length_escapeds_le quote (s.take k)
    have hnext := length_escaped_le quote s[k]
    rw [List.length_take] at hdone
    rw [escapeRound_eq quote hget]
    refine endsOr_true.mpr ((Content.pushBytes_sat hN' ?_ hfuel).mono fun o'' ho'' => ⟨?_, ho''.2⟩)
    · rw [hbytes, List.length_append]
      omega
    · rw [ho''.1, hbytes, List.take_add_one, hget, Option.toList_some, List.flatMap_append, List.flatMap_singleton, List.append_assoc]

theorem escape_returns (heap : σ) (s : Bytes) : Returns (fun t => t = s.flatMap (escaped true)) (escape A fuel heap s) := by
  rw [escape]
  refine returns_bind (make_returns heap _) fun o ho => ?_
  refine returns_bind ((escapeTo_appends true s).returns o) fun o' ho' => (finish_sat o').returns.mono fun t ht => ?_
  rw [ht, ho', ho, List.nil_append]

theorem escape_sat (hs : (s.length + 16) * 8 < 2 ^ 31) (hfuel : 2 ^ 31 ≤ fuel) (heap : σ) :
    Sat (fun t => t = s.flatMap (escaped true)) (escape A fuel heap s) := by
  rw [escape]
  refine sat_bind (make_capacity heap (by omega)) ?_
  rintro o ⟨hbytes, hcap⟩
  have hholds : o.Holds ((s.length + 16) * 8) := ⟨3, by rw [hcap, show 2 ^ 3 = 8 from rfl], by rw [hcap]; exact hs⟩
  refine sat_bind (escapeTo_sat true hholds (by rw [hbytes, List.length_nil]; omega) hfuel) fun o' ho' => ?_
  refine (finish_sat o').mono fun t ht => ?_
  rw [ht, ho', hbytes, List.nil_append]

end Whole

/-- **HTML escaping inverts**: what a text is escaped as is read back as the text, and every text is read to its end, as a
text no longer, in which the longest reference at each place is replaced and every other byte is as it was. -/
theorem html_inverts {σ : Type} (A : Allocator σ) (fuel : Nat) :
    (∀ s, Utf8.IsUtf8 s → Appends (fun o => escapeTo A fuel o s true) (s.flatMap (escaped true)) ∧
      (∀ heap, Returns (fun t => t = s.flatMap (escaped true)) (escape A fuel heap s)) ∧
      ((s.length + 16) * 8 < 2 ^ 31 → 2 ^ 31 ≤ fuel → ∀ heap, Sat (fun t => t = s.flatMap (escaped true)) (escape A fuel heap s)) ∧
      ((s.flatMap (escaped true)).length + 8 < 2 ^ 31 → (s.flatMap (escaped true)).length + 32 < fuel →
        ∀ o, unescapeTo A fuel o (s.flatMap (escaped true)) = pushAll A fuel o s) ∧
      ((s.flatMap (escaped true)).length + 16 < 2 ^ 31 → (s.flatMap (escaped true)).length + 32 < fuel →
        ∀ heap, Sat (fun s' => s' = s) (unescape A fuel heap (s.flatMap (escaped true))))) ∧
    (∀ b, Utf8.IsUtf8 b → ∃ out, Unescaped b out ∧ Utf8.IsUtf8 out ∧ out.length ≤ b.length ∧
      (b.length + 8 < 2 ^ 31 → b.length + 32 < fuel → ∀ o, unescapeTo A fuel o b = pushAll A fuel o out) ∧
      (b.length + 16 < 2 ^ 31 → b.length + 32 < fuel → ∀ heap, Sat (fun t => t = out) (unescape A fuel heap b))) := by
  refine ⟨fun s hs => ?_, fun b hb => ?_⟩
  · obtain ⟨hread, ht⟩ := unescaped_escaped s [] hs
    exact ⟨escapeTo_appends true s, fun heap => escape_returns heap s, fun hlen hfuel heap => escape_sat hlen hfuel heap,
      fun hlen hfuel o => unescapeTo_eq ht hlen hfuel hread o, fun hlen hfuel heap => unescape_sat ht hlen hfuel hread heap⟩
  · obtain ⟨out, hout⟩ := exists_unescaped b [] hb
    exact ⟨out, hout, hout.isUtf8 [] hb, hout.length_le, fun hlen hfuel o => unescapeTo_eq hb hlen hfuel hout o,
      fun hlen hfuel heap => unescape_sat hb hlen hfuel hout heap⟩

/-- A quoted mark makes the round trip, and a surrogate and a name without its `;` are read to the end. -/
theorem quotedMark_inverts :
    (∀ o : Content Unit, unescapeTo Allocator.ample 80 o (ascii "&lt;&quot;&amp;&#x27;") = pushAll Allocator.ample 80 o (ascii "<\"&'")) ∧
    ∃ out, Unescaped (ascii "&#xD800;&notit;") out ∧
      ∀ o : Content Unit, unescapeTo Allocator.ample 80 o (ascii "&#xD800;&notit;") = pushAll Allocator.ample 80 o out := by
  refine ⟨((html_inverts Allocator.ample 80).1 (ascii "<\"&'") (isUtf8_ascii (by decide))).2.2.2.1 (by decide) (by decide), ?_⟩
  obtain ⟨out, hout, -, -, hrun, -⟩ := (html_inverts (σ := Unit) Allocator.ample 80).2 (ascii "&#xD800;&notit;") (isUtf8_ascii (by decide))
  exact ⟨out, hout, hrun (by decide) (by decide)⟩

end Aipl.StdHtml
