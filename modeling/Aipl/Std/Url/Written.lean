import Aipl.Std.Buf.Decimal
import Aipl.Std.Url.Parse
import Mathlib

/-! # Writing a URL

What `std/url` writes for the parts that it read is read as the same parts.

* `write_appends` — `write` appends `urlText`.
* `TextOf.written`, `TextOf.not_written` — hosts that are read again, and a kind that is not.
* `written_iff` — what is written has the same parts, but for a host with a `[` that is written without brackets.
-/

namespace Aipl.StdUrl

open Aipl.Lib Aipl.Lib.Outcome Aipl.Lib.Fallible Aipl.StdBuf Aipl.StdBytes Aipl.StdEncode
open Aipl.Lib.Numeral (number)
open Aipl.Std (Allocator)
open Aipl.StdStr (IsDigit value)

variable {text hp host : Bytes} {c : BitVec 8} {u : Url} {port : Int}

/-! ### Writing -/

/-- The host, in brackets if it has a colon. -/
def hostText (u : Url) : Bytes := if u.host.contains 58#8 then 91#8 :: (u.host ++ [93#8]) else u.host

theorem hostText_eq (u : Url) : hostText u = if 58#8 ∈ u.host then 91#8 :: (u.host ++ [93#8]) else u.host := by
  rw [hostText]
  exact if_congr List.contains_iff_mem rfl rfl

def portText (u : Url) : Bytes := if 0 ≤ u.port then 58#8 :: decimal u.port else []

/-- The URL with the authority that is written for its parts. -/
def rebuilt (u : Url) : Url :=
  { u with authority := if u.hasAuthority then userText u ++ (hostText u ++ portText u) else [] }

/-- What is written. -/
def urlText (u : Url) : Bytes := schemeText u ++ (authorityText (rebuilt u) ++ tailText u)

section

variable {σ : Type} {A : Allocator σ} {fuel : Nat}

theorem appends_optional {q : Prop} [Decidable q] {f : Content σ → Outcome (Content σ)} {l : Bytes} (h : q → Appends f l) :
    Appends (fun o => if q then f o else pure o) (if q then l else []) :=
  appends_ite h fun _ => appends_pure

theorem appends_writeUser (hu : u.hasUser = true) : Appends (fun o => writeUser A fuel o u) (userText u) := by
  have htext : userText u = u.user ++ ((if u.hasPassword then 58#8 :: u.password else []) ++ [64#8]) := by
    rw [userText, if_pos hu]
  rw [htext]
  exact (appends_pushBytes u.user).bind
    ((appends_optional fun _ => (appends_pushByte rfl).bind (appends_pushBytes u.password)).bind (appends_pushByte rfl))

theorem appends_writeAuthority (hu : u.hasAuthority = true) :
    Appends (fun o => writeAuthority A fuel o u) (authorityText (rebuilt u)) := by
  obtain ⟨found, hfound, hiff⟩ := (findByte_eq u.host 58#8).exists
  have htext : authorityText (rebuilt u) = [47#8, 47#8] ++ ((if u.hasUser then userText u else []) ++
      ((if 58#8 ∈ u.host then [91#8] else []) ++ (u.host ++ ((if 58#8 ∈ u.host then [93#8] else []) ++ portText u)))) := by
    have huser : userText u = if u.hasUser then userText u else [] := by
      cases hasUser : u.hasUser with
      | true => rfl
      | false => simp [userText, hasUser]
    rw [authorityText, if_pos (show (rebuilt u).hasAuthority = true from hu), rebuilt]
    dsimp only
    rw [if_pos hu, ← huser, hostText_eq]
    by_cases hcolon : 58#8 ∈ u.host
    · simp [hcolon]
    · simp [hcolon]
  have hrun : ∀ o : Content σ, writeAuthority A fuel o u = (do
      let o ← o.pushBytes A fuel [47#8, 47#8]
      let o ← (if u.hasUser then writeUser A fuel o u else pure o : Outcome (Content σ))
      let o ← (if 58#8 ∈ u.host then o.pushByte A fuel 91#32 else pure o : Outcome (Content σ))
      let o ← o.pushBytes A fuel u.host
      let o ← (if 58#8 ∈ u.host then o.pushByte A fuel 93#32 else pure o : Outcome (Content σ))
      if 0 ≤ u.port then do
        let o ← o.pushByte A fuel 58#32
        o.pushDecimal A fuel u.port 11#32
      else pure o) := by
    intro o
    rw [writeAuthority]
    simp only [show findByte u.host 58 = done found from hfound, done_bind, decide_eq_true_eq, hiff]
  rw [htext]
  simp only [hrun]
  exact (appends_pushBytes _).bind ((appends_optional appends_writeUser).bind ((appends_optional fun _ => appends_pushByte rfl).bind
    ((appends_pushBytes u.host).bind ((appends_optional fun _ => appends_pushByte rfl).bind
      (appends_optional fun _ => (appends_pushByte rfl).bind (appends_pushDecimal u.port _))))))

/-- **Writing** appends the text. -/
theorem write_appends (u : Url) : Appends (fun o => write A fuel o u) (urlText u) := by
  have htext : urlText u = (if 0 < u.scheme.length then u.scheme ++ [58#8] else []) ++
      ((if u.hasAuthority then authorityText (rebuilt u) else []) ++ tailText u) := by
    have hauthority : authorityText (rebuilt u) = if u.hasAuthority then authorityText (rebuilt u) else [] := by
      cases hasAuthority : u.hasAuthority with
      | true => rfl
      | false => simp [authorityText, rebuilt, hasAuthority]
    rw [urlText, schemeText, ← hauthority]
    by_cases hempty : u.scheme = []
    · simp [hempty]
    · rw [if_neg hempty, if_pos (List.length_pos_iff.mpr hempty)]
  rw [htext]
  exact (appends_optional fun _ => (appends_pushBytes u.scheme).bind (appends_pushByte rfl)).bind
    ((appends_optional appends_writeAuthority).bind ((appends_pushBytes u.path).bind
      ((appends_optional fun _ => (appends_pushByte rfl).bind (appends_pushBytes u.query)).bind
        (appends_optional fun _ => (appends_pushByte rfl).bind (appends_pushBytes u.fragment)))))

end

/-! ### What is written is read -/

/-- The decimal digits of a number are digits, and of that value. -/
theorem portOf_decimal {n : Nat} (hn : n ≤ 65535) : PortOf (decimal n) n := by
  rw [decimal_of_nonneg, PortOf, if_neg (numeral_ne_nil n), value_numeral]
  exact ⟨isDigit_numeral n, hn, rfl⟩

theorem PortOf.written {ds : Bytes} (h : PortOf ds port) : ∃ ds', AfterHost (if 0 ≤ port then 58#8 :: decimal port else []) ds' ∧
    PortOf ds' port := by
  rw [PortOf] at h
  by_cases hds : ds = []
  · rw [if_pos hds] at h
    subst h
    exact ⟨[], .inl ⟨rfl, rfl⟩, by rw [PortOf, if_pos rfl]⟩
  · rw [if_neg hds] at h
    obtain ⟨-, hle, rfl⟩ := h
    exact ⟨decimal (value ds), .inr (if_pos (by omega)), portOf_decimal hle⟩

/-- The bytes of the port that is written. -/
theorem portText_bytes {ds : Bytes} (h : PortOf ds u.port) : ∀ c ∈ portText u, c.toNat = 58 ∨ IsDigit c := by
  obtain ⟨ds', hafter, hport⟩ := h.written
  intro c hc
  rw [portText] at hc
  rcases hafter with ⟨hnil, -⟩ | hcons
  · rw [hnil] at hc
    cases hc
  · rw [hcons] at hc
    rcases List.mem_cons.mp hc with rfl | hc
    · exact .inl rfl
    · rw [PortOf, if_neg (List.ne_nil_of_mem hc)] at hport
      exact .inr (hport.1 c hc)

theorem mem_authority_of_host {ds : Bytes} (h : HostOf hp host ds) (hc : c ∈ host) : c ∈ hp := by
  rcases h with ⟨p, rfl, -⟩ | ⟨-, -, -, p, rfl, -⟩
  · simp [hc]
  · simp [hc]

/-- **A host without a `[` of its own, or with a `:`, is read again.** -/
theorem HostOf.written {ds ds' : Bytes} (h : HostOf hp u.host ds) (hbare : ¬ (91#8 ∈ u.host ∧ 58#8 ∉ u.host))
    (hport : ∀ c ∈ portText u, c.toNat = 58 ∨ IsDigit c) (hafter : AfterHost (portText u) ds') :
    HostOf (hostText u ++ portText u) u.host ds' := by
  have hnot : ∀ n : Nat, n ≠ 58 → ¬ (48 ≤ n ∧ n ≤ 57) → BitVec.ofNat 8 n ∉ portText u ∨ 256 ≤ n := by
    intro n h58 hdigit
    rcases Nat.lt_or_ge n 256 with hlt | hge
    · refine .inl fun hmem => ?_
      have hbyte := hport _ hmem
      rw [IsDigit, BitVec.toNat_ofNat, Nat.mod_eq_of_lt hlt] at hbyte
      omega
    · exact .inr hge
  have h91 : 91#8 ∉ portText u := (hnot 91 (by decide) (by decide)).resolve_right (by decide)
  have h93 : 93#8 ∉ portText u := (hnot 93 (by decide) (by decide)).resolve_right (by decide)
  by_cases hcolon : 58#8 ∈ u.host
  · rcases h with ⟨p, -, hclose, -⟩ | ⟨-, -, hplain, -⟩
    · refine .inl ⟨portText u, ?_, hclose, hafter⟩
      rw [hostText_eq, if_pos hcolon]
      simp
    · exact absurd hcolon hplain
  · have h91' : 91#8 ∉ u.host := fun hmem => hbare ⟨hmem, hcolon⟩
    have h93' : 93#8 ∉ u.host := by
      rcases h with ⟨p, -, hclose, -⟩ | ⟨-, hclose, -, p, rfl, -⟩
      · exact hclose
      · exact fun hmem => hclose (List.mem_append_left _ hmem)
    rw [hostText_eq, if_neg hcolon]
    exact .inr ⟨by simp [h91, h91'], by simp [h93, h93'], hcolon, portText u, rfl, hafter⟩

/-- What is written of a URL that was read is read as the same parts. -/
theorem TextOf.written (h : TextOf text u) (hbare : ¬ (91#8 ∈ u.host ∧ 58#8 ∉ u.host)) : TextOf (urlText u) (rebuilt u) := by
  refine ⟨rfl, h.scheme, fun hempty s r hs htext => ?_, fun hauthority => ?_, fun hnone => ?_, h.tail.path, h.tail.query,
    h.tail.noQuery, h.tail.noFragment⟩
  · have hempty' : u.scheme = [] := hempty
    cases hasAuthority : u.hasAuthority with
    | true =>
      obtain ⟨c, s, rfl, hc, -⟩ := hs
      rw [urlText, schemeText, if_pos hempty', authorityText, if_pos (show (rebuilt u).hasAuthority = true from hasAuthority)] at htext
      rw [← (List.cons.inj htext).1] at hc
      revert hc
      decide
    | false =>
      have hsame : urlText u = text := by
        rw [h.text_eq, urlText, authorityText, authorityText, if_neg (by simp [rebuilt, hasAuthority]), if_neg (by simp [hasAuthority])]
      exact h.noScheme hempty' s r hs (hsame ▸ htext)
  · have hasAuthority : u.hasAuthority = true := hauthority
    have hu := h.authority hasAuthority
    obtain ⟨hp, ds, heq, hhp, hhost, hport⟩ := hu.split
    obtain ⟨ds', hafter, hport'⟩ := hport.written
    have hbytes := portText_bytes hport
    have hrebuilt : (rebuilt u).authority = userText u ++ (hostText u ++ portText u) := if_pos hasAuthority
    have hmem : ∀ c ∈ hostText u ++ portText u, c ∈ hp ∨ c.toNat = 58 ∨ c.toNat = 91 ∨ c.toNat = 93 ∨ IsDigit c := by
      intro c hc
      rcases List.mem_append.mp hc with hc | hc
      · rw [hostText_eq] at hc
        split at hc
        · simp only [List.mem_cons, List.mem_append, List.not_mem_nil, or_false] at hc
          rcases hc with rfl | hc | rfl
          · exact .inr (.inr (.inl rfl))
          · exact .inl (mem_authority_of_host hhost hc)
          · exact .inr (.inr (.inr (.inl rfl)))
        · exact .inl (mem_authority_of_host hhost hc)
      · rcases hbytes c hc with hc | hc
        · exact .inr (.inl hc)
        · exact .inr (.inr (.inr (.inr hc)))
    refine { split := ⟨_, ds', hrebuilt, fun h64 => ?_, hhost.written hbare hbytes hafter, hport'⟩, user := hu.user,
             noUser := hu.noUser, noPassword := hu.noPassword, ends := fun c hc => ?_, rooted := hu.rooted }
    · rcases hmem _ h64 with h64 | h64 | h64 | h64 | h64
      · exact hhp h64
      · exact absurd h64 (by decide)
      · exact absurd h64 (by decide)
      · exact absurd h64 (by decide)
      · exact absurd h64 (by unfold IsDigit; decide)
    · rw [hrebuilt] at hc
      rcases List.mem_append.mp hc with hc | hc
      · exact hu.ends c (by rw [heq]; exact List.mem_append_left _ hc)
      · rcases hmem c hc with hc | hc | hc | hc | hc
        · exact hu.ends c (by rw [heq]; exact List.mem_append_right _ hc)
        · rw [hc]
          decide
        · rw [hc]
          decide
        · rw [hc]
          decide
        · simp only [IsDigit, List.mem_cons, List.not_mem_nil, or_false] at hc ⊢
          omega
  · have hnone' : u.hasAuthority = false := hnone
    have hu := h.noAuthority hnone'
    exact ⟨if_neg (by simp [hnone']), hu.user, hu.password, hu.host, hu.port, hu.path⟩

/-- The same parts; the text of the authority may be another. -/
def SameParts (u u' : Url) : Prop := u' = { u with authority := u'.authority }

/-- **A host with a `[` and no `:`** is written without its brackets, and not read again. -/
theorem TextOf.not_written {u' : Url} (h : TextOf text u) (hopen : 91#8 ∈ u.host) (hcolon : 58#8 ∉ u.host)
    (h' : TextOf (urlText u) u') : ¬ SameParts u u' := by
  intro hsame
  have hasAuthority : u.hasAuthority = true := by
    cases hasAuthority : u.hasAuthority with
    | true => rfl
    | false =>
      rw [(h.noAuthority hasAuthority).host] at hopen
      cases hopen
  have hbracketed : ∀ {v : Url}, v.host = u.host → (∃ hp ds, v.authority = userText v ++ hp ∧ 64#8 ∉ hp ∧
      HostOf hp v.host ds ∧ PortOf ds v.port) → ∃ p, v.authority = userText v ++ 91#8 :: (u.host ++ 93#8 :: p) ∧ 93#8 ∉ u.host := by
    rintro v hv ⟨hp, ds, heq, -, hhost, -⟩
    rw [hv] at hhost
    rcases hhost with ⟨p, rfl, hclose, -⟩ | ⟨hnot, -, -, p, rfl, -⟩
    · exact ⟨p, heq, hclose⟩
    · exact absurd (List.mem_append_left _ hopen) hnot
  obtain ⟨p, -, hclose⟩ := hbracketed rfl (h.authority hasAuthority).split
  obtain ⟨hp, ds, -, -, -, hport⟩ := (h.authority hasAuthority).split
  have htext := h'.text_eq
  rw [hsame] at h' htext
  obtain ⟨p', heq, -⟩ := hbracketed (v := { u with authority := u'.authority }) rfl (h'.authority hasAuthority).split
  have hrest : authorityText (rebuilt u) ++ tailText u = authorityText { u with authority := u'.authority } ++ tailText u :=
    List.append_cancel_left htext
  replace hrest := List.append_cancel_right hrest
  rw [authorityText, authorityText, if_pos (show (rebuilt u).hasAuthority = true from hasAuthority),
    if_pos (show u.hasAuthority = true from hasAuthority)] at hrest
  have hauthority : (rebuilt u).authority = u'.authority := (List.cons.inj (List.cons.inj hrest).2).2
  have hhost : hostText u = u.host := (hostText_eq u).trans (if_neg hcolon)
  have hcut : u.host ++ portText u = 91#8 :: (u.host ++ 93#8 :: p') := by
    rw [show (rebuilt u).authority = userText u ++ (hostText u ++ portText u) from if_pos hasAuthority, hhost] at hauthority
    exact List.append_cancel_left (hauthority.trans heq)
  have hmem : 93#8 ∈ u.host ++ portText u := by
    rw [hcut]
    simp
  rcases List.mem_append.mp hmem with hmem | hmem
  · exact hclose hmem
  · rcases portText_bytes hport _ hmem with hbyte | hbyte
    · exact absurd hbyte (by decide)
    · exact absurd hbyte (by unfold IsDigit; decide)

/-- The host is in brackets, with another `[` and without a `:`. -/
def BareBracket (text : Bytes) : Prop :=
  ∃ s ui host p r, text = s ++ 47#8 :: 47#8 :: ((ui ++ 91#8 :: (host ++ 93#8 :: p)) ++ r) ∧
    (s = [] ∨ ∃ scheme, ValidScheme scheme ∧ s = scheme ++ [58#8]) ∧ AuthorityEnd (ui ++ 91#8 :: (host ++ 93#8 :: p)) r ∧
    (ui = [] ∨ ∃ info, ui = info ++ [64#8]) ∧ 64#8 ∉ 91#8 :: (host ++ 93#8 :: p) ∧ 93#8 ∉ host ∧ 91#8 ∈ host ∧ 58#8 ∉ host

/-- Where a text is cut after the last of a byte, it is cut one way. -/
theorem last_unique {x x' y y' : Bytes} (heq : x ++ y = x' ++ y') (hx : x = [] ∨ ∃ z, x = z ++ [c])
    (hx' : x' = [] ∨ ∃ z, x' = z ++ [c]) (hy : c ∉ y) (hy' : c ∉ y') : x = x' ∧ y = y' := by
  rcases List.append_eq_append_iff.mp heq with ⟨e, rfl, rfl⟩ | ⟨e, rfl, rfl⟩
  · rcases List.eq_nil_or_concat e with rfl | ⟨z, d, rfl⟩
    · simp
    · rcases hx' with hnil | ⟨w, hw⟩
      · simp at hnil
      · rw [List.concat_eq_append, ← List.append_assoc] at hw
        obtain ⟨-, hd⟩ := List.append_inj' hw rfl
        exact absurd (by simpa using (List.cons.inj hd).1) (fun hdc : d = c => hy (by simp [hdc]))
  · rcases List.eq_nil_or_concat e with rfl | ⟨z, d, rfl⟩
    · simp
    · rcases hx with hnil | ⟨w, hw⟩
      · simp at hnil
      · rw [List.concat_eq_append, ← List.append_assoc] at hw
        obtain ⟨-, hd⟩ := List.append_inj' hw rfl
        exact absurd (by simpa using (List.cons.inj hd).1) (fun hdc : d = c => hy' (by simp [hdc]))

theorem userText_end (u : Url) : userText u = [] ∨ ∃ z, userText u = z ++ [64#8] := by
  cases hasUser : u.hasUser with
  | true => exact .inr ⟨u.user ++ (if u.hasPassword then 58#8 :: u.password else []), by simp [userText, hasUser]⟩
  | false => exact .inl (by simp [userText, hasUser])

/-- Up to the authority, a text is cut one way. -/
theorem TextOf.scheme_unique {s rest : Bytes} (h : TextOf text u) (htext : text = s ++ 47#8 :: rest)
    (hs : s = [] ∨ ∃ scheme, ValidScheme scheme ∧ s = scheme ++ [58#8]) : s = schemeText u := by
  by_cases hempty : u.scheme = []
  · rw [schemeText, if_pos hempty]
    rcases hs with rfl | ⟨scheme, hvalid, rfl⟩
    · rfl
    · rw [List.append_assoc] at htext
      exact absurd htext (h.noScheme hempty scheme _ hvalid)
  · have hvalid := h.scheme hempty
    have heq := h.text_eq
    rw [schemeText, if_neg hempty, List.append_assoc] at heq
    rw [schemeText, if_neg hempty]
    rcases hs with rfl | ⟨scheme, hvalid', rfl⟩
    · obtain ⟨c, s', hcons, hc, -⟩ := hvalid
      rw [htext, hcons] at heq
      rw [← (List.cons.inj heq).1] at hc
      exact absurd hc (by decide)
    · rw [htext, List.append_assoc] at heq
      rw [hvalid'.unique hvalid heq]

/-- The text shows such a host. -/
theorem TextOf.bareBracket_iff (h : TextOf text u) : BareBracket text ↔ 91#8 ∈ u.host ∧ 58#8 ∉ u.host := by
  constructor
  · rintro ⟨s, ui, host, p, r, htext, hs, hends, hui, h64, hclose, hopen, hcolon⟩
    obtain rfl := h.scheme_unique htext hs
    have hrest := List.append_cancel_left (htext.symm.trans h.text_eq)
    cases hasAuthority : u.hasAuthority with
    | false =>
      rw [authorityText, hasAuthority] at hrest
      exact absurd ⟨_, hrest⟩ (h.noAuthority hasAuthority).path
    | true =>
      have hu := h.authority hasAuthority
      rw [authorityText, if_pos hasAuthority] at hrest
      obtain ⟨hauthority, -⟩ := hends.unique hu.authorityEnd (List.cons.inj (List.cons.inj hrest).2).2
      obtain ⟨hp, ds, heq, hhp, hhost, -⟩ := hu.split
      obtain ⟨-, rfl⟩ := last_unique (hauthority.trans heq) hui (userText_end u) h64 hhp
      rcases hhost with ⟨p', hcut, hclose', -⟩ | ⟨hnot, -⟩
      · obtain ⟨rfl, -⟩ := cut_unique (P := fun c => c = 93#8) (List.cons.inj hcut).2
          (fun c hc heq => hclose (heq ▸ hc)) (fun c hc heq => hclose' (heq ▸ hc))
          (fun c r heq => (List.cons.inj heq).1.symm) fun c r heq => (List.cons.inj heq).1.symm
        exact ⟨hopen, hcolon⟩
      · exact absurd List.mem_cons_self hnot
  · rintro ⟨hopen, hcolon⟩
    cases hasAuthority : u.hasAuthority with
    | false =>
      rw [(h.noAuthority hasAuthority).host] at hopen
      cases hopen
    | true =>
      have hu := h.authority hasAuthority
      have hends := hu.authorityEnd
      obtain ⟨hp, ds, heq, hhp, hhost, -⟩ := hu.split
      rcases hhost with ⟨p, rfl, hclose, -⟩ | ⟨hnot, -, -, p, rfl, -⟩
      · rw [heq] at hends
        refine ⟨schemeText u, userText u, u.host, p, tailText u, ?_, ?_, hends, userText_end u, hhp, hclose, hopen, hcolon⟩
        · rw [← heq, h.text_eq, authorityText, if_pos hasAuthority]
          rfl
        · by_cases hempty : u.scheme = []
          · exact .inl (if_pos hempty)
          · exact .inr ⟨u.scheme, h.scheme hempty, if_neg hempty⟩
      · exact absurd (List.mem_append_left _ hopen) hnot

/-- **Writing a URL keeps its parts**, unless its host is in brackets, with another `[` and without a `:`. -/
theorem written_iff {σ : Type} (A : Allocator σ) (fuel : Nat) (text : Bytes) (u : Url) (h : parse text = pure u) :
    ∃ t, Appends (fun o => write A fuel o u) t ∧ ((∃ u', parse t = pure u' ∧ SameParts u u') ↔ ¬ BareBracket text) := by
  have htextOf := textOf_of_parse h
  refine ⟨urlText u, write_appends u, ?_⟩
  rw [htextOf.bareBracket_iff]
  constructor
  · rintro ⟨u', hparse, hsame⟩ ⟨hopen, hcolon⟩
    exact htextOf.not_written hopen hcolon (textOf_of_parse hparse) hsame
  · intro hbare
    exact ⟨rebuilt u, parse_of_textOf (htextOf.written hbare), rfl⟩

/-- `x://[[a]/`, whose host is `[a`. -/
def bracketUrl : Url where
  scheme := [120#8]
  hasAuthority := true
  authority := [91#8, 91#8, 97#8, 93#8]
  hasUser := false
  user := []
  hasPassword := false
  password := []
  host := [91#8, 97#8]
  port := -1
  path := [47#8]
  hasQuery := false
  query := []
  hasFragment := false
  fragment := []

/-- It is written as `x://[a/`, which is not a URL. -/
theorem bracketUrl_lost :
    parse [120#8, 58#8, 47#8, 47#8, 91#8, 91#8, 97#8, 93#8, 47#8] = pure bracketUrl ∧
      write Allocator.ample 1 ⟨[], 16#32, ()⟩ bracketUrl =
        done ⟨[120#8, 58#8, 47#8, 47#8, 91#8, 97#8, 47#8], 16#32, ()⟩ ∧
      parse [120#8, 58#8, 47#8, 47#8, 91#8, 97#8, 47#8] = throw ⟨4, "an IPv6 address without its closing ]"⟩ :=
  ⟨rfl, rfl, rfl⟩

/-- `x://a@[::1]:08?q`. -/
def portUrl : Url where
  scheme := [120#8]
  hasAuthority := true
  authority := [97#8, 64#8, 91#8, 58#8, 58#8, 49#8, 93#8, 58#8, 48#8, 56#8]
  hasUser := true
  user := [97#8]
  hasPassword := false
  password := []
  host := [58#8, 58#8, 49#8]
  port := 8
  path := []
  hasQuery := true
  query := [113#8]
  hasFragment := false
  fragment := []

/-- It is written as `x://a@[::1]:8?q`, and read as the same parts. -/
theorem portUrl_kept : ∃ t, Appends (fun o => write Allocator.ample 1 o portUrl) t ∧
    ((∃ u', parse t = pure u' ∧ SameParts portUrl u') ↔
      ¬ BareBracket [120#8, 58#8, 47#8, 47#8, 97#8, 64#8, 91#8, 58#8, 58#8, 49#8, 93#8, 58#8, 48#8, 56#8, 63#8, 113#8]) :=
  written_iff Allocator.ample 1 _ portUrl rfl

end Aipl.StdUrl
