import Aipl.Std.Buf.Pushes
import Aipl.Std.Str.Integers
import Aipl.Std.Url.Model

/-! # The parts of a URL

What `std/url` reads as the parts of a text.

* `TextOf` — the texts that the parts are read from.
* `parseScheme_eq`, `parseAuthority_eq`, `parseUser_eq`, `parseHost_eq`, `parsePort_eq`, `scanTail_eq` — its scans.
* `parse_of_textOf`, `textOf_of_parse` — `parse` returns the parts a text is read as, and only these.
-/

namespace Aipl.StdUrl

open Aipl.Lib Aipl.Lib.Outcome Aipl.Lib.Fallible Aipl.StdBuf Aipl.StdBytes Aipl.StdEncode
open Aipl.Lib.Numeral (number number_cons number_append number_lt)
open Aipl.Std (Allocator)
open Aipl.StdStr (IsDigit value)

/-! ### The parts of a text -/

def ValidScheme (s : Bytes) : Prop := ∃ c r, s = c :: r ∧ isAlpha c.toNat = true ∧ ∀ d ∈ r, schemeChar d.toNat = true

def schemeText (u : Url) : Bytes := if u.scheme = [] then [] else u.scheme ++ [58#8]

/-- The user info of the authority. -/
def userText (u : Url) : Bytes :=
  if u.hasUser then u.user ++ ((if u.hasPassword then 58#8 :: u.password else []) ++ [64#8]) else []

/-- The path, and what follows it. -/
def tailText (u : Url) : Bytes :=
  u.path ++ ((if u.hasQuery then 63#8 :: u.query else []) ++ (if u.hasFragment then 35#8 :: u.fragment else []))

/-- The digits of a port, which may be none. -/
def PortOf (ds : Bytes) (port : Int) : Prop :=
  if ds = [] then port = -1 else (∀ c ∈ ds, IsDigit c) ∧ value ds ≤ 65535 ∧ port = (value ds : Int)

/-- What follows a host: nothing, or a colon and digits. -/
def AfterHost (p ds : Bytes) : Prop := p = [] ∧ ds = [] ∨ p = 58#8 :: ds

/-- A host in brackets, or without any, and the digits after it. -/
def HostOf (hp host ds : Bytes) : Prop :=
  (∃ p, hp = 91#8 :: (host ++ 93#8 :: p) ∧ 93#8 ∉ host ∧ AfterHost p ds) ∨
    (91#8 ∉ hp ∧ 93#8 ∉ hp ∧ 58#8 ∉ host ∧ ∃ p, hp = host ++ p ∧ AfterHost p ds)

/-- The parts of an authority: the user info ends with the last `@`. -/
structure Parts (u : Url) : Prop where
  split : ∃ hp ds, u.authority = userText u ++ hp ∧ 64#8 ∉ hp ∧ HostOf hp u.host ds ∧ PortOf ds u.port
  user : 58#8 ∉ u.user
  noUser : u.hasUser = false → u.user = [] ∧ u.hasPassword = false
  noPassword : u.hasPassword = false → u.password = []

structure AuthorityOf (u : Url) : Prop extends Parts u where
  ends : ∀ c ∈ u.authority, c.toNat ∉ [47, 63, 35]
  rooted : u.path = [] ∨ ∃ r, u.path = 47#8 :: r

structure NoAuthority (u : Url) : Prop where
  authority : u.authority = []
  user : u.hasUser = false ∧ u.user = []
  password : u.hasPassword = false ∧ u.password = []
  host : u.host = []
  port : u.port = -1
  path : ¬ [47#8, 47#8] <+: tailText u

/-- The path ends at the first `?` or `#`, and the query at the first `#`. -/
structure Tail (u : Url) : Prop where
  path : ∀ c ∈ u.path, c.toNat ∉ [63, 35]
  query : 35#8 ∉ u.query
  noQuery : u.hasQuery = false → u.query = []
  noFragment : u.hasFragment = false → u.fragment = []

def authorityText (u : Url) : Bytes := if u.hasAuthority then 47#8 :: 47#8 :: u.authority else []

/-- **The text that a URL's parts are read from.** -/
structure TextOf (text : Bytes) (u : Url) : Prop where
  text_eq : text = schemeText u ++ (authorityText u ++ tailText u)
  scheme : u.scheme ≠ [] → ValidScheme u.scheme
  noScheme : u.scheme = [] → ∀ s r, ValidScheme s → text ≠ s ++ 58#8 :: r
  authority : u.hasAuthority = true → AuthorityOf u
  noAuthority : u.hasAuthority = false → NoAuthority u
  tail : Tail u

/-! ### Scans of a text in pieces -/

variable {text a b r auth hp host : Bytes} {from_ to_ i k : Nat} {seps : List Nat} {c : BitVec 8} {u : Url} {port : Int}

theorem drop_piece (h : text.drop from_ = a ++ r) : text.drop (from_ + a.length) = r := by
  rw [← List.drop_drop, h, List.drop_left]

theorem le_of_drop (h : text.drop from_ = a ++ r) (hle : from_ ≤ text.length) : from_ + (a.length + r.length) = text.length := by
  have hlen := congrArg List.length h
  rw [List.length_drop, List.length_append] at hlen
  omega

theorem view_piece (h : text.drop from_ = a ++ r) (hle : from_ ≤ text.length) (hto : to_ = from_ + a.length) :
    view text from_ to_ = done a := by
  have hlen := le_of_drop h hle
  rw [view_eq (by omega) (by omega), h, hto, Nat.add_sub_cancel_left, List.take_left]

/-- The separator is there. -/
theorem findAny_found (h : text.drop from_ = a ++ c :: r) (ha : ∀ d ∈ a, d.toNat ∉ seps) (hc : c.toNat ∈ seps)
    (hto : from_ + a.length < to_) (hle : to_ ≤ text.length) : findAny text from_ to_ seps = done (from_ + a.length) := by
  obtain ⟨e, hfind, hcut⟩ := findAny_eq (b := text) seps (show from_ ≤ to_ by omega) hle
  have hcut' : Cut text from_ to_ seps (from_ + a.length) := by
    refine ⟨by omega, by omega, ?_, fun _ => ⟨c, r, drop_piece h, hc⟩⟩
    rw [h, Nat.add_sub_cancel_left, List.take_left]
    exact ha
  rw [hfind, hcut.unique hcut']

/-- There is no separator. -/
theorem findAny_none (h : text.drop from_ = a ++ r) (ha : ∀ d ∈ a, d.toNat ∉ seps) (hle : from_ ≤ text.length)
    (hto : to_ = from_ + a.length) : findAny text from_ to_ seps = done to_ := by
  have hlen := le_of_drop h hle
  obtain ⟨e, hfind, hcut⟩ := findAny_eq (b := text) seps (show from_ ≤ to_ by omega) (by omega)
  have hcut' : Cut text from_ to_ seps to_ := by
    refine ⟨by omega, by omega, ?_, fun hlt => absurd hlt (lt_irrefl _)⟩
    rw [h, hto, Nat.add_sub_cancel_left, List.take_left]
    exact ha
  rw [hfind, hcut.unique hcut']

/-- What a scan finds, as pieces. -/
theorem Cut.pieces {e : Nat} (hcut : Cut text from_ to_ seps e) (h : text.drop from_ = a ++ r) (hle : from_ ≤ text.length)
    (hto : to_ = from_ + a.length) : ∃ x y, a = x ++ y ∧ e = from_ + x.length ∧ (∀ d ∈ x, d.toNat ∉ seps) ∧
      (y = [] ∧ e = to_ ∨ e < to_ ∧ ∃ c y', y = c :: y' ∧ c.toNat ∈ seps) := by
  have hlen := le_of_drop h hle
  have hle_e := hcut.le
  have hto_e := hcut.le_to
  have hx : (text.drop from_).take (e - from_) = a.take (e - from_) := by
    rw [h, List.take_append_of_le_length (by omega)]
  have hxlen : (a.take (e - from_)).length = e - from_ := by
    rw [List.length_take]
    omega
  refine ⟨a.take (e - from_), a.drop (e - from_), (List.take_append_drop _ _).symm, by omega, hx ▸ hcut.none, ?_⟩
  rcases Nat.lt_or_ge e to_ with hlt | hge
  · obtain ⟨c, r', hdrop, hc⟩ := hcut.found hlt
    have hy : text.drop e = a.drop (e - from_) ++ r := by
      rw [show e = from_ + (e - from_) by omega, ← List.drop_drop, h, Nat.add_sub_cancel_left,
        List.drop_append_of_le_length (by omega)]
    obtain ⟨c', y', hcons⟩ : ∃ c' y', a.drop (e - from_) = c' :: y' :=
      ⟨_, _, List.drop_eq_getElem_cons (by omega)⟩
    rw [hcons, hdrop, List.cons_append] at hy
    injection hy with hy
    exact .inr ⟨hlt, c', y', hcons, hy ▸ hc⟩
  · exact .inl ⟨List.drop_eq_nil_of_le (by omega), by omega⟩

theorem eq_of_toNat_mem {x : BitVec 8} {n : Nat} (h : x.toNat ∈ [n]) (hn : c.toNat = n) : x = c :=
  BitVec.eq_of_toNat_eq ((List.mem_singleton.mp h).trans hn.symm)

theorem not_sep {n : Nat} (h : c ∉ a) (hn : c.toNat = n) : ∀ d ∈ a, d.toNat ∉ [n] := fun _ hd hmem =>
  h (eq_of_toNat_mem hmem hn ▸ hd)

/-! ### The user info -/

/-- A round of the loop that looks for the last `@`. -/
def atRound (text : Bytes) (at_ : Option Nat) (i : Nat) : Outcome (Option Nat) := do
  pure (if (← byteAt text i) = 64 then some i else at_)

theorem atRound_all : ∀ (a : Bytes) (i : Nat) (x : Option Nat), text.drop i = a ++ r →
    ∃ y, foldAll (atRound text) x (List.range' i a.length) = done y ∧ (64#8 ∉ a → y = x)
  | [], _, x, _ => ⟨x, rfl, fun _ => rfl⟩
  | c :: a, i, x, h => by
      obtain ⟨y, hy, hx⟩ := atRound_all a (i + 1) (if c.toNat = 64 then some i else x) (drop_succ h)
      refine ⟨y, ?_, fun hnot => ?_⟩
      · rw [List.length_cons, List.range'_succ, foldAll, atRound, byteAt_drop h, done_bind, pure_eq, done_bind, hy]
      · rw [List.mem_cons, not_or] at hnot
        rw [hx hnot.2, if_neg (show c.toNat ≠ 64 from fun hc => hnot.1 (BitVec.eq_of_toNat_eq hc).symm)]

theorem lastAt_none (h : text.drop from_ = a ++ r) (ha : 64#8 ∉ a) (hto : to_ = from_ + a.length) :
    lastAt text from_ to_ = done none := by
  obtain ⟨y, hy, hnone⟩ := atRound_all a from_ none h
  rw [lastAt, hto, Nat.add_sub_cancel_left]
  exact hy.trans (congrArg done (hnone ha))

theorem lastAt_some (h : text.drop from_ = (a ++ 64#8 :: b) ++ r) (hb : 64#8 ∉ b)
    (hto : to_ = from_ + (a ++ 64#8 :: b).length) : lastAt text from_ to_ = done (some (from_ + a.length)) := by
  rw [List.append_assoc, List.cons_append] at h
  have hdrop := drop_piece h
  obtain ⟨x, hx, -⟩ := atRound_all a from_ none h
  obtain ⟨y, hy, hnone⟩ := atRound_all b (from_ + a.length + 1) (some (from_ + a.length)) (drop_succ hdrop)
  have hrange : List.range' from_ (to_ - from_) =
      List.range' from_ a.length ++ (from_ + a.length) :: List.range' (from_ + a.length + 1) b.length := by
    rw [hto, Nat.add_sub_cancel_left, List.length_append, List.length_cons, ← List.range'_append_1, List.range'_succ]
  have hfold : foldAll (atRound text) none (List.range' from_ (to_ - from_)) = done (some (from_ + a.length)) := by
    rw [hrange, foldAll_append, hx, done_bind, foldAll, atRound, byteAt_drop hdrop, done_bind, pure_eq, done_bind]
    exact hy.trans (congrArg done (hnone hb))
  exact hfold

theorem parseUser_none (h : text.drop from_ = hp ++ r) (hhp : 64#8 ∉ hp) (hto : to_ = from_ + hp.length) :
    parseUser text from_ to_ = done ⟨false, [], false, [], from_⟩ := by
  rw [parseUser, lastAt_none h hhp hto]
  rfl

theorem parseUser_plain {user : Bytes} (h : text.drop from_ = (user ++ 64#8 :: hp) ++ r) (hle : from_ ≤ text.length)
    (hhp : 64#8 ∉ hp) (huser : 58#8 ∉ user) (hto : to_ = from_ + (user ++ 64#8 :: hp).length) :
    parseUser text from_ to_ = done ⟨true, user, false, [], from_ + user.length + 1⟩ := by
  have hpieces := h
  rw [List.append_assoc] at hpieces
  have hcolon : findAny text from_ (from_ + user.length) [58] = done (from_ + user.length) :=
    findAny_none hpieces (not_sep huser rfl) hle rfl
  rw [parseUser, lastAt_some h hhp hto, done_bind]
  dsimp only
  rw [hcolon, done_bind, view_piece hpieces hle rfl, done_bind, if_neg (lt_irrefl _)]
  rfl

theorem parseUser_password {user password : Bytes} (h : text.drop from_ = ((user ++ 58#8 :: password) ++ 64#8 :: hp) ++ r)
    (hle : from_ ≤ text.length) (hhp : 64#8 ∉ hp) (huser : 58#8 ∉ user)
    (hto : to_ = from_ + ((user ++ 58#8 :: password) ++ 64#8 :: hp).length) :
    parseUser text from_ to_ = done ⟨true, user, true, password, from_ + (user ++ 58#8 :: password).length + 1⟩ := by
  have hpieces : text.drop from_ = user ++ 58#8 :: (password ++ (64#8 :: hp ++ r)) := by rw [h]; simp
  have hlen := le_of_drop hpieces hle
  simp only [List.length_append, List.length_cons] at hlen
  have hrest : text.drop (from_ + user.length + 1) = password ++ (64#8 :: hp ++ r) := drop_succ (drop_piece hpieces)
  have hcolon : findAny text from_ (from_ + (user ++ 58#8 :: password).length) [58] = done (from_ + user.length) :=
    findAny_found hpieces (not_sep huser rfl) (by decide) (by simp) (by simp; omega)
  rw [parseUser, lastAt_some h hhp hto, done_bind]
  dsimp only
  rw [hcolon, done_bind, view_piece hpieces hle rfl, done_bind, if_pos (by simp),
    view_piece hrest (by omega) (by simp; omega)]
  rfl

/-- The user info that is there is read. -/
theorem parseUser_eq (h : text.drop from_ = (userText u ++ hp) ++ r) (hle : from_ ≤ text.length) (hhp : 64#8 ∉ hp)
    (huser : 58#8 ∉ u.user) (hnone : u.hasUser = false → u.user = [] ∧ u.hasPassword = false)
    (hplain : u.hasPassword = false → u.password = []) (hto : to_ = from_ + (userText u ++ hp).length) :
    parseUser text from_ to_ =
      done ⟨u.hasUser, u.user, u.hasPassword, u.password, from_ + (userText u).length⟩ := by
  cases hasUser : u.hasUser with
  | false =>
    obtain ⟨hempty, hpassword⟩ := hnone hasUser
    simp only [userText, hasUser, Bool.false_eq_true, if_false, List.nil_append] at h hto ⊢
    rw [parseUser_none h hhp hto, hempty, hpassword, hplain hpassword]
    rfl
  | true =>
    cases hasPassword : u.hasPassword with
    | false =>
      have htext : userText u ++ hp = u.user ++ 64#8 :: hp := by simp [userText, hasUser, hasPassword]
      have hlen : (userText u).length = u.user.length + 1 := by simp [userText, hasUser, hasPassword]
      rw [htext] at h hto
      rw [parseUser_plain h hle hhp huser hto, hplain hasPassword, hlen]
      rfl
    | true =>
      have htext : userText u ++ hp = (u.user ++ 58#8 :: u.password) ++ 64#8 :: hp := by
        simp [userText, hasUser, hasPassword]
      have hlen : (userText u).length = (u.user ++ 58#8 :: u.password).length + 1 := by
        simp [userText, hasUser, hasPassword]
        omega
      rw [htext] at h hto
      rw [parseUser_password h hle hhp huser hto, hlen]
      rfl

/-! ### The port -/

theorem value_cons (c : BitVec 8) (ds : Bytes) : value (c :: ds) = (c.toNat - 48) * 10 ^ ds.length + value ds := by
  rw [value, List.map_cons, number_cons, List.length_map]
  rfl

theorem isDigit_iff (c : BitVec 8) : isDigit c.toNat = true ↔ IsDigit c := by
  rw [isDigit, decide_eq_true_eq, IsDigit]

/-- **The loop over the digits** reads a number up to 65535. -/
theorem portLoop_eq (portFrom : Nat) : ∀ (ds : Bytes) (i v : Nat), text.drop i = ds ++ r → v ≤ 65535 →
    (portLoop text portFrom i ds.length v = pure (v * 10 ^ ds.length + value ds) ∧
      (∀ c ∈ ds, IsDigit c) ∧ v * 10 ^ ds.length + value ds ≤ 65535) ∨
    ((∃ e, portLoop text portFrom i ds.length v = throw e) ∧
      ¬ ((∀ c ∈ ds, IsDigit c) ∧ v * 10 ^ ds.length + value ds ≤ 65535))
  | [], i, v, _, hv => .inl ⟨by simp [portLoop, value, number], by simp, by simpa [value, number] using hv⟩
  | c :: ds, i, v, h, hv => by
      have hsum : v * 10 ^ (c :: ds).length + value (c :: ds) =
          (v * 10 + (c.toNat - 48)) * 10 ^ ds.length + value ds := by
        rw [value_cons, List.length_cons, pow_succ']
        ring
      rw [hsum, List.length_cons, portLoop, byteAt_drop h, lift_done_bind]
      by_cases hc : IsDigit c
      · rw [if_neg (by simp [(isDigit_iff c).mpr hc])]
        by_cases hbig : 65535 < v * 10 + (c.toNat - 48)
        · have hle : v * 10 + (c.toNat - 48) ≤ (v * 10 + (c.toNat - 48)) * 10 ^ ds.length :=
            Nat.le_mul_of_pos_right _ (by positivity)
          exact .inr ⟨⟨_, if_pos hbig⟩, fun hok => by have hok := hok.2; omega⟩
        · rw [if_neg hbig]
          rcases portLoop_eq portFrom ds (i + 1) (v * 10 + (c.toNat - 48)) (drop_succ h) (by omega) with
            ⟨hrun, hdigits, hle⟩ | ⟨hrun, hnot⟩
          · exact .inl ⟨hrun, List.forall_mem_cons.mpr ⟨hc, hdigits⟩, hle⟩
          · exact .inr ⟨hrun, fun hok => hnot ⟨(List.forall_mem_cons.mp hok.1).2, hok.2⟩⟩
      · rw [if_pos (by simpa [← isDigit_iff] using hc)]
        exact .inr ⟨⟨_, rfl⟩, fun hok => hc (hok.1 c List.mem_cons_self)⟩

theorem PortOf.unique {ds : Bytes} {port' : Int} (h : PortOf ds port) (h' : PortOf ds port') : port = port' := by
  rw [PortOf] at h h'
  by_cases hds : ds = []
  · rw [if_pos hds] at h h'
    rw [h, h']
  · rw [if_neg hds] at h h'
    rw [h.2.2, h'.2.2]

/-- The port that is there is read, and only a port is. -/
theorem parsePort_eq {ds : Bytes} (h : text.drop from_ = ds ++ r) (hto : to_ = from_ + ds.length) :
    (∃ port, parsePort text from_ to_ = pure port ∧ PortOf ds port) ∨
      ((∃ e, parsePort text from_ to_ = throw e) ∧ ∀ port, ¬ PortOf ds port) := by
  rw [parsePort]
  by_cases hds : ds = []
  · subst hds
    rw [if_neg (by simp [hto])]
    exact .inl ⟨-1, rfl, by rw [PortOf, if_pos rfl]⟩
  · have hpos := List.length_pos_iff.mpr hds
    rw [if_pos (by omega), hto, Nat.add_sub_cancel_left]
    have hvalue : 0 * 10 ^ ds.length + value ds = value ds := by rw [Nat.zero_mul, Nat.zero_add]
    have hloop := portLoop_eq from_ ds from_ 0 h (Nat.zero_le _)
    rw [hvalue] at hloop
    rcases hloop with ⟨hrun, hdigits, hle⟩ | ⟨⟨e, hrun⟩, hnot⟩
    · rw [hrun]
      exact .inl ⟨value ds, rfl, by rw [PortOf, if_neg hds]; exact ⟨hdigits, hle, rfl⟩⟩
    · rw [hrun]
      refine .inr ⟨⟨e, rfl⟩, fun port hport => hnot ?_⟩
      rw [PortOf, if_neg hds] at hport
      exact ⟨hport.1, hport.2.1⟩

/-! ### The host -/

theorem parseHost_bracketed {p : Bytes} (h : text.drop from_ = (91#8 :: (host ++ 93#8 :: p)) ++ r) (hle : from_ ≤ text.length)
    (hhost : 93#8 ∉ host) (hto : to_ = from_ + (91#8 :: (host ++ 93#8 :: p)).length) :
    parseHost text from_ to_ =
      match p with
      | [] => pure (host, to_)
      | c :: _ => if c.toNat ≠ 58 then throw ⟨from_ + host.length + 2, "text after an IPv6 address"⟩
        else pure (host, from_ + host.length + 3) := by
  have hlen := le_of_drop h hle
  simp only [List.length_append, List.length_cons] at hlen hto
  have hopen : findAny text from_ to_ [91] = done from_ :=
    findAny_found (a := []) h (by simp) (by decide) (by simp; omega) (by omega)
  have hdrop : text.drop from_ = (91#8 :: host) ++ 93#8 :: (p ++ r) := by rw [h]; simp
  have hclose : findAny text from_ to_ [93] = done (from_ + host.length + 1) := by
    have hnot : 93#8 ∉ 91#8 :: host := by simp [hhost]
    exact findAny_found hdrop (not_sep hnot rfl) (by decide) (by simp; omega) (by omega)
  have hhostDrop : text.drop (from_ + 1) = host ++ 93#8 :: (p ++ r) := drop_succ hdrop
  have hview : view text (from_ + 1) (from_ + host.length + 1) = done host := view_piece hhostDrop (by omega) (by omega)
  have hafter : text.drop (from_ + host.length + 1 + 1) = p ++ r := by
    have hpiece := drop_piece hdrop
    rw [List.length_cons] at hpiece
    exact drop_succ hpiece
  rw [parseHost, hopen, lift_done_bind, hclose, lift_done_bind, if_pos (by omega), if_neg (by simp; omega), hview,
    lift_done_bind]
  dsimp only
  cases p with
  | nil =>
    rw [if_neg (by simp at hto; omega)]
  | cons c p =>
    simp only [List.length_cons] at hto
    rw [if_pos (by omega), byteAt_drop hafter, lift_done_bind]

theorem parseHost_plain {p : Bytes} (h : text.drop from_ = (host ++ p) ++ r) (hle : from_ ≤ text.length)
    (hopen : 91#8 ∉ host ++ p) (hclose : 93#8 ∉ host ++ p) (hcolon : 58#8 ∉ host)
    (hp : p = [] ∨ ∃ ds, p = 58#8 :: ds) (hto : to_ = from_ + (host ++ p).length) :
    parseHost text from_ to_ = pure (host, if p = [] then to_ else from_ + host.length + 1) := by
  have hlen := le_of_drop h hle
  have hfind : ∀ (n : Nat) {c : BitVec 8}, c ∉ host ++ p → c.toNat = n → findAny text from_ to_ [n] = done to_ :=
    fun n c hc hn => findAny_none h (not_sep hc hn) hle hto
  rw [parseHost, hfind 91 hopen rfl, lift_done_bind, hfind 93 hclose rfl, lift_done_bind, if_neg (lt_irrefl _),
    if_neg (lt_irrefl _)]
  rw [List.append_assoc] at h
  rcases hp with rfl | ⟨ds, rfl⟩
  · rw [List.append_nil] at hto
    have hfound : findAny text from_ to_ [58] = done to_ := findAny_none h (not_sep hcolon rfl) hle hto
    rw [hfound, lift_done_bind, view_piece h hle hto, lift_done_bind, if_neg (lt_irrefl _), if_pos rfl]
  · simp only [List.length_append, List.length_cons] at hto hlen
    have hfound : findAny text from_ to_ [58] = done (from_ + host.length) :=
      findAny_found h (not_sep hcolon rfl) (by decide) (by omega) (by omega)
    rw [hfound, lift_done_bind, view_piece h hle rfl, lift_done_bind, if_pos (by omega), if_neg (List.cons_ne_nil _ _)]

/-- The host that is there is read. -/
theorem parseHost_eq {ds : Bytes} (h : text.drop from_ = hp ++ r) (hle : from_ ≤ text.length) (hto : to_ = from_ + hp.length)
    (hhost : HostOf hp host ds) : ∃ portFrom, parseHost text from_ to_ = pure (host, portFrom) ∧
      text.drop portFrom = ds ++ r ∧ to_ = portFrom + ds.length := by
  rcases hhost with ⟨p, rfl, hclose, hp⟩ | ⟨hopen, hclose, hcolon, p, rfl, hp⟩
  · have hrun := parseHost_bracketed h hle hclose hto
    have hdrop : text.drop (from_ + host.length + 2) = p ++ r := by
      have hpieces : text.drop from_ = (91#8 :: host ++ [93#8]) ++ (p ++ r) := by rw [h]; simp
      have hpiece := drop_piece hpieces
      rwa [List.length_append, List.length_cons, List.length_singleton, ← Nat.add_assoc, ← Nat.add_assoc] at hpiece
    simp only [List.length_append, List.length_cons] at hto
    rcases hp with ⟨rfl, rfl⟩ | rfl
    · exact ⟨to_, hrun, by rw [hto]; exact hdrop, rfl⟩
    · refine ⟨from_ + host.length + 3, ?_, drop_succ hdrop, by simp at hto; omega⟩
      rw [hrun]
      rfl
  · rcases hp with ⟨rfl, rfl⟩ | rfl
    · refine ⟨to_, ?_, ?_, rfl⟩
      · rw [parseHost_plain h hle hopen hclose hcolon (.inl rfl) hto, if_pos rfl]
      · rw [hto]
        exact drop_piece h
    · refine ⟨from_ + host.length + 1, ?_, ?_, by simp at hto; omega⟩
      · rw [parseHost_plain h hle hopen hclose hcolon (.inr ⟨ds, rfl⟩) hto, if_neg (List.cons_ne_nil _ _)]
      · rw [List.append_assoc] at h
        exact drop_succ (drop_piece h)

/-- … and only a host is. -/
theorem parseHost_reads (h : text.drop from_ = hp ++ r) (hle : from_ ≤ text.length) (hto : to_ = from_ + hp.length) :
    (∃ e, parseHost text from_ to_ = throw e) ∨ ∃ host ds, HostOf hp host ds := by
  have hlen := le_of_drop h hle
  have hnone : ∀ (n : Nat) {c : BitVec 8}, c ∉ hp → c.toNat = n → findAny text from_ to_ [n] = done to_ :=
    fun n c hc hn => findAny_none h (not_sep hc hn) hle hto
  have hfound : ∀ (n : Nat) {c : BitVec 8} {x y : Bytes}, hp = x ++ c :: y → c ∉ x → c.toNat = n →
      findAny text from_ to_ [n] = done (from_ + x.length) := by
    rintro n c x y rfl hx hn
    rw [List.append_assoc] at h
    simp only [List.length_append, List.length_cons] at hto hlen
    exact findAny_found h (not_sep hx hn) (hn ▸ List.mem_singleton_self _) (by omega) (by omega)
  obtain ⟨close, hclose, -⟩ := findAny_eq (b := text) [93] (show from_ ≤ to_ by omega) (by omega)
  by_cases hmem : 91#8 ∈ hp
  · obtain ⟨x, y, heq, hx⟩ := List.eq_append_cons_of_mem hmem
    have hlt := congrArg List.length heq
    rw [List.length_append, List.length_cons] at hlt
    by_cases hempty : x = []
    · subst hempty
      by_cases hclosed : 93#8 ∈ y
      · obtain ⟨host, p, rfl, hhost⟩ := List.eq_append_cons_of_mem hclosed
        rw [List.nil_append] at heq
        subst heq
        rcases p with _ | ⟨c, ds⟩
        · exact .inr ⟨host, [], .inl ⟨[], rfl, hhost, .inl ⟨rfl, rfl⟩⟩⟩
        · by_cases hc : c.toNat = 58
          · obtain rfl : c = 58#8 := BitVec.eq_of_toNat_eq hc
            exact .inr ⟨host, ds, .inl ⟨_, rfl, hhost, .inr rfl⟩⟩
          · have hrun := parseHost_bracketed h hle hhost hto
            dsimp only at hrun
            rw [if_pos hc] at hrun
            exact .inl ⟨_, hrun⟩
      · have hnot : 93#8 ∉ hp := by simpa [heq] using hclosed
        have hopen := hfound 91 heq hx rfl
        refine .inl ⟨⟨from_ + ([] : Bytes).length, "an IPv6 address without its closing ]"⟩, ?_⟩
        rw [parseHost, hopen, lift_done_bind, hnone 93 hnot rfl, lift_done_bind, if_pos (by omega), if_pos (.inr rfl)]
    · have hpos := List.length_pos_iff.mpr hempty
      refine .inl ⟨⟨from_ + x.length, "an IPv6 address without its closing ]"⟩, ?_⟩
      rw [parseHost, hfound 91 heq hx rfl, lift_done_bind, hclose, lift_done_bind, if_pos (by omega),
        if_pos (.inl (by omega))]
  · by_cases hclosed : 93#8 ∈ hp
    · obtain ⟨x, y, heq, hx⟩ := List.eq_append_cons_of_mem hclosed
      have hlt := congrArg List.length heq
      rw [List.length_append, List.length_cons] at hlt
      refine .inl ⟨⟨from_ + x.length, "a ] without its ["⟩, ?_⟩
      rw [parseHost, hnone 91 hmem rfl, lift_done_bind, hfound 93 heq hx rfl, lift_done_bind, if_neg (lt_irrefl _),
        if_pos (by omega)]
    · by_cases hcolon : 58#8 ∈ hp
      · obtain ⟨host, ds, heq, hhost⟩ := List.eq_append_cons_of_mem hcolon
        exact .inr ⟨host, ds, .inr ⟨hmem, hclosed, hhost, _, heq, .inr rfl⟩⟩
      · exact .inr ⟨hp, [], .inr ⟨hmem, hclosed, hcolon, [], (List.append_nil _).symm, .inl ⟨rfl, rfl⟩⟩⟩

/-! ### The authority -/

/-- Every text is cut at the last of a byte, if it has one. -/
theorem exists_last (c : BitVec 8) (l : Bytes) : c ∉ l ∨ ∃ x y, l = x ++ c :: y ∧ c ∉ y := by
  by_cases hmem : c ∈ l
  · obtain ⟨x, y, heq, hx⟩ := List.eq_append_cons_of_mem (List.mem_reverse.mpr hmem)
    refine .inr ⟨y.reverse, x.reverse, ?_, fun hc => hx (List.mem_reverse.mp hc)⟩
    rw [← List.reverse_reverse l, heq]
    simp
  · exact .inl hmem

/-- The parts of the authority that is there are read. -/
theorem parseParts_eq (h : text.drop from_ = u.authority ++ r) (hle : from_ ≤ text.length)
    (hto : to_ = from_ + u.authority.length) (hu : Parts u) :
    ∃ k, parseParts text from_ to_ = pure (⟨u.hasUser, u.user, u.hasPassword, u.password, k⟩, u.host, u.port) := by
  obtain ⟨hp, ds, heq, hhp, hhost, hport⟩ := hu.split
  rw [heq] at h hto
  have hlen := le_of_drop h hle
  have hrest := drop_piece (show text.drop from_ = userText u ++ (hp ++ r) by rw [h, List.append_assoc])
  rw [List.length_append] at hlen hto
  obtain ⟨portFrom, hrun, hdrop, hto'⟩ := parseHost_eq hrest (by omega) (show to_ = _ + hp.length by omega) hhost
  rcases parsePort_eq hdrop hto' with ⟨port, hrunPort, hport'⟩ | ⟨-, hnot⟩
  · rw [hport'.unique hport] at hrunPort
    refine ⟨from_ + (userText u).length, ?_⟩
    rw [parseParts, parseUser_eq h hle hhp hu.user hu.noUser hu.noPassword (by rw [List.length_append]; omega),
      lift_done_bind, hrun, pure_bind]
    dsimp only
    rw [hrunPort, pure_bind]
  · exact absurd hport (hnot u.port)

/-- A text is user info, and what has no `@`. -/
theorem exists_user (auth : Bytes) : ∃ (u : Url) (hp : Bytes), auth = userText u ++ hp ∧ 64#8 ∉ hp ∧ 58#8 ∉ u.user ∧
    (u.hasUser = false → u.user = [] ∧ u.hasPassword = false) ∧ (u.hasPassword = false → u.password = []) := by
  rcases exists_last 64#8 auth with hnot | ⟨ui, hp, rfl, hhp⟩
  · exact ⟨⟨[], true, [], false, [], false, [], [], -1, [], false, [], false, []⟩, auth, rfl, hnot, by simp, by simp, by simp⟩
  · by_cases hcolon : 58#8 ∈ ui
    · obtain ⟨user, password, rfl, huser⟩ := List.eq_append_cons_of_mem hcolon
      exact ⟨⟨[], true, [], true, user, true, password, [], -1, [], false, [], false, []⟩, hp, by simp [userText], hhp,
        huser, by simp, by simp⟩
    · exact ⟨⟨[], true, [], true, ui, false, [], [], -1, [], false, [], false, []⟩, hp, by simp [userText], hhp,
        hcolon, by simp, by simp⟩

/-- … and only parts of the authority are. -/
theorem parseParts_reads (h : text.drop from_ = auth ++ r) (hle : from_ ≤ text.length) (hto : to_ = from_ + auth.length) :
    (∃ e, parseParts text from_ to_ = throw e) ∨ ∃ u : Url, u.authority = auth ∧ Parts u := by
  obtain ⟨u, hp, rfl, hhp, huser, hnone, hplain⟩ := exists_user auth
  have hlen := le_of_drop h hle
  have hrest := drop_piece (show text.drop from_ = userText u ++ (hp ++ r) by rw [h, List.append_assoc])
  have hrun := parseUser_eq h hle hhp huser hnone hplain hto
  rw [List.length_append] at hlen hto
  rcases parseHost_reads hrest (by omega) (show to_ = _ + hp.length by omega) with ⟨e, he⟩ | ⟨host, ds, hhost⟩
  · refine .inl ⟨e, ?_⟩
    rw [parseParts, hrun, lift_done_bind, he, throw_bind]
  · obtain ⟨portFrom, hrunHost, hdrop, hto'⟩ := parseHost_eq hrest (by omega) (show to_ = _ + hp.length by omega) hhost
    rcases parsePort_eq hdrop hto' with ⟨port, -, hport⟩ | ⟨⟨e, he⟩, -⟩
    · exact .inr ⟨{ u with authority := userText u ++ hp, host, port }, rfl,
        ⟨hp, ds, rfl, hhp, hhost, hport⟩, huser, hnone, hplain⟩
    · refine .inl ⟨e, ?_⟩
      rw [parseParts, hrun, lift_done_bind, hrunHost, pure_bind]
      dsimp only
      rw [he, throw_bind]

/-! ### The scheme, and where the authority is -/

theorem schemeChar_not_sep {n : Nat} (h : schemeChar n = true) : n ∉ [58, 47, 63, 35] := by
  simp only [schemeChar, isAlpha, isDigit, Bool.or_eq_true, decide_eq_true_eq] at h
  simp only [List.mem_cons, List.not_mem_nil, or_false]
  omega

theorem ValidScheme.not_sep {s : Bytes} (h : ValidScheme s) : ∀ d ∈ s, d.toNat ∉ [58, 47, 63, 35] := by
  obtain ⟨c, r, rfl, hc, hr⟩ := h
  have hchar : schemeChar c.toNat = true := by rw [schemeChar, hc]; rfl
  exact List.forall_mem_cons.mpr ⟨schemeChar_not_sep hchar, fun d hd => schemeChar_not_sep (hr d hd)⟩

/-- There is one scheme, if there is one. -/
theorem ValidScheme.unique {s s' : Bytes} (h : ValidScheme s) (h' : ValidScheme s') (heq : s ++ 58#8 :: r = s' ++ 58#8 :: a) :
    s = s' := by
  have hnot : ∀ {s : Bytes}, ValidScheme s → ∀ c ∈ s, ¬ c = 58#8 := fun h c hc heq => h.not_sep c hc (by rw [heq]; decide)
  exact (cut_unique heq (hnot h) (hnot h') (fun c r h => (List.cons.inj h).1.symm) fun c r h => (List.cons.inj h).1.symm).1

theorem schemeLoop_eq : ∀ (s : Bytes) (i : Nat) (ok : Bool), text.drop i = s ++ r →
    foldAll (fun ok i => do pure (if schemeChar (← byteAt text i) then ok else false)) ok (List.range' i s.length)
      = done (ok && s.all fun c => schemeChar c.toNat)
  | [], _, ok, _ => by simp [foldAll]
  | c :: s, i, ok, h => by
      rw [List.length_cons, List.range'_succ, foldAll, byteAt_drop h, done_bind, pure_eq, done_bind,
        schemeLoop_eq s (i + 1) _ (drop_succ h), List.all_cons]
      cases schemeChar c.toNat <;> simp

theorem parseScheme_eq (text : Bytes) :
    (∃ s r, ValidScheme s ∧ text = s ++ 58#8 :: r ∧ parseScheme text = done (s, s.length + 1)) ∨
      ((∀ s r, ValidScheme s → text ≠ s ++ 58#8 :: r) ∧ parseScheme text = done ([], 0)) := by
  obtain ⟨e, hfind, hcut⟩ := findAny_eq (b := text) [58, 47, 63, 35] (Nat.zero_le _) le_rfl
  obtain ⟨x, y, heq, he, hx, hy⟩ := hcut.pieces (show text.drop 0 = text ++ [] by simp) (Nat.zero_le _) (Nat.zero_add _).symm
  rw [Nat.zero_add] at he
  subst he
  -- a scheme ends at the first separator
  have hends : ∀ s r, ValidScheme s → text = s ++ 58#8 :: r → s = x ∧ 58#8 :: r = y := by
    intro s r hs htext
    refine cut_unique (P := fun c => c.toNat ∈ [58, 47, 63, 35]) (htext.symm.trans heq) hs.not_sep hx ?_ ?_
    · intro c r' h
      rw [← (List.cons.inj h).1]
      decide
    · rintro c r' rfl
      rcases hy with ⟨hy, -⟩ | ⟨-, c', y', hy, hc⟩
      · cases hy
      · rw [(List.cons.inj hy).1]
        exact hc
  rcases hy with ⟨rfl, hlen⟩ | ⟨hlt, c, y, rfl, hc⟩
  · refine .inr ⟨fun s r hs htext => List.cons_ne_nil _ _ (hends s r hs htext).2, ?_⟩
    rw [parseScheme, hfind, done_bind, if_neg (by omega)]
    rfl
  · have hdrop : text.drop x.length = c :: y := by rw [heq, List.drop_left]
    rw [parseScheme, hfind, done_bind, if_pos hlt, byteAt_drop hdrop, done_bind, pure_eq, done_bind]
    by_cases hcolon : c.toNat = 58 ∧ 0 < x.length
    · obtain rfl : c = 58#8 := BitVec.eq_of_toNat_eq hcolon.1
      obtain ⟨d, s, rfl⟩ := List.exists_cons_of_length_pos hcolon.2
      have hd : text.drop 0 = d :: (s ++ 58#8 :: y) := by rw [heq]; rfl
      rw [if_pos (by simp), byteAt_drop hd, done_bind, List.length_cons, Nat.add_sub_cancel,
        schemeLoop_eq s 1 _ (drop_succ hd), done_bind]
      by_cases hok : (isAlpha d.toNat && s.all fun c => schemeChar c.toNat) = true
      · have hvalid : ValidScheme (d :: s) := by
          rw [Bool.and_eq_true, List.all_eq_true] at hok
          exact ⟨d, s, rfl, hok⟩
        have hview : view text 0 (s.length + 1) = done (d :: s) :=
          view_piece (show text.drop 0 = (d :: s) ++ 58#8 :: y from hd) (Nat.zero_le _) (by simp)
        rw [if_pos hok, hview]
        exact .inl ⟨d :: s, y, hvalid, heq, rfl⟩
      · rw [if_neg hok]
        refine .inr ⟨fun t r ht htext => hok ?_, rfl⟩
        obtain ⟨rfl, -⟩ := hends t r ht htext
        obtain ⟨d', s', hcons, hd', hs'⟩ := ht
        injection hcons with h₁ h₂
        subst h₁ h₂
        rw [Bool.and_eq_true, List.all_eq_true]
        exact ⟨hd', hs'⟩
    · rw [if_neg (by simpa using hcolon)]
      refine .inr ⟨fun s r hs htext => hcolon ?_, rfl⟩
      obtain ⟨rfl, hy⟩ := hends s r hs htext
      obtain ⟨d, s, rfl, -⟩ := hs
      rw [← (List.cons.inj hy).1]
      exact ⟨rfl, Nat.succ_pos _⟩

/-- An authority goes on to the next `/`, `?` or `#`. -/
def AuthorityEnd (auth r : Bytes) : Prop :=
  (∀ c ∈ auth, c.toNat ∉ [47, 63, 35]) ∧ ∀ c r', r = c :: r' → c.toNat ∈ [47, 63, 35]

theorem parseAuthority_eq (hle : from_ ≤ text.length) :
    (∃ auth r, text.drop from_ = 47#8 :: 47#8 :: (auth ++ r) ∧ AuthorityEnd auth r ∧
      parseAuthority text from_ = done (true, from_ + 2, from_ + 2 + auth.length)) ∨
    (¬ [47#8, 47#8] <+: text.drop from_ ∧ parseAuthority text from_ = done (false, from_, from_)) := by
  by_cases hslashes : [47#8, 47#8] <+: text.drop from_
  · obtain ⟨rest, hrest⟩ := hslashes
    have hdrop : text.drop from_ = 47#8 :: 47#8 :: rest := hrest.symm
    have hlen := le_of_drop (show text.drop from_ = [] ++ 47#8 :: 47#8 :: rest from hdrop) hle
    simp only [List.length_nil, List.length_cons] at hlen
    have hrest' : text.drop (from_ + 2) = rest ++ [] := by
      rw [List.append_nil]
      exact drop_succ (drop_succ hdrop)
    obtain ⟨e, hfind, hcut⟩ := findAny_eq (b := text) [47, 63, 35] (show from_ + 2 ≤ text.length by omega) le_rfl
    obtain ⟨x, y, rfl, he, hx, hy⟩ := hcut.pieces hrest' (by omega) (by omega)
    refine .inl ⟨x, y, hdrop, ⟨hx, ?_⟩, ?_⟩
    · rintro c r' rfl
      rcases hy with ⟨hy, -⟩ | ⟨-, c', y', hy, hc⟩
      · cases hy
      · rw [(List.cons.inj hy).1]
        exact hc
    · rw [parseAuthority, if_pos (by omega), byteAt_drop hdrop, done_bind, byteAt_drop (drop_succ hdrop), done_bind, pure_eq,
        done_bind, if_pos (by decide), hfind, done_bind, he]
      rfl
  · refine .inr ⟨hslashes, ?_⟩
    by_cases hlen : from_ + 2 ≤ text.length
    · obtain ⟨c, r, hc⟩ := exists_cons (show from_ < text.length by omega)
      obtain ⟨d, r', hd⟩ := exists_cons (show from_ + 1 < text.length by omega)
      have hnot : ¬ (c.toNat = 47 ∧ d.toNat = 47) := by
        rintro ⟨h₁, h₂⟩
        obtain rfl : c = 47#8 := BitVec.eq_of_toNat_eq h₁
        obtain rfl : d = 47#8 := BitVec.eq_of_toNat_eq h₂
        rw [hc, ← drop_succ hc, hd] at hslashes
        exact hslashes ⟨r', rfl⟩
      rw [parseAuthority, if_pos hlen, byteAt_drop hc, done_bind, byteAt_drop hd, done_bind, pure_eq, done_bind,
        if_neg (by simpa using hnot)]
      rfl
    · rw [parseAuthority, if_neg hlen]
      rfl

theorem AuthorityEnd.unique {auth' r' : Bytes} (h : AuthorityEnd auth r) (h' : AuthorityEnd auth' r')
    (heq : auth ++ r = auth' ++ r') : auth = auth' ∧ r = r' :=
  cut_unique (P := fun c => c.toNat ∈ [47, 63, 35]) heq h.1 h'.1 h.2 h'.2

/-! ### The path, the query and the fragment -/

/-- Every text is a path, a query and a fragment. -/
theorem exists_tail (t : Bytes) : ∃ u : Url, t = tailText u ∧ Tail u := by
  have hfragment : ∃ w hasFragment fragment, t = w ++ (if hasFragment then 35#8 :: fragment else []) ∧ 35#8 ∉ w ∧
      (hasFragment = false → fragment = []) := by
    by_cases hmem : 35#8 ∈ t
    · obtain ⟨w, fragment, heq, hw⟩ := List.eq_append_cons_of_mem hmem
      exact ⟨w, true, fragment, heq, hw, by simp⟩
    · exact ⟨t, false, [], (List.append_nil t).symm, hmem, fun _ => rfl⟩
  obtain ⟨w, hasFragment, fragment, rfl, hw, hnoFragment⟩ := hfragment
  have hquery : ∃ path hasQuery query, w = path ++ (if hasQuery then 63#8 :: query else []) ∧ 63#8 ∉ path ∧
      (hasQuery = false → query = []) := by
    by_cases hmem : 63#8 ∈ w
    · obtain ⟨path, query, heq, hpath⟩ := List.eq_append_cons_of_mem hmem
      exact ⟨path, true, query, heq, hpath, by simp⟩
    · exact ⟨w, false, [], (List.append_nil w).symm, hmem, fun _ => rfl⟩
  obtain ⟨path, hasQuery, query, rfl, hpath, hnoQuery⟩ := hquery
  rw [List.mem_append, not_or] at hw
  refine ⟨⟨[], true, [], false, [], false, [], [], -1, path, hasQuery, query, hasFragment, fragment⟩,
    List.append_assoc _ _ _, fun c hc hmem => ?_, ?_, hnoQuery, hnoFragment⟩
  · simp only [List.mem_cons, List.not_mem_nil, or_false] at hmem
    rcases hmem with hmem | hmem
    · exact hpath (BitVec.eq_of_toNat_eq (show c.toNat = (63#8).toNat from hmem) ▸ hc)
    · exact hw.1 (BitVec.eq_of_toNat_eq (show c.toNat = (35#8).toNat from hmem) ▸ hc)
  · cases hasQuery with
    | true => exact fun hmem => hw.2 (List.mem_cons_of_mem _ hmem)
    | false =>
      dsimp only
      rw [hnoQuery rfl]
      exact List.not_mem_nil

theorem Tail.no_fragment (h : Tail u) : 35#8 ∉ u.path ++ (if u.hasQuery then 63#8 :: u.query else []) := by
  rw [List.mem_append, not_or]
  refine ⟨fun hmem => h.path _ hmem (by decide), ?_⟩
  split
  · rw [List.mem_cons, not_or]
    exact ⟨by decide, h.query⟩
  · exact List.not_mem_nil

/-- What the scans for `?` and `#` find, and what is cut there. -/
theorem scanTail_eq (h : text.drop from_ = tailText u) (hle : from_ ≤ text.length) (hu : Tail u) : ∃ quest hash,
    findAny text from_ text.length [35] = done hash ∧ findAny text from_ hash [63] = done quest ∧
    view text from_ quest = done u.path ∧
    (if quest < hash then view text (quest + 1) hash else pure [] : Outcome Bytes) = done u.query ∧
    (if hash < text.length then view text (hash + 1) text.length else pure [] : Outcome Bytes) = done u.fragment ∧
    decide (quest < hash) = u.hasQuery ∧ decide (hash < text.length) = u.hasFragment := by
  have hpath : ∀ d ∈ u.path, d.toNat ∉ [63] := fun d hd hmem => hu.path d hd (List.mem_cons.mpr (.inl (List.mem_singleton.mp hmem)))
  rw [tailText, ← List.append_assoc] at h
  have hlen := le_of_drop h hle
  have hfragment : ∃ hash, hash = from_ + (u.path ++ (if u.hasQuery then 63#8 :: u.query else [])).length ∧
      findAny text from_ text.length [35] = done hash ∧
      (if hash < text.length then view text (hash + 1) text.length else pure [] : Outcome Bytes) = done u.fragment ∧
      decide (hash < text.length) = u.hasFragment := by
    refine ⟨_, rfl, ?_⟩
    cases hasFragment : u.hasFragment with
    | true =>
      simp only [hasFragment, if_true, List.length_cons] at h hlen
      have hdrop : text.drop (from_ + (u.path ++ (if u.hasQuery then 63#8 :: u.query else [])).length + 1) = u.fragment ++ [] := by
        rw [List.append_nil]
        exact drop_succ (drop_piece h)
      have hlt : from_ + (u.path ++ (if u.hasQuery then 63#8 :: u.query else [])).length < text.length := by omega
      refine ⟨findAny_found h (not_sep hu.no_fragment rfl) (by decide) hlt le_rfl, ?_, decide_eq_true hlt⟩
      rw [if_pos hlt, view_piece hdrop (by omega) (by omega)]
    | false =>
      simp only [hasFragment, Bool.false_eq_true, if_false, List.length_nil] at h hlen
      have hto : text.length = from_ + (u.path ++ (if u.hasQuery then 63#8 :: u.query else [])).length := by omega
      rw [← hto]
      refine ⟨findAny_none h (not_sep hu.no_fragment rfl) hle hto, ?_, decide_eq_false (lt_irrefl _)⟩
      rw [if_neg (lt_irrefl _), hu.noFragment hasFragment]
      rfl
  obtain ⟨hash, hhash, hfindHash, hviewFragment, hfragment⟩ := hfragment
  rw [List.append_assoc] at h
  have hquery : findAny text from_ hash [63] = done (from_ + u.path.length) ∧
      (if from_ + u.path.length < hash then view text (from_ + u.path.length + 1) hash else pure [] : Outcome Bytes) =
        done u.query ∧ decide (from_ + u.path.length < hash) = u.hasQuery := by
    rw [List.length_append] at hhash hlen
    cases hasQuery : u.hasQuery with
    | true =>
      simp only [hasQuery, if_true, List.length_cons, List.cons_append] at h hhash hlen
      have hlt : from_ + u.path.length < hash := by omega
      refine ⟨findAny_found h hpath (by decide) hlt (by omega), ?_, decide_eq_true hlt⟩
      rw [if_pos hlt, view_piece (drop_succ (drop_piece h)) (by omega) (by omega)]
    | false =>
      simp only [hasQuery, Bool.false_eq_true, if_false, List.length_nil, Nat.add_zero] at h hhash
      rw [← hhash]
      refine ⟨findAny_none h hpath hle hhash, ?_, decide_eq_false (lt_irrefl _)⟩
      rw [if_neg (lt_irrefl _), hu.noQuery hasQuery]
      rfl
  exact ⟨from_ + u.path.length, hash, hfindHash, hquery.1, view_piece h hle rfl, hquery.2.1, hviewFragment, hquery.2.2,
    hfragment⟩

/-! ### The whole text -/

theorem TextOf.scheme_eq (h : TextOf text u) : parseScheme text = done (u.scheme, (schemeText u).length) := by
  rcases parseScheme_eq text with ⟨s, r, hs, htext, hrun⟩ | ⟨hnone, hrun⟩
  · have heq : u.scheme = s := by
      by_cases hempty : u.scheme = []
      · exact absurd htext (h.noScheme hempty s r hs)
      · have htext' := h.text_eq
        rw [schemeText, if_neg hempty, List.append_assoc, List.singleton_append, htext] at htext'
        exact ((hs.unique (h.scheme hempty)) htext').symm
    obtain ⟨c, s', rfl, -⟩ := hs
    rw [hrun, heq, schemeText, if_neg (by rw [heq]; exact List.cons_ne_nil _ _), heq]
    simp
  · have hempty : u.scheme = [] := by
      by_contra hne
      refine hnone u.scheme (authorityText u ++ tailText u) (h.scheme hne) ?_
      rw [h.text_eq, schemeText, if_neg hne, List.append_assoc]
      rfl
    rw [hrun, hempty, schemeText, if_pos hempty]
    rfl

/-- What comes after an authority. -/
theorem AuthorityOf.authorityEnd (h : AuthorityOf u) : AuthorityEnd u.authority (tailText u) := by
  refine ⟨h.ends, fun c r' heq => ?_⟩
  rw [tailText] at heq
  rcases h.rooted with hpath | ⟨r, hpath⟩
  · rw [hpath, List.nil_append] at heq
    cases hasQuery : u.hasQuery with
    | true =>
      simp only [hasQuery, if_true, List.cons_append, List.cons.injEq] at heq
      rw [← heq.1]
      decide
    | false =>
      cases hasFragment : u.hasFragment with
      | true =>
        simp only [hasQuery, hasFragment, Bool.false_eq_true, if_false, if_true, List.nil_append, List.cons.injEq] at heq
        rw [← heq.1]
        decide
      | false => simp [hasQuery, hasFragment] at heq
  · rw [hpath, List.cons_append] at heq
    rw [← (List.cons.inj heq).1]
    decide

/-- What is read up to the path. -/
theorem TextOf.authority_eq (h : TextOf text u) : ∃ authFrom authTo info,
    parseAuthority text (schemeText u).length = done (u.hasAuthority, authFrom, authTo) ∧
    text.drop authTo = tailText u ∧ authTo ≤ text.length ∧ view text authFrom authTo = done u.authority ∧
    (if u.hasAuthority then parseParts text authFrom authTo
      else pure (⟨false, [], false, [], 0⟩, [], -1) : Fallible Error (UserInfo × Bytes × Int)) = pure (info, u.host, u.port) ∧
    info.hasUser = u.hasUser ∧ info.user = u.user ∧ info.hasPassword = u.hasPassword ∧ info.password = u.password := by
  have hlen := congrArg List.length h.text_eq
  rw [List.length_append, List.length_append] at hlen
  have hdrop : text.drop (schemeText u).length = authorityText u ++ tailText u := by
    conv_lhs => rw [h.text_eq]
    rw [List.drop_left]
  cases hasAuthority : u.hasAuthority with
  | true =>
    have hu := h.authority hasAuthority
    have htext : authorityText u = 47#8 :: 47#8 :: u.authority := by rw [authorityText, hasAuthority, if_pos rfl]
    rw [htext] at hdrop hlen
    simp only [List.length_cons] at hlen
    rcases parseAuthority_eq (show (schemeText u).length ≤ text.length by omega) with
      ⟨auth, r, hcut, hends, hrun⟩ | ⟨hnot, -⟩
    · rw [hcut] at hdrop
      obtain ⟨rfl, rfl⟩ := hends.unique hu.authorityEnd (List.cons.inj (List.cons.inj hdrop).2).2
      have hpieces : text.drop ((schemeText u).length + 2) = u.authority ++ tailText u := drop_succ (drop_succ hcut)
      obtain ⟨k, hparts⟩ := parseParts_eq hpieces (by omega) rfl hu.toParts
      refine ⟨_, _, ⟨u.hasUser, u.user, u.hasPassword, u.password, k⟩, hrun, drop_piece hpieces, by omega,
        view_piece hpieces (by omega) rfl, ?_, rfl, rfl, rfl, rfl⟩
      rw [if_pos rfl, hparts]
    · exact absurd ⟨_, hdrop.symm⟩ hnot
  | false =>
    have hu := h.noAuthority hasAuthority
    have htext : authorityText u = [] := by rw [authorityText, hasAuthority]; rfl
    rw [htext, List.nil_append] at hdrop
    rcases parseAuthority_eq (show (schemeText u).length ≤ text.length by omega) with
      ⟨auth, r, hcut, -, -⟩ | ⟨-, hrun⟩
    · rw [hcut] at hdrop
      exact absurd ⟨_, hdrop⟩ hu.path
    · refine ⟨_, _, ⟨false, [], false, [], 0⟩, hrun, hdrop, by omega, ?_, ?_, hu.user.1.symm, hu.user.2.symm,
        hu.password.1.symm, hu.password.2.symm⟩
      · rw [hu.authority]
        exact view_piece (show text.drop (schemeText u).length = [] ++ tailText u from hdrop) (by omega) rfl
      · rw [hu.host, hu.port]
        rfl

/-- **A text is read as the parts it is made of.** -/
theorem parse_of_textOf (h : TextOf text u) : parse text = pure u := by
  obtain ⟨authFrom, authTo, info, hauthority, hdrop, hle, hview, hparts, hinfo⟩ := h.authority_eq
  obtain ⟨quest, hash, hhash, hquest, hpath, hquery, hfragment, hasQuery, hasFragment⟩ := scanTail_eq hdrop hle h.tail
  rw [parse]
  dsimp only
  rw [h.scheme_eq, lift_done_bind]
  dsimp only
  rw [hauthority, lift_done_bind]
  dsimp only
  rw [hhash, lift_done_bind, hquest, lift_done_bind, hparts, pure_bind]
  dsimp only
  rw [hview, lift_done_bind, hpath, lift_done_bind, hquery, lift_done_bind, hfragment, lift_done_bind, hasQuery, hasFragment,
    hinfo.1, hinfo.2.1, hinfo.2.2.1, hinfo.2.2.2]

/-- After an authority the path is rooted. -/
theorem rooted_of_end (hends : AuthorityEnd auth (tailText u)) (hu : Tail u) : u.path = [] ∨ ∃ r, u.path = 47#8 :: r := by
  cases hpath : u.path with
  | nil => exact .inl rfl
  | cons c r =>
    have hsep := hends.2 c (r ++ _) (by rw [tailText, hpath]; rfl)
    have hnot := hu.path c (by rw [hpath]; exact List.mem_cons_self)
    simp only [List.mem_cons, List.not_mem_nil, or_false] at hsep hnot
    obtain rfl : c = 47#8 := BitVec.eq_of_toNat_eq (show c.toNat = 47 by omega)
    exact .inr ⟨r, rfl⟩

/-- The text up to where the authority may be. -/
theorem exists_scheme (text : Bytes) : ∃ scheme rest, text = (if scheme = [] then [] else scheme ++ [58#8]) ++ rest ∧
    (scheme ≠ [] → ValidScheme scheme) ∧ (scheme = [] → ∀ s r, ValidScheme s → text ≠ s ++ 58#8 :: r) ∧
    parseScheme text = done (scheme, (if scheme = [] then [] else scheme ++ [58#8]).length) := by
  rcases parseScheme_eq text with ⟨s, r, hs, htext, hrun⟩ | ⟨hnone, hrun⟩
  · have hne : s ≠ [] := by
      obtain ⟨c, s', rfl, -⟩ := hs
      exact List.cons_ne_nil _ _
    refine ⟨s, r, ?_, fun _ => hs, fun h => absurd h hne, ?_⟩
    · rw [if_neg hne, List.append_assoc]
      exact htext
    · rw [hrun, if_neg hne]
      simp
  · exact ⟨[], text, rfl, fun h => absurd rfl h, fun _ => hnone, hrun⟩

/-- **Only its parts are read of a text.** -/
theorem parse_textOf (text : Bytes) : (∃ e, parse text = throw e) ∨ ∃ u, TextOf text u := by
  obtain ⟨scheme, rest, htext, hscheme, hnoScheme, hrunScheme⟩ := exists_scheme text
  have hdrop : text.drop (if scheme = [] then [] else scheme ++ [58#8]).length = rest := by
    conv_lhs => rw [htext]
    rw [List.drop_left]
  have hlen := congrArg List.length htext
  rw [List.length_append] at hlen
  have hle : (if scheme = [] then [] else scheme ++ [58#8]).length ≤ text.length := by omega
  rcases parseAuthority_eq hle with
    ⟨auth, r, hcut, hends, hrunAuthority⟩ | ⟨hnot, hrunAuthority⟩
  · obtain ⟨v, rfl, hv⟩ := exists_tail r
    have hpieces := drop_succ (drop_succ hcut)
    rw [hdrop] at hcut
    subst hcut
    simp only [List.length_cons] at hlen
    rcases parseParts_reads hpieces (by omega) rfl with ⟨e, he⟩ | ⟨w, hw, hparts⟩
    · refine .inl ⟨e, ?_⟩
      obtain ⟨quest, hash, hhash, hquest, -⟩ := scanTail_eq (drop_piece hpieces) (by simp at hlen; omega) hv
      rw [parse]
      dsimp only
      rw [hrunScheme, lift_done_bind]
      dsimp only
      rw [hrunAuthority, lift_done_bind]
      dsimp only
      rw [hhash, lift_done_bind, hquest, lift_done_bind, if_pos rfl, he, throw_bind]
    · subst hw
      refine .inr ⟨{ w with scheme, hasAuthority := true, path := v.path, hasQuery := v.hasQuery, query := v.query,
                            hasFragment := v.hasFragment, fragment := v.fragment }, htext, hscheme, hnoScheme, fun _ => ?_,
        fun h => absurd h (by simp), ⟨hv.path, hv.query, hv.noQuery, hv.noFragment⟩⟩
      exact { split := hparts.split, user := hparts.user, noUser := hparts.noUser, noPassword := hparts.noPassword,
              ends := hends.1, rooted := rooted_of_end (u := v) hends hv }
  · obtain ⟨v, hrest, hv⟩ := exists_tail rest
    refine .inr ⟨⟨scheme, false, [], false, [], false, [], [], -1, v.path, v.hasQuery, v.query, v.hasFragment, v.fragment⟩,
      ?_, hscheme, hnoScheme, fun h => absurd h (by simp), fun _ => ⟨rfl, ⟨rfl, rfl⟩, ⟨rfl, rfl⟩, rfl, rfl, ?_⟩,
      ⟨hv.path, hv.query, hv.noQuery, hv.noFragment⟩⟩
    · rw [htext, hrest]
      rfl
    · rw [hdrop, hrest] at hnot
      exact hnot

theorem textOf_of_parse (h : parse text = pure u) : TextOf text u := by
  rcases parse_textOf text with ⟨e, he⟩ | ⟨v, hv⟩
  · rw [h] at he
    cases he
  · have hpure := parse_of_textOf hv
    rw [h] at hpure
    cases hpure
    exact hv

end Aipl.StdUrl
