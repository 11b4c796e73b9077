import Aipl.Net.Grants
import Mathlib.Data.List.Forall2

/-! # Which requests the grants let through

A grant's name keeps its final dots, and a request's loses all of its own, so a grant that is spelled
with a final dot lets nothing through.

* `NamesPort`, `NamesHost`, `NamesAddr` — what a grant's text names.
* `granted_name_iff` — the names the grant check lets through: those spelled, without their final
  dots, as a grant is.
* `connect_exact` — the requests for which the grants let through exactly what they name.
-/

namespace Aipl.Net

/-! ### Names up to case -/

theorem toNat_toLower (c : Char) :
    c.toLower.toNat = if 65 ≤ c.toNat ∧ c.toNat ≤ 90 then c.toNat + 32 else c.toNat := by
  have hup : (c.val ≥ 'A'.val ∧ c.val ≤ 'Z'.val) ↔ (65 ≤ c.toNat ∧ c.toNat ≤ 90) := by
    simp only [ge_iff_le, UInt32.le_iff_toNat_le, Char.toNat_val]
    rfl
  rw [Char.toLower]
  split
  · rename_i h
    have hle := (hup.mp h).2
    rw [if_pos (hup.mp h), Char.toNat_mk, UInt32.toNat_add, Char.toNat_val]
    exact Nat.mod_eq_of_lt (by simp; omega)
  · rename_i h
    rw [if_neg (mt hup.mpr h)]

theorem isAlphanum_iff {c : Char} : c.isAlphanum = true ↔ (65 ≤ c.toNat ∧ c.toNat ≤ 90) ∨
    (97 ≤ c.toNat ∧ c.toNat ≤ 122) ∨ (48 ≤ c.toNat ∧ c.toNat ≤ 57) := by
  simp [Char.isAlphanum, Char.isAlpha, Char.isUpper, Char.isLower, Char.isDigit,
    UInt32.le_iff_toNat_le, or_assoc]

theorem isAlphanum_toLower (c : Char) : c.toLower.isAlphanum = c.isAlphanum := by
  rw [Bool.eq_iff_iff, isAlphanum_iff, isAlphanum_iff, toNat_toLower]
  split <;> omega

theorem isDigit_toLower (c : Char) : c.toLower.isDigit = c.isDigit := by
  have hdigit : ∀ c : Char, c.isDigit = true ↔ 48 ≤ c.toNat ∧ c.toNat ≤ 57 := fun c =>
    Char.isDigit_iff_toNat
  rw [Bool.eq_iff_iff, hdigit, hdigit, toNat_toLower]
  split <;> omega

/-- Only a letter is a letter's lower case. -/
theorem toLower_eq_iff {c x : Char} (hx : x.toNat < 65) : c.toLower = x ↔ c = x := by
  rw [← Char.toNat_inj, ← Char.toNat_inj, toNat_toLower]
  split <;> omega

/-- The bytes of a label are its characters. -/
theorem utf8Size_toLower {c : Char} (hc : c.toNat ≤ 127) : c.toLower.utf8Size = c.utf8Size := by
  have hone : ∀ {c : Char}, c.toNat ≤ 127 → c.utf8Size = 1 := fun h =>
    Char.utf8Size_eq_one_iff.mpr (UInt32.le_iff_toNat_le.mpr h)
  rw [hone hc, hone]
  rw [toNat_toLower]
  split <;> omega

theorem labels_lower (s : List Char) : labels (lower s) = (labels s).map lower := by
  induction s with
  | nil => rfl
  | cons c cs ih =>
    rw [lower, List.map_cons, labels, labels, ← lower, ih]
    by_cases hc : c = '.'
    · rw [if_pos hc, if_pos ((toLower_eq_iff (by decide)).mpr hc)]
      rfl
    · rw [if_neg hc, if_neg (mt (toLower_eq_iff (by decide)).mp hc)]
      cases labels cs <;> rfl

theorem labelOk_lower {l : List Char} (h : labelOk l = true) : labelOk (lower l) = true := by
  simp only [labelOk, Bool.and_eq_true, decide_eq_true_eq, bne_iff_ne, ne_eq, List.all_eq_true,
    Bool.not_eq_true', List.isEmpty_eq_false_iff] at h ⊢
  obtain ⟨⟨⟨⟨hne, hlen⟩, hhead⟩, hlast⟩, hall⟩ := h
  have hdash : ∀ c : Char, c.toLower = '-' ↔ c = '-' := fun c => toLower_eq_iff (by decide)
  have hsize : byteLen (lower l) = byteLen l := by
    rw [byteLen, byteLen, lower, List.map_map]
    refine congrArg List.sum (List.map_congr_left fun c hc => utf8Size_toLower ?_)
    have hchar := hall c hc
    rw [Bool.or_eq_true, isAlphanum_iff, beq_iff_eq, ← Char.toNat_inj] at hchar
    have hdashNat : '-'.toNat = 45 := rfl
    omega
  refine ⟨⟨⟨⟨by simpa [lower] using hne, hsize ▸ hlen⟩, ?_⟩, ?_⟩, fun c hc => ?_⟩
  · simpa [lower, List.head?_map, hdash] using hhead
  · simpa [lower, List.getLast?_map, hdash] using hlast
  · obtain ⟨c', hc', rfl⟩ := List.mem_map.mp hc
    have hchar := hall c' hc'
    rw [isAlphanum_toLower]
    simpa [hdash] using hchar

theorem labelsOk_lower {s : List Char} (h : labelsOk s = true) : labelsOk (lower s) = true := by
  simp only [labelsOk, labels_lower, Bool.and_eq_true, List.getLast?_map, List.all_eq_true,
    List.mem_map] at h ⊢
  refine ⟨?_, ?_⟩
  · cases hlast : (labels s).getLast? with
    | none => rfl
    | some l =>
      have hdigits := h.1
      rw [hlast] at hdigits
      simpa [lower, Function.comp_def, isDigit_toLower] using hdigits
  · rintro l ⟨l', hl', rfl⟩
    exact labelOk_lower (h.2 l' hl')

/-! ### Final dots -/

/-- A text without one final dot. -/
def dropDot (s : List Char) : List Char := if s.getLast? = some '.' then s.dropLast else s

/-- `k` dots. -/
def dots (k : Nat) : List Char := List.replicate k '.'

@[simp] theorem trimDots_trimDots (s : List Char) : trimDots (trimDots s) = trimDots s :=
  List.rdropWhile_idempotent _ _

theorem exists_dots (s : List Char) : ∃ k, s = trimDots s ++ dots k := by
  refine ⟨(s.rtakeWhile (· == '.')).length, ?_⟩
  have hdots : s.rtakeWhile (· == '.') = dots (s.rtakeWhile (· == '.')).length :=
    List.eq_replicate_of_mem fun c hc => by simpa using List.mem_rtakeWhile_imp hc
  rw [← hdots]
  exact List.rdropWhile_append_rtakeWhile.symm

theorem trimDots_append_dots (s : List Char) (k : Nat) : trimDots (s ++ dots k) = trimDots s := by
  induction k with
  | zero => rw [dots, List.replicate_zero, List.append_nil]
  | succ k ih =>
    rw [dots, List.replicate_succ', ← List.append_assoc, trimDots,
      List.rdropWhile_concat_pos _ _ _ (by simp)]
    exact ih

variable {t t' : List Char} (ht : trimDots t = t) (ht' : trimDots t' = t')
include ht

theorem dropDot_append_dots (k : Nat) : dropDot (t ++ dots k) = t ++ dots (k - 1) := by
  cases k with
  | zero =>
    rw [dots, List.replicate_zero, List.append_nil, dropDot, if_neg]
    intro hlast
    have hne : t ≠ [] := by
      rintro rfl
      cases hlast
    rw [List.getLast?_eq_some_getLast hne] at hlast
    refine List.rdropWhile_eq_self_iff.mp ht hne ?_
    rw [Option.some.inj hlast]
    rfl
  | succ k =>
    rw [dots, List.replicate_succ', ← List.append_assoc, dropDot, if_pos (by simp),
      List.dropLast_concat]
    rfl

include ht'

theorem append_dots_inj {j k : Nat} (h : t ++ dots j = t' ++ dots k) : t = t' ∧ j = k := by
  have htt : t = t' := by
    rw [← ht, ← ht', ← trimDots_append_dots t j, ← trimDots_append_dots t' k, h]
  subst htt
  refine ⟨rfl, ?_⟩
  have hlen := congrArg List.length h
  simpa [dots] using hlen

/-- Names that are the same but for one final dot. -/
theorem dropDot_eq_iff (j k : Nat) :
    dropDot (t ++ dots j) = dropDot (t' ++ dots k) ↔ t = t' ∧ j - 1 = k - 1 := by
  rw [dropDot_append_dots ht, dropDot_append_dots ht']
  refine ⟨append_dots_inj ht ht', ?_⟩
  rintro ⟨rfl, h⟩
  rw [h]

omit ht ht'

theorem trimDots_lower (s : List Char) : trimDots (lower s) = lower (trimDots s) := by
  have hdot : (fun c : Char => c == '.') ∘ Char.toLower = fun c => c == '.' := by
    funext c
    rw [Bool.eq_iff_iff]
    simpa using toLower_eq_iff (c := c) (x := '.') (by decide)
  simp only [trimDots, List.rdropWhile, lower, ← List.map_reverse, List.dropWhile_map, hdot]

/-! ### What a grant's text names -/

/-- The host, without its brackets. -/
def hostText (text : List Char) : List Char :=
  match rsplitOnce ':' text with
  | some (host, _) => (stripBrackets host).getD host
  | none => []

def portText (text : List Char) : List Char :=
  match rsplitOnce ':' text with
  | some (_, port) => port
  | none => []

/-- The port is `*` or `port`. -/
def NamesPort (text : List Char) (port : Int) : Prop :=
  portText text = ['*'] ∨ ∃ p : Nat, parseU16 (portText text) = some p ∧ (p : Int) = port

section Parser

variable (parseIp : List Char → Option Ip)

/-- The host is `name`: the same address, when `name` is the text of an address, else the same name
but for case and one final dot. -/
def NamesHost (text name : List Char) : Prop :=
  match parseIp name with
  | some ip => parseIp (hostText text) = some ip
  | none => parseIp (hostText text) = none ∧ dropDot (lower (hostText text)) = dropDot (lower name)

/-- The host is the address of these bytes. -/
def NamesAddr (text : List Char) (addr : List UInt8) : Prop :=
  ∃ ip, parseIp (hostText text) = some ip ∧ ip.bytes = addr

/-- What an accepted text is read as. -/
structure ReadAs (text : List Char) (g : ConnectGrant) : Prop where
  port : ∀ p : Nat, g.port.all (· == p) = true ↔ NamesPort text p
  host : (∃ ip, g.host = .ip ip ∧ parseIp (hostText text) = some ip) ∨
    (g.host = .name (lower (hostText text)) ∧ parseIp (hostText text) = none ∧
      isHostName (hostText text) = true)

variable {parseIp}

theorem parsePort_names {s : List Char} {port : Option Nat} (h : parsePort s = some port) (p : Nat) :
    port.all (· == p) = true ↔ s = ['*'] ∨ ∃ q : Nat, parseU16 s = some q ∧ (q : Int) = (p : Int) := by
  rw [parsePort] at h
  split at h
  · rename_i hs
    cases h
    simp [hs]
  · rename_i hs
    obtain ⟨q, hq, rfl⟩ := Option.map_eq_some_iff.mp h
    simp [hs, hq, Int.ofNat_inj]

theorem parseConnectGrant_readAs {text : List Char} {g : ConnectGrant}
    (h : parseConnectGrant parseIp text = .ok g) : ReadAs parseIp text g := by
  rw [parseConnectGrant] at h
  cases hsplit : rsplitOnce ':' text with
  | none =>
    rw [hsplit] at h
    cases h
  | some parts =>
    obtain ⟨host, port⟩ := parts
    rw [hsplit] at h
    dsimp only at h
    cases hport : parsePort port with
    | none =>
      rw [hport] at h
      cases h
    | some p =>
      rw [hport] at h
      dsimp only at h
      have hhost : hostText text = (stripBrackets host).getD host := by rw [hostText, hsplit]
      have htext : portText text = port := by rw [portText, hsplit]
      have hnames : ∀ q : Nat, p.all (· == q) = true ↔ NamesPort text q := by
        rw [← htext] at hport
        exact parsePort_names hport
      rw [← hhost] at h
      split at h
      · cases h
      cases hip : parseIp (hostText text) with
      | some ip =>
        rw [hip] at h
        cases h
        exact ⟨hnames, .inl ⟨ip, rfl, hip⟩⟩
      | none =>
        rw [hip] at h
        dsimp only at h
        split at h
        · cases h
        · rename_i hok
          cases h
          simp only [Bool.or_eq_true, not_or, Bool.not_eq_true', Bool.not_eq_false] at hok
          exact ⟨hnames, .inr ⟨rfl, hip, hok.2⟩⟩

theorem ReadAs.ip_iff {text : List Char} {g : ConnectGrant} (h : ReadAs parseIp text g) (ip : Ip) :
    g.host = .ip ip ↔ parseIp (hostText text) = some ip := by
  rcases h.host with ⟨ip', hg, hip⟩ | ⟨hg, hip, -⟩
  · simp [hg, hip]
  · simp [hg, hip]

theorem ReadAs.name_iff {text : List Char} {g : ConnectGrant} (h : ReadAs parseIp text g)
    (n : List Char) : g.host = .name n ↔
      parseIp (hostText text) = none ∧ isHostName (hostText text) = true ∧
        lower (hostText text) = n := by
  rcases h.host with ⟨ip', hg, hip⟩ | ⟨hg, hip, hok⟩
  · simp [hg, hip]
  · simp [hg, hip, hok]

/-- The grants of texts that are all accepted. -/
def Grants (parseIp : List Char → Option Ip) (texts : List (List Char))
    (grants : List ConnectGrant) : Prop :=
  List.Forall₂ (fun text g => parseConnectGrant parseIp text = .ok g) texts grants

variable {texts : List (List Char)} {grants : List ConnectGrant}

theorem Grants.granted_iff (h : Grants parseIp texts grants) (host : GrantHost) (p : Nat)
    {Q : List Char → Prop} (hQ : ∀ text g, ReadAs parseIp text g → (g.host = host ↔ Q text)) :
    granted grants host p = true ↔ ∃ text ∈ texts, NamesPort text p ∧ Q text := by
  induction h with
  | nil => simp [granted]
  | @cons text g texts grants hparse _ ih =>
    have hread := parseConnectGrant_readAs hparse
    rw [granted, List.any_cons, Bool.or_eq_true, ← granted, ih, Bool.and_eq_true, decide_eq_true_iff,
      hQ text g hread, hread.port p]
    simp [and_comm]

/-! ### Addresses -/

theorem addressOf_eq_some {addr : List UInt8} {ip : Ip} : addressOf addr = some ip ↔ ip.bytes = addr := by
  rw [addressOf]
  constructor
  · intro h
    split at h
    · cases h
      rfl
    · split at h
      · cases h
        rfl
      · cases h
  · rintro rfl
    cases ip with
    | v4 o => rw [dif_pos (by simp [Ip.bytes])]; rfl
    | v6 o => rw [dif_neg (by simp [Ip.bytes]), dif_pos (by simp [Ip.bytes])]; rfl

theorem portOf_eq_some {port : Int} {p : Nat} (h : portOf port = some p) : (p : Int) = port := by
  rw [portOf] at h
  split at h
  · injection h with h
    omega
  · cases h

theorem portOf_natCast {port : Int} {p : Nat} (h : portOf port = some p) : portOf p = some p := by
  rw [portOf_eq_some h, h]

theorem not_portOf {port : Int} (h : portOf port = none) : ¬ (0 ≤ port ∧ port ≤ 65535) := by
  intro hrange
  rw [portOf, if_pos hrange] at h
  cases h

theorem parseU16_le {s : List Char} {p : Nat} (h : parseU16 s = some p) : p ≤ 65535 := by
  simp only [parseU16, Option.ite_none_left_eq_some, Option.ite_none_right_eq_some] at h
  obtain ⟨-, hle, hp⟩ := h
  injection hp with hp
  exact hp ▸ hle

/-- A grant's port is a port. -/
theorem namesPort_of_none {text : List Char} {port : Int} (h : portOf port = none) :
    NamesPort text port ↔ portText text = ['*'] := by
  refine ⟨fun hnames => hnames.resolve_right ?_, .inl⟩
  rintro ⟨p, hp, rfl⟩
  have hle := parseU16_le hp
  exact not_portOf h (by omega)

variable (hg : Grants parseIp texts grants)
include hg

theorem connect_attempt_iff {addr : List UInt8} {port : Int} {p : Nat} (hp : portOf port = some p) :
    connect grants addr port = .attempt ↔
      ∃ text ∈ texts, NamesPort text port ∧ NamesAddr parseIp text addr := by
  rw [connect, hp]
  cases haddr : addressOf addr with
  | none =>
    refine iff_of_false (by simp) ?_
    rintro ⟨text, -, -, ip, -, hip⟩
    rw [addressOf_eq_some.mpr hip] at haddr
    cases haddr
  | some ip =>
    dsimp only
    have hnames : ∀ text, NamesAddr parseIp text addr ↔ parseIp (hostText text) = some ip := by
      intro text
      constructor
      · rintro ⟨ip', htext, hip'⟩
        rw [addressOf_eq_some.mpr hip'] at haddr
        rw [htext, haddr]
      · exact fun htext => ⟨ip, htext, addressOf_eq_some.mp haddr⟩
    have hgranted := hg.granted_iff (.ip ip) p fun text g hread => hread.ip_iff ip
    rw [portOf_eq_some hp] at hgranted
    simp only [hnames, ← hgranted]
    split <;> simp_all

/-! ### Requests by name -/

/-- Some grant for this port is spelled `s`, but for case. -/
def Spelled (parseIp : List Char → Option Ip) (texts : List (List Char)) (port : Int)
    (s : List Char) : Prop :=
  ∃ text ∈ texts, NamesPort text port ∧ parseIp (hostText text) = none ∧
    isHostName (hostText text) = true ∧ lower (hostText text) = s

omit hg in
/-- What a grant is spelled as keeps the rules of a host name. -/
theorem Spelled.labelsOk {port : Int} {s : List Char} (h : Spelled parseIp texts port s)
    (hs : trimDots s = s) : labelsOk s = true := by
  obtain ⟨text, -, -, -, hhost, rfl⟩ := h
  rw [trimDots_lower] at hs
  rw [isHostName, Bool.and_eq_true] at hhost
  rw [← hs]
  exact labelsOk_lower hhost.2

/-- The names the grant check lets through are those spelled, without their final dots, as a grant is,
and not too long with them. -/
theorem granted_name_iff {name : List Char} {port : Int} {p : Nat} (hp : portOf port = some p) :
    (isHostName name = true ∧ granted grants (.name (trimDots name)) p = true) ↔
      Spelled parseIp texts port (trimDots name) ∧ byteLen name ≤ 253 := by
  rw [hg.granted_iff _ p fun text g hread => hread.name_iff (trimDots name), portOf_eq_some hp]
  change _ ∧ Spelled parseIp texts port (trimDots name) ↔ _
  rw [and_comm]
  refine and_congr_right fun hspelled => ?_
  have hlabels := hspelled.labelsOk (trimDots_trimDots name)
  have hne : name.isEmpty = false := by
    cases name with
    | nil =>
      have hempty : Net.labelsOk (trimDots []) = false := rfl
      rw [hempty] at hlabels
      cases hlabels
    | cons => rfl
  simp [isHostName, hne, hlabels]

/-- The request is refused for its port only if no grant names its host for every port; and otherwise
its name is an address, or a name that the grants spell as `connect_host` compares it: with one final
dot at most, it is short enough where a grant spells it without, and one does where one spells it
with; with more, a grant spells it so exactly when one spells it without and it is short enough. -/
def RequestOk (parseIp : List Char → Option Ip) (texts : List (List Char)) (name : List Char)
    (port : Int) : Prop :=
  let sent := lower name
  let plain := trimDots sent
  if portOf port = none then ¬ ∃ text ∈ texts, portText text = ['*'] ∧ NamesHost parseIp text name
  else if parseIp name ≠ none then True
  else if sent.length ≤ plain.length + 1 then
    (Spelled parseIp texts port plain → byteLen sent ≤ 253) ∧
      (Spelled parseIp texts port (plain ++ dots 1) → Spelled parseIp texts port plain)
  else Spelled parseIp texts port plain ∧ byteLen sent ≤ 253 ↔ Spelled parseIp texts port sent

/-- As for a request by name, the port. -/
def AddrOk (parseIp : List Char → Option Ip) (texts : List (List Char)) (addr : List UInt8)
    (port : Int) : Prop :=
  portOf port = none → ¬ ∃ text ∈ texts, portText text = ['*'] ∧ NamesAddr parseIp text addr

/-- The grants that name a name, by how they are spelled. -/
theorem exists_names_iff {name : List Char} {port : Int} (hname : parseIp name = none) :
    (∃ text ∈ texts, NamesPort text port ∧ NamesHost parseIp text name) ↔
      ∃ s, Spelled parseIp texts port s ∧ dropDot s = dropDot (lower name) := by
  have hhost : ∀ text ∈ texts, parseIp (hostText text) = none → isHostName (hostText text) = true := by
    intro text htext hip
    induction hg with
    | nil => cases htext
    | cons hparse _ ih =>
      rcases List.mem_cons.mp htext with rfl | htext
      · rcases (parseConnectGrant_readAs hparse).host with ⟨ip, -, hip'⟩ | ⟨-, -, hok⟩
        · rw [hip] at hip'
          cases hip'
        · exact hok
      · exact ih htext
  simp only [NamesHost, hname]
  constructor
  · rintro ⟨text, htext, hport, hip, hdrop⟩
    exact ⟨_, ⟨text, htext, hport, hip, hhost text htext hip, rfl⟩, hdrop⟩
  · rintro ⟨s, ⟨text, htext, hport, hip, -, rfl⟩, hdrop⟩
    exact ⟨text, htext, hport, hip, hdrop⟩

omit hg in
theorem exists_spelled_iff {port : Int} {name : List Char} :
    (∃ s, Spelled parseIp texts port s ∧ dropDot s = dropDot name) ↔
      if name.length ≤ (trimDots name).length + 1 then
        Spelled parseIp texts port (trimDots name) ∨
          Spelled parseIp texts port (trimDots name ++ dots 1)
      else Spelled parseIp texts port name := by
  obtain ⟨k, hk⟩ := exists_dots name
  have hlen : name.length = (trimDots name).length + k := by
    have := congrArg List.length hk
    simpa [dots] using this
  have hplain := trimDots_trimDots name
  have hzero : trimDots name = trimDots name ++ dots 0 := by
    rw [dots, List.replicate_zero, List.append_nil]
  -- every text is a text without final dots, and dots
  have hsame : (∃ s, Spelled parseIp texts port s ∧ dropDot s = dropDot name) ↔
      ∃ j, Spelled parseIp texts port (trimDots name ++ dots j) ∧ j - 1 = k - 1 := by
    constructor
    · rintro ⟨s, hs, hdrop⟩
      obtain ⟨j, hj⟩ := exists_dots s
      rw [hj, hk, dropDot_eq_iff (trimDots_trimDots s) hplain] at hdrop
      refine ⟨j, ?_, hdrop.2⟩
      rwa [← hdrop.1, ← hj]
    · rintro ⟨j, hs, hjk⟩
      refine ⟨_, hs, ?_⟩
      have hdrop := (dropDot_eq_iff hplain hplain j k).mpr ⟨rfl, hjk⟩
      rwa [← hk] at hdrop
  rw [hsame, hlen]
  split
  · constructor
    · rintro ⟨j, hs, hjk⟩
      obtain rfl | rfl : j = 0 ∨ j = 1 := by omega
      · exact .inl (hzero ▸ hs)
      · exact .inr hs
    · rintro (hs | hs)
      · exact ⟨0, hzero ▸ hs, by omega⟩
      · exact ⟨1, hs, by omega⟩
  · constructor
    · rintro ⟨j, hs, hjk⟩
      obtain rfl : j = k := by omega
      rwa [hk]
    · intro hs
      exact ⟨k, hk ▸ hs, rfl⟩

theorem connectHost_ip_iff (hlower : ∀ s, parseIp (lower s) = parseIp s) {name : List Char}
    {port : Int} {p : Nat} (hp : portOf port = some p) {ip : Ip} (hname : parseIp name = some ip) :
    connectHost parseIp grants (some name) port = .attempt ↔
      ∃ text ∈ texts, NamesPort text port ∧ NamesHost parseIp text name := by
  have haddr : connect grants ip.bytes p = .attempt ↔ granted grants (.ip ip) p = true := by
    rw [connect, portOf_natCast hp, addressOf_eq_some.mpr rfl]
    dsimp only
    split <;> simp_all
  have hgranted := hg.granted_iff (.ip ip) p fun text g hread => hread.ip_iff ip
  rw [portOf_eq_some hp] at hgranted
  simp only [NamesHost, hname, ← hgranted]
  simp only [connectHost, hp, hlower, hname]
  split
  · exact haddr
  · rename_i hnot
    exact iff_of_false (by simp) hnot

theorem connectHost_name_iff (hlower : ∀ s, parseIp (lower s) = parseIp s) {name : List Char}
    {port : Int} {p : Nat} (hp : portOf port = some p) (hname : parseIp name = none) :
    connectHost parseIp grants (some name) port = .attempt ↔
      Spelled parseIp texts port (trimDots (lower name)) ∧ byteLen (lower name) ≤ 253 := by
  rw [← granted_name_iff hg hp]
  simp only [connectHost, hp, hlower, hname]
  cases isHostName (lower name) with
  | false => simp
  | true => cases granted grants (.name (trimDots (lower name))) p <;> simp

/-- **Which requests the grants are right for.**  For grants that are all accepted, whatever the
parser of addresses as long as it ignores case: a request by name gets past the grant check exactly
when a grant names its host and port, for the requests that are `RequestOk` and no others; and so does
a request by address, for those that are `AddrOk`. -/
theorem connect_exact (hlower : ∀ s, parseIp (lower s) = parseIp s) :
    (∀ name port, (connectHost parseIp grants (some name) port = .attempt ↔
        ∃ text ∈ texts, NamesPort text port ∧ NamesHost parseIp text name) ↔
      RequestOk parseIp texts name port) ∧
    ∀ addr port, (connect grants addr port = .attempt ↔
        ∃ text ∈ texts, NamesPort text port ∧ NamesAddr parseIp text addr) ↔
      AddrOk parseIp texts addr port := by
  constructor
  · intro name port
    rw [RequestOk]
    cases hp : portOf port with
    | none =>
      have hrefused : connectHost parseIp grants (some name) port ≠ .attempt := by
        simp [connectHost, hp]
      simp only [hrefused, namesPort_of_none hp, false_iff]
      rfl
    | some p =>
      rw [if_neg (by simp)]
      cases hname : parseIp name with
      | some ip => exact iff_of_true (connectHost_ip_iff hg hlower hp hname) (by simp)
      | none =>
        rw [connectHost_name_iff hg hlower hp hname, exists_names_iff hg hname, exists_spelled_iff,
          if_neg (not_not.mpr rfl)]
        split
        · tauto
        · exact Iff.rfl
  · intro addr port
    rw [AddrOk]
    cases hp : portOf port with
    | none =>
      have hrefused : connect grants addr port ≠ .attempt := by simp [connect, hp]
      simp only [hrefused, namesPort_of_none hp, false_iff, true_implies]
    | some p => exact iff_of_true (connect_attempt_iff hg hp) (by simp)

omit hg

/-- A parser for texts none of which is an address. -/
def noAddress (_ : List Char) : Option Ip := none

/-- The grant `example.com:443` is right for the request `Example.COM.`, port 443. -/
theorem connect_exact_example :
    connectHost noAddress [⟨.name "example.com".toList, some 443⟩] (some "Example.COM.".toList) 443 =
        .attempt ↔
      ∃ text ∈ ["example.com:443".toList], NamesPort text 443 ∧
        NamesHost noAddress text "Example.COM.".toList := by
  have hg : Grants noAddress ["example.com:443".toList] [⟨.name "example.com".toList, some 443⟩] :=
    .cons (by rfl) .nil
  refine ((connect_exact hg fun _ => rfl).1 _ _).mpr ?_
  have hspelled : Spelled noAddress ["example.com:443".toList] 443 "example.com".toList :=
    ⟨_, List.mem_singleton_self _, .inr ⟨443, by decide, rfl⟩, rfl, by decide, by decide⟩
  rw [RequestOk, if_neg (by decide), if_neg (by simp [noAddress]), if_pos (by decide)]
  exact ⟨fun _ => by decide, fun _ => hspelled⟩

/-- The grant `example.com.:443` is accepted, and refuses the host it names, spelled as it is or
without its final dot. -/
theorem connect_final_dot :
    Grants noAddress ["example.com.:443".toList] [⟨.name "example.com.".toList, some 443⟩] ∧
      ∀ name ∈ ["example.com.".toList, "example.com".toList],
        (∃ text ∈ ["example.com.:443".toList], NamesPort text 443 ∧ NamesHost noAddress text name) ∧
        connectHost noAddress [⟨.name "example.com.".toList, some 443⟩] (some name) 443 =
          .notGranted := by
  refine ⟨.cons (by rfl) .nil, fun name hname => ⟨⟨_, List.mem_singleton_self _, ?_, ?_⟩, ?_⟩⟩
  · exact .inr ⟨443, by decide, rfl⟩
  · simp only [List.mem_cons, List.not_mem_nil, or_false] at hname
    rcases hname with rfl | rfl
    · exact ⟨rfl, by decide⟩
    · exact ⟨rfl, by decide⟩
  · simp only [List.mem_cons, List.not_mem_nil, or_false] at hname
    rcases hname with rfl | rfl
    · decide
    · decide

end Parser

end Aipl.Net
