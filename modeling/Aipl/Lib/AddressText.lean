import Aipl.Lib.Numeral

/-! # Library — the texts of internet addresses

IPv4 addresses are four decimal numbers with dots between them and no leading zeros.  IPv6 addresses are eight groups of
up to four hex digits with colons between them, where `::` stands for groups of zeros and an IPv4 address for the last
two.  Nothing here names a program.

* `V4`, `V6`, `Address`, `Endpoint` — the grammar, with what a text means.
* `readNumeral`, `readV4`, `readGroups`, `readV6` — readers, which take as much as they can.
* `readNumeral_iff`, `readV4_iff`, `readGroups_complete`, `readV6_iff` — what each of them reads.
* `readAddress_iff`, `readEndpoint_iff` — whole texts; so none has two readings.
-/

namespace Aipl.Lib.AddressText

abbrev Byte := BitVec 8

abbrev Text := List Byte

/-! ### Numerals -/

/-- The digit that a character is. -/
def digitOf (radix : Nat) (c : Byte) : Option Nat :=
  if 48 ≤ c.toNat ∧ c.toNat ≤ 57 then some (c.toNat - 48)
  else if radix ≠ 16 then none
  else if 97 ≤ c.toNat ∧ c.toNat ≤ 102 then some (c.toNat - 87)
  else if 65 ≤ c.toNat ∧ c.toNat ≤ 70 then some (c.toNat - 55)
  else none

def isDigit (radix : Nat) (c : Byte) : Bool := (digitOf radix c).isSome

def valueOf (radix : Nat) (l : Text) : Nat := Numeral.number radix (l.map fun c => (digitOf radix c).getD 0)

/-- What a number may look like: its radix, how many digits it may have (0 for any), how large it may be, and whether
zeros may lead. -/
structure Form where
  radix : Nat
  digits : Nat
  most : Nat
  zeros : Bool

def octet : Form := ⟨10, 3, 255, false⟩

def group : Form := ⟨16, 4, 65535, true⟩

def portNumber : Form := ⟨10, 0, 65535, true⟩

/-- The texts of numbers of a form. -/
structure Written (f : Form) (l : Text) : Prop where
  ne : l ≠ []
  all : ∀ c ∈ l, isDigit f.radix c = true
  digits : f.digits = 0 ∨ l.length ≤ f.digits
  most : valueOf f.radix l ≤ f.most
  zeros : f.zeros = true ∨ l.length = 1 ∨ l.head? ≠ some 48#8

instance (f : Form) (l : Text) : Decidable (Written f l) :=
  decidable_of_iff (l ≠ [] ∧ (∀ c ∈ l, isDigit f.radix c = true) ∧ (f.digits = 0 ∨ l.length ≤ f.digits) ∧
      valueOf f.radix l ≤ f.most ∧ (f.zeros = true ∨ l.length = 1 ∨ l.head? ≠ some 48#8))
    ⟨fun ⟨h₁, h₂, h₃, h₄, h₅⟩ => ⟨h₁, h₂, h₃, h₄, h₅⟩, fun ⟨h₁, h₂, h₃, h₄, h₅⟩ => ⟨h₁, h₂, h₃, h₄, h₅⟩⟩

/-! ### Addresses -/

/-- Numbers, each behind a dot. -/
inductive Octets : Text → List Nat → Prop
  | nil : Octets [] []
  | cons {a l : Text} {vs : List Nat} (h : Written octet a) (hs : Octets l vs) :
      Octets (46#8 :: (a ++ l)) (valueOf 10 a :: vs)

/-- An IPv4 address and its bytes. -/
inductive V4 : Text → List Nat → Prop
  | mk {a l : Text} {vs : List Nat} (h : Written octet a) (hs : Octets l vs) (hlen : vs.length = 3) :
      V4 (a ++ l) (valueOf 10 a :: vs)

/-- Two bytes make a group. -/
def pairs : List Nat → List Nat
  | a :: b :: l => (a * 256 + b) :: pairs l
  | _ => []

/-- Groups with colons between them; where it says so, the last two are an IPv4 address. -/
inductive Groups : Bool → Text → List Nat → Prop
  | one {a : Text} (h : Written group a) : Groups false a [valueOf 16 a]
  | v4 {t : Text} {bs : List Nat} (h : V4 t bs) : Groups true t (pairs bs)
  | cons {m : Bool} {a l : Text} {gs : List Nat} (h : Written group a) (hs : Groups m l gs) :
      Groups m (a ++ 58#8 :: l) (valueOf 16 a :: gs)

/-- Groups, or none. -/
inductive Part : Bool → Text → List Nat → Prop
  | none : Part false [] []
  | some {m : Bool} {t : Text} {gs : List Nat} (h : Groups m t gs) : Part m t gs

/-- An IPv6 address and its groups: eight of them, or fewer and a gap for at least one. -/
inductive V6 : Text → List Nat → Prop
  | full {m : Bool} {t : Text} {gs : List Nat} (h : Groups m t gs) (hlen : gs.length = 8) : V6 t gs
  | gap {m : Bool} {h l : Text} {hs ls : List Nat} (hh : Part false h hs) (hl : Part m l ls)
      (hlen : hs.length + ls.length ≤ 7) :
      V6 (h ++ 58#8 :: 58#8 :: l) (hs ++ (List.replicate (8 - (hs.length + ls.length)) 0 ++ ls))

/-- The bytes of groups, in network order. -/
def bytesOf (gs : List Nat) : List Nat := gs.flatMap fun g => [g / 256, g % 256]

/-- What the text of an address means: four bytes, or eight groups. -/
inductive Meaning where
  | v4 (bs : List Nat)
  | v6 (gs : List Nat)
deriving DecidableEq

/-- The bytes of an address, in network order. -/
def Meaning.bytes : Meaning → List Nat
  | .v4 bs => bs
  | .v6 gs => bytesOf gs

inductive Address : Text → Meaning → Prop
  | v4 {t : Text} {bs : List Nat} (h : V4 t bs) : Address t (.v4 bs)
  | v6 {t : Text} {gs : List Nat} (h : V6 t gs) : Address t (.v6 gs)

/-- An address with a port; IPv6 addresses are in brackets. -/
inductive Endpoint : Text → Meaning → Nat → Prop
  | v4 {t p : Text} {bs : List Nat} (h : V4 t bs) (hp : Written portNumber p) :
      Endpoint (t ++ 58#8 :: p) (.v4 bs) (valueOf 10 p)
  | v6 {t p : Text} {gs : List Nat} (h : V6 t gs) (hp : Written portNumber p) :
      Endpoint (91#8 :: (t ++ 93#8 :: 58#8 :: p)) (.v6 gs) (valueOf 10 p)

/-! ### Bytes and groups of an address -/

section Sizes

variable {l : Text} {bs : List Nat}

theorem V4.byte_lt {bs : List Nat} (h : V4 l bs) : ∀ b ∈ bs, b < 256 := by
  have hocts : ∀ {l vs}, Octets l vs → ∀ b ∈ vs, b < 256 := by
    intro l vs h
    induction h with
    | nil => simp
    | cons hw _ ih =>
      intro b hb
      rcases List.mem_cons.mp hb with rfl | hb
      · exact Nat.lt_succ_of_le hw.most
      · exact ih b hb
  obtain ⟨hw, hs, -⟩ := h
  intro b hb
  rcases List.mem_cons.mp hb with rfl | hb
  · exact Nat.lt_succ_of_le hw.most
  · exact hocts hs b hb

theorem V4.length_eq {bs : List Nat} (h : V4 l bs) : bs.length = 4 := by
  obtain ⟨-, -, hlen⟩ := h
  simp [hlen]

/-- The bits of an IPv4 address are those of its two groups. -/
theorem V4.number_pairs {bs : List Nat} (h : V4 l bs) :
    Numeral.number 65536 (pairs bs) = Numeral.number 256 bs ∧ ∀ g ∈ pairs bs, g < 65536 := by
  have hlt := h.byte_lt
  match bs, h.length_eq with
  | [a, b, c, d], _ =>
    simp only [List.mem_cons, List.not_mem_nil, or_false, forall_eq_or_imp, forall_eq] at hlt
    simp only [pairs, Numeral.number, List.foldl_cons, List.foldl_nil, List.mem_cons, List.not_mem_nil, or_false,
      forall_eq_or_imp, forall_eq]
    omega

theorem V4.length_pairs (h : V4 l bs) : (pairs bs).length = 2 := by
  match bs, h.length_eq with
  | [_, _, _, _], _ => rfl

theorem Groups.group_lt {m : Bool} {gs : List Nat} (h : Groups m l gs) : ∀ g ∈ gs, g < 65536 := by
  induction h with
  | one hw =>
    intro g hg
    rw [List.mem_singleton.mp hg]
    exact Nat.lt_succ_of_le hw.most
  | v4 h => exact h.number_pairs.2
  | cons hw _ ih =>
    intro g hg
    rcases List.mem_cons.mp hg with rfl | hg
    · exact Nat.lt_succ_of_le hw.most
    · exact ih g hg

theorem Part.group_lt {m : Bool} {gs : List Nat} (h : Part m l gs) : ∀ g ∈ gs, g < 65536 := by
  cases h with
  | none => simp
  | some h => exact h.group_lt

theorem V6.length_eq {gs : List Nat} (h : V6 l gs) : gs.length = 8 := by
  cases h with
  | full _ hlen => exact hlen
  | gap _ _ hlen =>
    simp only [List.length_append, List.length_replicate]
    omega

theorem V6.group_lt {gs : List Nat} (h : V6 l gs) : ∀ g ∈ gs, g < 65536 := by
  cases h with
  | full h => exact h.group_lt
  | gap hh hl =>
    intro g hg
    rcases List.mem_append.mp hg with hg | hg
    · exact hh.group_lt g hg
    · rcases List.mem_append.mp hg with hg | hg
      · rw [List.eq_of_mem_replicate hg]
        decide
      · exact hl.group_lt g hg

theorem length_bytesOf (gs : List Nat) : (bytesOf gs).length = 2 * gs.length := by
  induction gs with
  | nil => rfl
  | cons g gs ih =>
    simp only [bytesOf, List.flatMap_cons, List.length_append, List.length_cons, List.length_nil] at ih ⊢
    omega

theorem bytesOf_lt {gs : List Nat} (h : ∀ g ∈ gs, g < 65536) : ∀ b ∈ bytesOf gs, b < 256 := by
  intro b hb
  obtain ⟨g, hg, hb⟩ := List.mem_flatMap.mp hb
  have hlt := h g hg
  simp only [List.mem_cons, List.not_mem_nil, or_false] at hb
  rcases hb with rfl | rfl <;> omega

/-- Groups are the number of their bytes. -/
theorem number_bytesOf (gs : List Nat) : Numeral.number 256 (bytesOf gs) = Numeral.number 65536 gs := by
  induction gs with
  | nil => rfl
  | cons g gs ih =>
    have hpow : (65536 : Nat) ^ gs.length = 256 ^ (2 * gs.length) := by rw [Nat.pow_mul]
    have hbytes : bytesOf (g :: gs) = [g / 256, g % 256] ++ bytesOf gs := rfl
    have htwo : Numeral.number 256 [g / 256, g % 256] = g := by
      simp only [Numeral.number, List.foldl_cons, List.foldl_nil]
      omega
    rw [hbytes, Numeral.number_append, htwo, length_bytesOf, ih, Numeral.number_cons, hpow]

end Sizes

/-! ### Readers -/

/-- The digits at the front, all of them. -/
def readNumeral (f : Form) (l : Text) : Option (Nat × Text) :=
  if Written f (l.takeWhile (isDigit f.radix)) then
    some (valueOf f.radix (l.takeWhile (isDigit f.radix)), l.dropWhile (isDigit f.radix))
  else none

def readOctets : Nat → Text → Option (List Nat × Text)
  | 0, l => some ([], l)
  | _ + 1, [] => none
  | k + 1, c :: l =>
    if c = 46#8 then
      (readNumeral octet l).bind fun r => (readOctets k r.2).map fun s => (r.1 :: s.1, s.2)
    else none

def readV4 (l : Text) : Option (List Nat × Text) :=
  (readNumeral octet l).bind fun r => (readOctets 3 r.2).map fun s => (r.1 :: s.1, s.2)

/-- What is behind the colon in front of a group; the first has none. -/
def separated : Bool → Text → Option Text
  | true, l => some l
  | false, [] => none
  | false, c :: l => if c = 58#8 then some l else none

/-- Groups, at most so many, and whether the last two are an IPv4 address. -/
def readGroups : Nat → Bool → Text → List Nat × Bool × Text
  | 0, _, l => ([], false, l)
  | k + 1, first, l =>
    match separated first l with
    | none => ([], false, l)
    | some l' =>
      match if 0 < k then readV4 l' else none with
      | some r => (pairs r.1, true, r.2)
      | none =>
        match readNumeral group l' with
        | none => ([], false, l)
        | some r => (r.1 :: (readGroups k false r.2).1, (readGroups k false r.2).2)

/-- What is behind a gap. -/
def afterGap : Text → Option Text
  | c :: d :: l => if c = 58#8 ∧ d = 58#8 then some l else none
  | _ => none

def readV6 (l : Text) : Option (List Nat × Text) :=
  let (hs, m, r) := readGroups 8 true l
  if hs.length = 8 then some (hs, r)
  else if m then none
  else (afterGap r).map fun l =>
    let (ls, _, r) := readGroups (7 - hs.length) true l
    (hs ++ (List.replicate (8 - (hs.length + ls.length)) 0 ++ ls), r)

/-- A reading that takes the whole text. -/
def whole {α : Type} : Option (α × Text) → Option α
  | some (a, []) => some a
  | _ => none

def readAddress (l : Text) : Option Meaning :=
  match readV4 l with
  | some r => (whole (some r)).map .v4
  | none => (whole (readV6 l)).map .v6

def readPort : Text → Option (Nat × Text)
  | c :: l => if c = 58#8 then readNumeral portNumber l else none
  | [] => none

/-- The bracket and the port behind an IPv6 address. -/
def readClose (gs : List Nat) : Text → Option (Meaning × Nat)
  | c :: l => if c = 93#8 then (whole (readPort l)).map fun p => (.v6 gs, p) else none
  | [] => none

def readBracketed : Text → Option (Meaning × Nat)
  | c :: l => if c = 91#8 then (readV6 l).bind fun r => readClose r.1 r.2 else none
  | [] => none

def readEndpoint (l : Text) : Option (Meaning × Nat) :=
  match (readV4 l).bind fun r => (readPort r.2).map fun p => (r.1, p) with
  | some r => (whole (some r.2)).map fun p => (.v4 r.1, p)
  | none => readBracketed l

/-! ### What numerals are read -/

variable {f : Form} {l t a rest : Text} {v k : Nat} {vs bs gs : List Nat} {m first : Bool}

/-- A text that does not go on with a digit. -/
def Stops (radix : Nat) (rest : Text) : Prop := ∀ c ∈ rest.head?, isDigit radix c = false

theorem takeWhile_run {p : Byte → Bool} (ha : ∀ c ∈ a, p c = true) (hr : ∀ c ∈ rest.head?, p c = false) :
    (a ++ rest).takeWhile p = a ∧ (a ++ rest).dropWhile p = rest := by
  induction a with
  | nil =>
    cases rest with
    | nil => simp
    | cons c rest => simp [hr c (by simp)]
  | cons c a ih =>
    have hc := ha c (by simp)
    simp [hc, ih fun x hx => ha x (by simp [hx])]

theorem stops_dropWhile {radix : Nat} : Stops radix (l.dropWhile (isDigit radix)) := by
  induction l with
  | nil => simp [Stops]
  | cons c l ih =>
    by_cases hc : isDigit radix c = true
    · simpa [List.dropWhile_cons, hc] using ih
    · simp [hc, Stops]

/-- **Numerals**: the digits at the front, all of them. -/
theorem readNumeral_iff : readNumeral f l = some (v, rest) ↔
    ∃ a, l = a ++ rest ∧ Written f a ∧ v = valueOf f.radix a ∧ Stops f.radix rest := by
  constructor
  · intro h
    rw [readNumeral] at h
    split at h
    · next hw =>
      simp only [Option.some.injEq, Prod.mk.injEq] at h
      obtain ⟨rfl, rfl⟩ := h
      exact ⟨_, (List.takeWhile_append_dropWhile).symm, hw, rfl, stops_dropWhile⟩
    · simp at h
  · rintro ⟨a, rfl, hw, rfl, hr⟩
    obtain ⟨htake, hdrop⟩ := takeWhile_run hw.all hr
    rw [readNumeral, htake, hdrop, if_pos hw]

theorem readNumeral_append (hw : Written f a) (hr : Stops f.radix rest) :
    readNumeral f (a ++ rest) = some (valueOf f.radix a, rest) := readNumeral_iff.mpr ⟨a, rfl, hw, rfl, hr⟩

theorem stops_nil {radix : Nat} : Stops radix [] := by simp [Stops]

theorem stops_cons {radix : Nat} {c : Byte} (h : isDigit radix c = false) : Stops radix (c :: l) := by
  simpa [Stops] using h

theorem readNumeral_none (hr : Stops f.radix l) : readNumeral f l = none := by
  obtain ⟨htake, -⟩ := takeWhile_run (a := []) (p := isDigit f.radix) (by simp) hr
  rw [List.nil_append] at htake
  rw [readNumeral, htake, if_neg fun hw => hw.ne rfl]

/-! ### What IPv4 addresses are read -/

theorem Octets.stops (h : Octets l vs) (hr : Stops 10 rest) : Stops 10 (l ++ rest) := by
  cases h with
  | nil => exact hr
  | cons => exact stops_cons (by decide)

theorem readOctets_sound : readOctets k l = some (vs, rest) →
    ∃ t, l = t ++ rest ∧ Octets t vs ∧ vs.length = k ∧ (0 < k → Stops 10 rest) := by
  induction k generalizing l vs with
  | zero =>
    intro h
    simp only [readOctets, Option.some.injEq, Prod.mk.injEq] at h
    obtain ⟨rfl, rfl⟩ := h
    exact ⟨[], rfl, .nil, rfl, fun h => absurd h (Nat.lt_irrefl 0)⟩
  | succ k ih =>
    intro h
    cases l with
    | nil => simp [readOctets] at h
    | cons c l =>
      rw [readOctets] at h
      split at h
      · next hc =>
        subst hc
        rw [Option.bind_eq_some_iff] at h
        obtain ⟨⟨v, r⟩, hv, h⟩ := h
        rw [Option.map_eq_some_iff] at h
        obtain ⟨⟨ws, r'⟩, hs, h⟩ := h
        simp only [Prod.mk.injEq] at h
        obtain ⟨rfl, rfl⟩ := h
        obtain ⟨a, rfl, hw, rfl, hstop⟩ := readNumeral_iff.mp hv
        obtain ⟨t, ht, hoct, hlen, hrest⟩ := ih hs
        dsimp only at ht
        subst ht
        refine ⟨46#8 :: (a ++ t), by simp, .cons hw hoct, by simp [hlen], fun _ => ?_⟩
        cases k with
        | zero =>
          cases hoct with
          | nil => exact hstop
          | cons => simp at hlen
        | succ k => exact hrest (Nat.succ_pos k)
      · simp at h

theorem readOctets_complete (h : Octets t vs) (hr : Stops 10 rest) :
    readOctets vs.length (t ++ rest) = some (vs, rest) := by
  induction h with
  | nil => rfl
  | @cons a l vs hw hs ih =>
    have hread : readNumeral octet (a ++ (l ++ rest)) = some (valueOf 10 a, l ++ rest) :=
      readNumeral_append hw (hs.stops hr)
    simp [readOctets, hread, ih]

/-- **IPv4 addresses**. -/
theorem readV4_iff : readV4 l = some (bs, rest) ↔ ∃ t, l = t ++ rest ∧ V4 t bs ∧ Stops 10 rest := by
  constructor
  · intro h
    rw [readV4, Option.bind_eq_some_iff] at h
    obtain ⟨⟨v, r⟩, hv, h⟩ := h
    rw [Option.map_eq_some_iff] at h
    obtain ⟨⟨ws, r'⟩, hs, h⟩ := h
    simp only [Prod.mk.injEq] at h
    obtain ⟨rfl, rfl⟩ := h
    obtain ⟨a, rfl, hw, rfl, -⟩ := readNumeral_iff.mp hv
    obtain ⟨t, ht, hoct, hlen, hrest⟩ := readOctets_sound hs
    dsimp only at ht
    subst ht
    exact ⟨a ++ t, by simp, .mk hw hoct hlen, hrest (by decide)⟩
  · rintro ⟨t, rfl, ⟨hw, hoct, hlen⟩, hr⟩
    rename_i a l vs
    have hread : readNumeral octet (a ++ (l ++ rest)) = some (valueOf 10 a, l ++ rest) :=
      readNumeral_append hw (hoct.stops hr)
    have hocts := readOctets_complete hoct hr
    rw [hlen] at hocts
    simp [readV4, hread, hocts]

/-- A text that does not go on with a hex digit or a dot. -/
def Cut (rest : Text) : Prop := ∀ c ∈ rest.head?, isDigit 16 c = false ∧ c ≠ 46#8

theorem isDigit_of_dec {c : Byte} (h : isDigit 10 c = true) : isDigit 16 c = true := by
  revert c
  decide

theorem Cut.stops (h : Cut rest) : Stops 16 rest := fun c hc => (h c hc).1

theorem Cut.stops_dec (h : Cut rest) : Stops 10 rest := fun c hc => by
  have hhex := (h c hc).1
  by_contra hdec
  rw [isDigit_of_dec (Bool.eq_true_of_not_eq_false hdec)] at hhex
  exact absurd hhex (by decide)

theorem cut_nil : Cut [] := by simp [Cut]

theorem cut_cons {c : Byte} (h : isDigit 16 c = false ∧ c ≠ 46#8) : Cut (c :: l) := by
  intro x hx
  obtain rfl : c = x := by simpa using hx
  exact h

theorem cut_colon : Cut (58#8 :: l) := cut_cons (by decide)

theorem cut_bracket : Cut (93#8 :: l) := cut_cons (by decide)

/-- Hex digits, with no dot behind them, are no IPv4 address. -/
theorem readV4_none (ha : ∀ c ∈ a, isDigit 16 c = true) (hr : Cut rest) : readV4 (a ++ rest) = none := by
  have hhead : ∀ c ∈ ((a ++ rest).dropWhile (isDigit 10)).head?, c ≠ 46#8 := by
    induction a with
    | nil =>
      obtain ⟨-, hdrop⟩ := takeWhile_run (a := []) (p := isDigit 10) (by simp) hr.stops_dec
      rw [hdrop]
      exact fun c hc => (hr c hc).2
    | cons c a ih =>
      by_cases hc : isDigit 10 c = true
      · simpa [List.dropWhile_cons, hc] using ih fun x hx => ha x (by simp [hx])
      · have hhex := ha c (by simp)
        intro x hx
        obtain rfl : c = x := by simpa [List.dropWhile_cons, hc] using hx
        rintro rfl
        exact absurd hhex (by decide)
  rw [readV4, readNumeral]
  split
  · cases hl : (a ++ rest).dropWhile (isDigit 10) with
    | nil => simp [octet, hl, readOctets]
    | cons c l =>
      have hne : c ≠ 46#8 := hhead c (by simp [hl])
      simp [octet, hl, readOctets, hne]
  · rfl

/-! ### What groups are read -/

/-- The colon in front of a group; the first has none. -/
def lead : Bool → Text
  | true => []
  | false => [58#8]

theorem separated_lead : separated first (lead first ++ l) = some l := by cases first <;> rfl

theorem separated_eq (h : separated first l = some t) : l = lead first ++ t := by
  cases first with
  | true => simpa [separated, lead] using h
  | false =>
    cases l with
    | nil => simp [separated] at h
    | cons c l =>
      rw [separated] at h
      split at h
      · next hc =>
        subst hc
        simpa [lead] using h
      · simp at h

section Steps

variable {l' : Text} {r : List Nat × Text}

theorem readGroups_stop (hsep : separated first l = none) : readGroups (k + 1) first l = ([], false, l) := by
  rw [readGroups, hsep]

theorem readGroups_v4 (hsep : separated first l = some l') (hv4 : (if 0 < k then readV4 l' else none) = some r) :
    readGroups (k + 1) first l = (pairs r.1, true, r.2) := by
  rw [readGroups, hsep]
  dsimp only
  rw [hv4]

theorem readGroups_none (hsep : separated first l = some l') (hv4 : (if 0 < k then readV4 l' else none) = none)
    (hnum : readNumeral group l' = none) : readGroups (k + 1) first l = ([], false, l) := by
  rw [readGroups, hsep]
  dsimp only
  rw [hv4, hnum]

theorem readGroups_group {s : Nat × Text} (hsep : separated first l = some l')
    (hv4 : (if 0 < k then readV4 l' else none) = none) (hnum : readNumeral group l' = some s) :
    readGroups (k + 1) first l = (s.1 :: (readGroups k false s.2).1, (readGroups k false s.2).2) := by
  rw [readGroups, hsep]
  dsimp only
  rw [hv4, hnum]

end Steps

/-- What is read is groups. -/
theorem readGroups_sound : readGroups k first l = (gs, m, rest) → gs.length ≤ k ∧
    ((gs = [] ∧ m = false ∧ l = rest) ∨ ∃ t, Groups m t gs ∧ l = lead first ++ (t ++ rest)) := by
  induction k generalizing first l gs m rest with
  | zero =>
    intro h
    cases h
    exact ⟨Nat.le_refl 0, .inl ⟨rfl, rfl, rfl⟩⟩
  | succ k ih =>
    intro h
    rw [readGroups] at h
    split at h
    · cases h
      exact ⟨Nat.zero_le _, .inl ⟨rfl, rfl, rfl⟩⟩
    · next l' hsep =>
      obtain rfl := separated_eq hsep
      split at h
      · next r hr =>
        cases h
        split at hr
        · next hk =>
          obtain ⟨t, rfl, hv4, -⟩ := readV4_iff.mp hr
          have hlen := hv4.length_pairs
          exact ⟨by omega, .inr ⟨t, .v4 hv4, rfl⟩⟩
        · cases hr
      · split at h
        · cases h
          exact ⟨Nat.zero_le _, .inl ⟨rfl, rfl, rfl⟩⟩
        · next r hr =>
          obtain ⟨a, rfl, hw, hv, -⟩ := readNumeral_iff.mp hr
          rcases hg : readGroups k false r.2 with ⟨gs', m', rest'⟩
          rw [hv, hg] at h
          cases h
          obtain ⟨hlen, hrest⟩ := ih hg
          refine ⟨by simpa using hlen, .inr ?_⟩
          rcases hrest with ⟨rfl, rfl, hr2⟩ | ⟨t, ht, hr2⟩
          · rw [hr2]
            exact ⟨a, .one hw, rfl⟩
          · refine ⟨a ++ 58#8 :: t, .cons hw ht, ?_⟩
            rw [hr2]
            simp [lead]

/-- Where groups end: at the end of the text, a gap or a bracket. -/
def Final (rest : Text) : Prop := rest = [] ∨ (∃ l, rest = 58#8 :: 58#8 :: l) ∨ ∃ l, rest = 93#8 :: l

theorem Final.cut (h : Final rest) : Cut rest := by
  rcases h with rfl | ⟨l, rfl⟩ | ⟨l, rfl⟩
  · exact cut_nil
  · exact cut_colon
  · exact cut_bracket

theorem readV4_cut (h : Cut rest) : readV4 rest = none := by
  simpa using readV4_none (a := []) (by simp) h

/-- No group at all. -/
theorem readGroups_cut (h : Cut rest) : readGroups k true rest = ([], false, rest) := by
  cases k with
  | zero => rfl
  | succ k =>
    have hnum : readNumeral group rest = none := readNumeral_none h.stops
    simp [readGroups, separated, readV4_cut h, hnum]

theorem readGroups_final (h : Final rest) : readGroups k false rest = ([], false, rest) := by
  cases k with
  | zero => rfl
  | succ k =>
    rcases h with rfl | ⟨l, rfl⟩ | ⟨l, rfl⟩
    · rfl
    · have hnum : readNumeral group (58#8 :: l) = none := readNumeral_none cut_colon.stops
      simp [readGroups, separated, readV4_cut cut_colon, hnum]
    · simp [readGroups, separated]

/-- A group that is read. -/
theorem readGroups_cons (hw : Written group a) (hcut : Cut l) : readGroups (k + 1) first (lead first ++ (a ++ l)) =
    (valueOf 16 a :: (readGroups k false l).1, (readGroups k false l).2) := by
  have hnum : readNumeral group (a ++ l) = some (valueOf 16 a, l) := readNumeral_append hw hcut.stops
  have hv4 : readV4 (a ++ l) = none := readV4_none hw.all hcut
  simp [readGroups, separated_lead, hnum, hv4]

/-- **Groups are read**, as many as there are. -/
theorem readGroups_complete (first : Bool) (h : Groups m t gs) (hlen : gs.length ≤ k) (hr : Final rest) :
    readGroups k first (lead first ++ (t ++ rest)) = (gs, m, rest) := by
  induction h generalizing k first with
  | one hw =>
    obtain ⟨k, rfl⟩ := Nat.exists_eq_add_of_le' hlen
    rw [List.length_singleton, readGroups_cons hw hr.cut, readGroups_final hr]
  | @v4 t bs hv4 =>
    rw [hv4.length_pairs] at hlen
    obtain ⟨k, rfl⟩ := Nat.exists_eq_add_of_le' hlen
    have hread : readV4 (t ++ rest) = some (bs, rest) := readV4_iff.mpr ⟨t, rfl, hv4, hr.cut.stops_dec⟩
    simp [readGroups, separated_lead, hread]
  | @cons m a l gs hw hs ih =>
    obtain ⟨k, rfl⟩ : ∃ k', k = k' + 1 := ⟨k - 1, by simp at hlen; omega⟩
    have hih := ih (k := k) false (by simpa using hlen)
    rw [List.append_assoc, List.cons_append, readGroups_cons hw cut_colon]
    simp only [lead, List.cons_append, List.nil_append] at hih
    rw [hih]

/-! ### What IPv6 addresses are read -/

theorem afterGap_eq (h : afterGap l = some t) : l = 58#8 :: 58#8 :: t := by
  match l with
  | [] => simp [afterGap] at h
  | [_] => simp [afterGap] at h
  | c :: d :: l =>
    rw [afterGap] at h
    split at h
    · next hc =>
      obtain ⟨rfl, rfl⟩ := hc
      cases h
      rfl
    · simp at h

theorem readGroups_part (h : readGroups k true l = (gs, m, rest)) : gs.length ≤ k ∧ ∃ t, Part m t gs ∧ l = t ++ rest := by
  obtain ⟨hlen, ⟨rfl, rfl, rfl⟩ | ⟨t, ht, rfl⟩⟩ := readGroups_sound h
  · exact ⟨hlen, [], .none, rfl⟩
  · exact ⟨hlen, t, .some ht, rfl⟩

theorem readGroups_of_part (h : Part m t gs) (hlen : gs.length ≤ k) (hr : Final rest) :
    readGroups k true (t ++ rest) = (gs, m, rest) := by
  cases h with
  | none => exact readGroups_cut hr.cut
  | some h => exact readGroups_complete true h hlen hr

theorem readV6_sound (h : readV6 l = some (gs, rest)) : ∃ t, l = t ++ rest ∧ V6 t gs := by
  rcases hg : readGroups 8 true l with ⟨hs, m, r⟩
  obtain ⟨hlen, t, ht, rfl⟩ := readGroups_part hg
  rw [readV6, hg] at h
  dsimp only at h
  split at h
  · next h8 =>
    cases h
    cases ht with
    | none => simp at h8
    | some ht => exact ⟨t, rfl, .full ht h8⟩
  · next h8 =>
    split at h
    · cases h
    · next hm =>
      rw [Option.map_eq_some_iff] at h
      obtain ⟨l', hgap, h⟩ := h
      rcases hg' : readGroups (7 - hs.length) true l' with ⟨ls, m', r'⟩
      obtain ⟨hlen', t', ht', rfl⟩ := readGroups_part hg'
      have hsum : hs.length + ls.length ≤ 7 := by omega
      rw [hg'] at h
      cases h
      rw [Bool.eq_false_of_not_eq_true hm] at ht
      refine ⟨t ++ 58#8 :: 58#8 :: t', ?_, .gap ht ht' hsum⟩
      rw [afterGap_eq hgap]
      simp

/-- **IPv6 addresses**, up to the end of the text or a bracket. -/
theorem readV6_iff (hr : rest = [] ∨ ∃ l, rest = 93#8 :: l) :
    readV6 l = some (gs, rest) ↔ ∃ t, l = t ++ rest ∧ V6 t gs := by
  have hfinal : Final rest := hr.imp id .inr
  refine ⟨readV6_sound, ?_⟩
  rintro ⟨t, rfl, ht⟩
  cases ht with
  | full h hlen =>
    have hread := readGroups_complete true h hlen.le hfinal
    simp only [lead, List.nil_append] at hread
    simp [readV6, hread, hlen]
  | @gap m h l hs ls hh hl hlen =>
    have hread := readGroups_of_part hh (k := 8) (by omega) (.inr (.inl ⟨l ++ rest, rfl⟩))
    have htail := readGroups_of_part hl (k := 7 - hs.length) (by omega) hfinal
    have hne : hs.length ≠ 8 := by omega
    simp [readV6, hread, hne, afterGap, htail]

/-- An IPv6 address does not start with an IPv4 address. -/
theorem V6.readV4_eq (h : V6 t gs) (rest : Text) : readV4 (t ++ rest) = none := by
  cases h with
  | full h hlen =>
    cases h with
    | one => simp at hlen
    | v4 h => simp [h.length_pairs] at hlen
    | cons hw =>
      rw [List.append_assoc]
      exact readV4_none hw.all cut_colon
  | gap hh =>
    rw [List.append_assoc]
    cases hh with
    | none => exact readV4_cut cut_colon
    | some h =>
      cases h with
      | one hw => exact readV4_none hw.all cut_colon
      | cons hw =>
        rw [List.append_assoc]
        exact readV4_none hw.all cut_colon

/-! ### Whole texts -/

theorem whole_iff {α : Type} {r : Option (α × Text)} {x : α} : whole r = some x ↔ r = some (x, []) := by
  cases r with
  | none => simp [whole]
  | some r =>
    obtain ⟨y, l⟩ := r
    cases l <;> simp [whole]

variable {x : Meaning}

/-- **Addresses are read exactly.** -/
theorem readAddress_iff : readAddress t = some x ↔ Address t x := by
  constructor
  · intro h
    rw [readAddress] at h
    split at h
    · next r hr =>
      rw [Option.map_eq_some_iff] at h
      obtain ⟨bs, hbs, rfl⟩ := h
      obtain rfl := Option.some.inj (whole_iff.mp hbs)
      obtain ⟨t', rfl, hv4, -⟩ := readV4_iff.mp hr
      rw [List.append_nil]
      exact .v4 hv4
    · rw [Option.map_eq_some_iff] at h
      obtain ⟨gs, hgs, rfl⟩ := h
      obtain ⟨t', rfl, hv6⟩ := readV6_sound (whole_iff.mp hgs)
      rw [List.append_nil]
      exact .v6 hv6
  · intro h
    cases h with
    | @v4 bs h =>
      have hread : readV4 t = some (bs, []) := readV4_iff.mpr ⟨t, (List.append_nil t).symm, h, stops_nil⟩
      simp [readAddress, hread, whole]
    | v6 h =>
      have hv4 := h.readV4_eq []
      have hv6 := (readV6_iff (.inl rfl)).mpr ⟨t, rfl, h⟩
      rw [List.append_nil] at hv4 hv6
      simp [readAddress, hv4, hv6, whole]

example : readAddress [0x3a#8, 0x3a#8, 0x31#8] = some (.v6 [0, 0, 0, 0, 0, 0, 0, 1]) := by decide

theorem readPort_iff : readPort l = some (v, rest) ↔
    ∃ p, l = 58#8 :: (p ++ rest) ∧ Written portNumber p ∧ v = valueOf 10 p ∧ Stops 10 rest := by
  cases l with
  | nil => simp [readPort]
  | cons c l =>
    rw [readPort]
    split
    · next hc =>
      subst hc
      rw [readNumeral_iff]
      simp [portNumber]
    · next hc => simp [hc]

theorem readClose_sound (h : readClose gs l = some (x, v)) :
    ∃ p, l = 93#8 :: 58#8 :: p ∧ Written portNumber p ∧ x = .v6 gs ∧ v = valueOf 10 p := by
  cases l with
  | nil => cases h
  | cons c l =>
    rw [readClose] at h
    split at h
    · next hc =>
      subst hc
      rw [Option.map_eq_some_iff] at h
      obtain ⟨v', hv, h⟩ := h
      cases h
      obtain ⟨p, rfl, hw, rfl, -⟩ := readPort_iff.mp (whole_iff.mp hv)
      exact ⟨p, by rw [List.append_nil], hw, rfl, rfl⟩
    · cases h

theorem readBracketed_sound (h : readBracketed t = some (x, v)) : Endpoint t x v := by
  cases t with
  | nil => cases h
  | cons c l =>
    rw [readBracketed] at h
    split at h
    · next hc =>
      subst hc
      rw [Option.bind_eq_some_iff] at h
      obtain ⟨⟨gs, r⟩, hr, h⟩ := h
      obtain ⟨p, hl, hw, rfl, rfl⟩ := readClose_sound h
      dsimp only at hl
      subst hl
      obtain ⟨t', rfl, hv6⟩ := readV6_sound hr
      exact .v6 hv6 hw
    · cases h

/-- **Endpoints are read exactly.** -/
theorem readEndpoint_iff : readEndpoint t = some (x, v) ↔ Endpoint t x v := by
  constructor
  · intro h
    rw [readEndpoint] at h
    split at h
    · next r hp =>
      rw [Option.bind_eq_some_iff] at hp
      obtain ⟨⟨bs, l⟩, hr, hp⟩ := hp
      rw [Option.map_eq_some_iff] at hp
      obtain ⟨p', hport, rfl⟩ := hp
      rw [Option.map_eq_some_iff] at h
      obtain ⟨v', hv, h⟩ := h
      cases h
      rw [whole_iff] at hv
      cases hv
      obtain ⟨t', rfl, hv4, -⟩ := readV4_iff.mp hr
      obtain ⟨p, hl, hw, rfl, -⟩ := readPort_iff.mp hport
      dsimp only at hl
      rw [hl, List.append_nil]
      exact .v4 hv4 hw
    · exact readBracketed_sound h
  · intro h
    cases h with
    | @v4 t p bs h hp =>
      have hread : readV4 (t ++ 58#8 :: p) = some (bs, 58#8 :: p) :=
        readV4_iff.mpr ⟨t, rfl, h, stops_cons (by decide)⟩
      have hport : readPort (58#8 :: p) = some (valueOf 10 p, []) :=
        readPort_iff.mpr ⟨p, by rw [List.append_nil], hp, rfl, stops_nil⟩
      simp [readEndpoint, hread, hport, whole]
    | @v6 t p gs h hp =>
      have hv4 : readV4 (91#8 :: (t ++ 93#8 :: 58#8 :: p)) = none := readV4_cut (cut_cons (by decide))
      have hv6 : readV6 (t ++ 93#8 :: 58#8 :: p) = some (gs, 93#8 :: 58#8 :: p) :=
        (readV6_iff (.inr ⟨_, rfl⟩)).mpr ⟨t, rfl, h⟩
      have hport : readPort (58#8 :: p) = some (valueOf 10 p, []) :=
        readPort_iff.mpr ⟨p, by rw [List.append_nil], hp, rfl, stops_nil⟩
      simp [readEndpoint, readBracketed, readClose, hv4, hv6, hport, whole]

end Aipl.Lib.AddressText
