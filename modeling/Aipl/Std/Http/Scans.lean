import Aipl.Std.Http.Wire
import Aipl.Std.Stream.Window

/-! # What the loops over a text find

* `findByte_eq`, `eachByte_agrees`, `lineEnd_eq`, `nextLine_eq` — each loop, by what it finds in the part of the
  text that it goes over.
* `Holds` — a view is in the text, and what it holds.
-/

namespace Aipl.StdHttp

open Aipl.Lib Aipl.Lib.Outcome Aipl.Lib.Fallible Aipl.Std
open Aipl.StdStream (byteAt byteAt_eq slice slice_eq)
open Wire (Byte splitLine of_splitLine must)

/-- A position in a text, as a word. -/
def pos (p : Nat) : BitVec 32 := BitVec.ofNat 32 p

theorem toNat_pos {p : Nat} (h : p < 2 ^ 32) : (pos p).toNat = p := toNat_ofNat_of_lt h

theorem pos_add (p q : Nat) : pos p + pos q = pos (p + q) := (BitVec.ofNat_add p q).symm

theorem pos_inj {p q : Nat} (hp : p < 2 ^ 32) (hq : q < 2 ^ 32) : pos p = pos q ↔ p = q := by
  refine ⟨fun h => ?_, fun h => by rw [h]⟩
  rw [← toNat_pos hp, ← toNat_pos hq, h]

theorem pos_sub {p q : Nat} (h : q ≤ p) (hp : p < 2 ^ 32) : pos p - pos q = pos (p - q) := by
  refine BitVec.eq_of_toNat_eq ?_
  rw [toNat_sub_of_le (by rw [toNat_pos hp, toNat_pos (by omega)]; exact h), toNat_pos hp,
    toNat_pos (by omega), toNat_pos (by omega)]

theorem pos_slt {p q : Nat} (hp : p < 2 ^ 31) (hq : q < 2 ^ 31) : (pos p).slt (pos q) = decide (p < q) := by
  have hp' := toNat_pos (p := p) (by omega)
  have hq' := toNat_pos (p := q) (by omega)
  rw [Bool.eq_iff_iff, slt_iff (by omega) (by omega), hp', hq', decide_eq_true_eq]

theorem pos_sle {p q : Nat} (hp : p < 2 ^ 31) (hq : q < 2 ^ 31) : (pos p).sle (pos q) = decide (p ≤ q) := by
  have hp' := toNat_pos (p := p) (by omega)
  have hq' := toNat_pos (p := q) (by omega)
  rw [Bool.eq_iff_iff, sle_iff (by omega) (by omega), hp', hq', decide_eq_true_eq]

theorem pos_toNat (x : BitVec 32) : pos x.toNat = x := by simp [pos]

theorem setWidth_byte_inj {x y : Byte} : x.setWidth 32 = y.setWidth 32 ↔ x = y := by
  refine ⟨fun h => ?_, fun h => by rw [h]⟩
  have hx := congrArg (BitVec.setWidth 8) h
  simpa using hx

namespace Text

variable {b : Text}

/-- The part of a text between two positions. -/
def part (b : Text) (lo hi : Nat) : List Byte := (b.bytes.take hi).drop lo

theorem len_eq (b : Text) : b.len = pos b.bytes.length := rfl

theorem length_part (b : Text) (lo hi : Nat) (h : hi ≤ b.bytes.length) : (b.part lo hi).length = hi - lo := by
  rw [part, List.length_drop, List.length_take, Nat.min_eq_left h]

theorem getElem?_part (b : Text) (lo hi k : Nat) (h : lo + k < hi) : (b.part lo hi)[k]? = b.bytes[lo + k]? := by
  rw [part, List.getElem?_drop, List.getElem?_take_of_lt h]

theorem part_self {lo : Nat} : b.part lo lo = [] :=
  List.drop_eq_nil_of_le (by rw [List.length_take]; omega)

theorem drop_part (lo hi k : Nat) : (b.part lo hi).drop k = b.part (lo + k) hi := by
  rw [part, part, List.drop_drop]

theorem take_part (b : Text) (lo hi k : Nat) (h : lo + k ≤ hi) : (b.part lo hi).take k = b.part lo (lo + k) := by
  rw [part, part, List.take_drop, List.take_take, Nat.min_eq_left h]

theorem part_all (lo : Nat) : b.part lo b.bytes.length = b.bytes.drop lo := by rw [part, List.take_length]

theorem exists_byte {p : Nat} (h : p < b.bytes.length) : ∃ c, b.bytes[p]? = some c :=
  ⟨b.bytes[p], List.getElem?_eq_getElem h⟩

end Text

variable {b : Text} {fuel : Nat}

theorem byteAt_pos {p : Nat} {c : Byte} (h : b.bytes[p]? = some c) :
    byteAt b.bytes (pos p) = done (c.setWidth 32) := by
  have hp : p < b.bytes.length := (List.getElem?_eq_some_iff.mp h).1
  have hlt := b.short
  exact byteAt_eq b.short (by rw [toNat_pos (by omega)]; exact h)

/-! ### Searches -/

/-- A loop over a part of the text that may return. -/
theorem forReturn_part {ρ : Type} {g : Nat → Byte → Option ρ} {rest : ρ} {body : BitVec 32 → Outcome (Option ρ)}
    {lo hi : Nat} (hlo : lo ≤ hi) (hhi : hi ≤ b.bytes.length) (hfuel : 2 ^ 32 ≤ fuel)
    (hbody : ∀ (k : Nat) (x : Byte), k < hi → b.bytes[k]? = some x → body (pos k) = done (g k x)) :
    forReturn fuel (pos lo) (pos hi) body rest = done (searchFrom g rest lo (b.part lo hi)) := by
  have hlt := b.short
  exact forReturn_eq body rest hhi hlt hbody fuel lo hlo (by omega)

theorem searchFrom_eq {ρ : Type} (P : Byte → Bool) (r : Nat → ρ) (rest : ρ) (lo : Nat) (xs : List Byte) :
    searchFrom (fun k x => if P x then some (r k) else none) rest lo xs
      = if (xs.takeWhile fun x => !P x).length < xs.length then r (lo + (xs.takeWhile fun x => !P x).length)
        else rest := by
  induction xs generalizing lo with
  | nil => rfl
  | cons x xs ih =>
    rw [searchFrom]
    cases hx : P x with
    | true => simp [hx]
    | false =>
      rw [if_neg (by simp)]
      simp only [List.takeWhile_cons, hx, Bool.not_false, if_true, List.length_cons,
        Nat.add_lt_add_iff_right]
      rw [ih, Nat.add_assoc, Nat.add_comm 1]

theorem takeWhile_length_le (P : Byte → Bool) (xs : List Byte) : (xs.takeWhile P).length ≤ xs.length :=
  (List.takeWhile_prefix P).length_le

theorem takeWhile_ne_lt (c : Byte) (xs : List Byte) :
    (xs.takeWhile (· ≠ c)).length < xs.length ↔ c ∈ xs := by
  have hall : (xs.takeWhile (· ≠ c)).length = xs.length ↔ c ∉ xs := by
    have heq : (xs.takeWhile (· ≠ c)).length = xs.length ↔ xs.takeWhile (· ≠ c) = xs :=
      ⟨(List.takeWhile_prefix _).eq_of_length, fun h => by rw [h]⟩
    rw [heq, List.takeWhile_eq_self_iff]
    refine ⟨fun h hc => ?_, fun h x hx => decide_eq_true fun hxc => h (hxc ▸ hx)⟩
    simpa using h c hc
  have hle := takeWhile_length_le (· ≠ c) xs
  rw [lt_iff_le_and_ne, ne_eq, hall, not_not]
  exact and_iff_right hle

theorem findByte_eq (b : Text) (lo hi : Nat) (c : Byte) {w : BitVec 32} (hw : w = c.setWidth 32) (hlo : lo ≤ hi)
    (hhi : hi ≤ b.bytes.length) (hfuel : 2 ^ 32 ≤ fuel) :
    findByte fuel b (pos lo) (pos hi) w
      = done (pos (lo + ((b.part lo hi).takeWhile (· ≠ c)).length)) := by
  have hbody : ∀ (k : Nat) (x : Byte), k < hi → b.bytes[k]? = some x →
      (byteAt b.bytes (pos k) >>= fun x => pure (if x = w then some (pos k) else none))
        = done (if decide (x = c) then some (pos k) else none) := by
    intro k x hk hx
    rw [byteAt_pos hx, done_bind, hw, pure_eq]
    by_cases hxc : x = c
    · simp [hxc]
    · have hne : ¬ x.setWidth 32 = c.setWidth 32 := fun h => hxc (setWidth_byte_inj.mp h)
      simp [hxc, hne]
  have hle := takeWhile_length_le (· ≠ c) (b.part lo hi)
  have hlen := Text.length_part _ lo _ hhi
  have hnot : (fun x : Byte => !decide (x = c)) = fun x => decide (x ≠ c) := by
    funext x
    rw [decide_not]
  rw [findByte, forReturn_part hlo hhi hfuel hbody, searchFrom_eq (fun x => decide (x = c)), hnot]
  by_cases hfound : ((b.part lo hi).takeWhile fun x => decide (x ≠ c)).length < (b.part lo hi).length
  · rw [if_pos hfound]
  · rw [if_neg hfound]
    congr 2
    omega

/-- An error, and whether it says that the text is cut short. -/
def Flag (e : Error) (incomplete : Bool) : Prop := e.incomplete = incomplete

/-- A check of the text, and the same check of its bytes. -/
theorem agrees_failIf {α β : Type} {R : α → β → Prop} {c p : Bool} {e : Error} {f : Unit → Fallible Error α}
    {g : Unit → Except Bool β} (hc : c = !p) (he : e.incomplete = false)
    (h : p = true → Agrees Flag R (f ()) (g ())) : Agrees Flag R (failIf c e >>= f) (must p >>= g) := by
  cases p with
  | true =>
    rw [hc]
    exact h rfl
  | false =>
    rw [hc]
    exact agrees_throw he

/-- The search refuses when a byte does not pass, with an error of `check`'s. -/
theorem eachByte_agrees (lo hi : Nat) {check : BitVec 32 → BitVec 32 → Option Error} {P : Byte → Bool}
    (hlo : lo ≤ hi) (hhi : hi ≤ b.bytes.length) (hfuel : 2 ^ 32 ≤ fuel)
    (hpass : ∀ i x, P x = true → check i (x.setWidth 32) = none)
    (hfail : ∀ i x, P x = false → ∃ e, check i (x.setWidth 32) = some e ∧ e.incomplete = false) :
    Agrees Flag (fun _ _ => True) (eachByte fuel b (pos lo) (pos hi) check)
      (must ((b.part lo hi).all P)) := by
  have hbody : ∀ (k : Nat) (x : Byte), k < hi → b.bytes[k]? = some x →
      (byteAt b.bytes (pos k) >>= fun c => pure ((check (pos k) c).map some))
        = done ((check (pos k) (x.setWidth 32)).map some) := by
    intro k x hk hx
    rw [byteAt_pos hx, done_bind, pure_eq]
  rw [eachByte, firstRefusal, forReturn_part hlo hhi hfuel hbody, lift_done_bind]
  clear hbody hlo
  induction b.part lo hi generalizing lo with
  | nil => exact agrees_pure trivial
  | cons x xs ih =>
    rw [searchFrom]
    cases hx : P x with
    | true =>
      rw [hpass _ x hx, List.all_cons, hx, Bool.true_and]
      exact ih _
    | false =>
      obtain ⟨e, he, hinc⟩ := hfail (pos lo) x hx
      rw [he, List.all_cons, hx, Bool.false_and]
      exact agrees_throw hinc

/-! ### Lines -/

/-- The end of a line, as a word; -1 for none. -/
def endOf (p : Nat) : Option (List Byte × Nat) → BitVec 32
  | none => -1#32
  | some (l, _) => pos (p + l.length)

theorem crBefore_eq {p k : Nat} (hp : p ≤ b.bytes.length) (hk : k < b.bytes.length) :
    crBefore b (pos p) (pos k) = done (decide (p < k ∧ b.bytes[k - 1]? = some 13#8)) := by
  have hlt := b.short
  by_cases hpk : p < k
  · obtain ⟨c, hc⟩ := b.exists_byte (p := k - 1) (by omega)
    have hsub : pos k - 1#32 = pos (k - 1) := pos_sub (q := 1) (by omega) (by omega)
    have hcr : c.setWidth 32 = 13#32 ↔ c = 13#8 := setWidth_byte_inj (y := 13#8)
    rw [crBefore, pos_slt (by omega) (by omega), if_pos (by simpa using hpk), hsub, byteAt_pos hc, done_bind, hc]
    simp [hpk, hcr]
  · rw [crBefore, pos_slt (by omega) (by omega), if_neg (by simpa using hpk)]
    simp [hpk]

theorem lineEnd_eq {p hi : Nat} {limit : BitVec 32}
    (hhi : (if b.len.slt limit then b.len else limit) = pos hi) (hle : hi ≤ b.bytes.length) (hp : p ≤ hi)
    (hfuel : 2 ^ 32 ≤ fuel) :
    lineEnd fuel b (pos p) limit = done (endOf p (splitLine (b.part p hi))) := by
  have hlt := b.short
  -- where the line ends whose line feed is at k
  let stop_ : Nat → BitVec 32 := fun k =>
    if p < k ∧ b.bytes[k - 1]? = some 13#8 then pos (k - 1) else pos k
  have hbody : ∀ (k : Nat) (x : Byte), k < hi → b.bytes[k]? = some x →
      (byteAt b.bytes (pos k) >>= fun c =>
          if c = 10#32 then crBefore b (pos p) (pos k) >>= fun cr => pure (some (if cr then pos k - 1#32 else pos k))
          else pure none)
        = done (if decide (x = 10#8) then some (stop_ k) else none) := by
    intro k x hk hx
    have hiff : x.setWidth 32 = 10#32 ↔ x = 10#8 := setWidth_byte_inj (y := 10#8)
    rw [byteAt_pos hx, done_bind]
    by_cases hlf : x = 10#8
    · rw [if_pos (hiff.mpr hlf), if_pos (decide_eq_true hlf), crBefore_eq (by omega) (by omega), done_bind, pure_eq]
      congr 2
      simp only [stop_, decide_eq_true_eq]
      by_cases hsplit : p < k ∧ b.bytes[k - 1]? = some 13#8
      · rw [if_pos hsplit, if_pos hsplit]
        exact pos_sub (q := 1) (by omega) (by omega)
      · rw [if_neg hsplit, if_neg hsplit]
    · rw [if_neg fun h => hlf (hiff.mp h), if_neg (by simpa using hlf)]
      rfl
  have hnot : (fun x : Byte => !decide (x = 10#8)) = fun x => decide (x ≠ 10#8) := by
    funext x
    rw [decide_not]
  rw [lineEnd, hhi, forReturn_part hp hle hfuel hbody, searchFrom_eq (fun x => decide (x = 10#8)), hnot, splitLine]
  obtain ⟨pre, hpre⟩ : ∃ pre, (b.part p hi).takeWhile (fun x => decide (x ≠ 10#8)) = pre := ⟨_, rfl⟩
  have hlen := Text.length_part b p _ hle
  rw [hpre]
  by_cases hfound : pre.length < (b.part p hi).length
  · rw [if_pos hfound, if_pos hfound, endOf]
    have hlast : pre ≠ [] → b.bytes[p + pre.length - 1]? = pre.getLast? := by
      intro hne
      have hpos : 0 < pre.length := List.length_pos_iff.mpr hne
      obtain ⟨rest, hrest⟩ : pre <+: b.part p hi := hpre ▸ List.takeWhile_prefix _
      have hget : (b.part p hi)[pre.length - 1]? = pre.getLast? := by
        rw [← hrest, List.getElem?_append_left (by omega), List.getLast?_eq_getElem?]
      rw [← hget, Text.getElem?_part _ _ _ _ (by omega)]
      congr 1
      omega
    congr 1
    simp only [stop_]
    rw [Wire.dropCr]
    by_cases hcr : pre.getLast? = some 13#8
    · have hne : pre ≠ [] := by
        rintro rfl
        cases hcr
      have hpos : 0 < pre.length := List.length_pos_iff.mpr hne
      rw [if_pos ⟨by omega, by rw [hlast hne, hcr]⟩, if_pos hcr, List.length_dropLast,
        Nat.add_sub_assoc hpos]
    · rw [if_neg, if_neg hcr]
      rintro ⟨hpos, hbyte⟩
      have hne : pre ≠ [] := List.length_pos_iff.mp (by omega)
      exact hcr (by rw [← hlast hne, hbyte])
  · rw [if_neg hfound, if_neg hfound, endOf]

/-- **The index after a line** is where the next begins. -/
theorem nextLine_eq {p hi t : Nat} {l : List Byte} (hle : hi ≤ b.bytes.length)
    (h : splitLine (b.part p hi) = some (l, t)) (hp : p ≤ hi) :
    nextLine b (pos (p + l.length)) = done (pos (p + t)) ∧ p + t ≤ hi ∧ l.length < t := by
  have hlt := b.short
  obtain ⟨hline, ht, hpos⟩ := of_splitLine h
  rw [Text.length_part _ _ _ hle] at ht
  have htake : ((b.part p hi).take t).length = t := by
    rw [List.length_take, Text.length_part _ _ _ hle]
    omega
  have hbyte : ∀ {c : Byte}, ((b.part p hi).take t)[l.length]? = some c → l.length < t →
      b.bytes[p + l.length]? = some c := by
    intro c hc hlt'
    rw [List.getElem?_take_of_lt hlt', Text.getElem?_part _ _ _ _ (by omega)] at hc
    exact hc
  obtain ⟨s, hs⟩ : ∃ s, (b.part p hi).take t = s := ⟨_, rfl⟩
  have hlenlt := hline.length_lt
  rw [htake] at hlenlt
  rw [hs] at hline htake hbyte
  refine ⟨?_, by omega, hlenlt⟩
  rw [nextLine]
  cases hline with
  | lf hmem hcr =>
    have hc := hbyte (c := 10#8) (by simp) hlenlt
    rw [byteAt_pos hc, done_bind, if_neg (by decide)]
    rw [List.length_append] at htake
    simp only [List.length_cons, List.length_nil] at htake
    rw [← htake]
    exact congrArg done (pos_add (p + l.length) 1)
  | crlf hmem =>
    have hc := hbyte (c := 13#8) (by simp) hlenlt
    rw [byteAt_pos hc, done_bind, if_pos (by decide)]
    rw [List.length_append] at htake
    simp only [List.length_cons, List.length_nil] at htake
    rw [← htake]
    exact congrArg done (pos_add (p + l.length) 2)

/-! ### Views -/

/-- A view is in the text, and holds `l`. -/
def Holds (b : Text) (v : View) (l : List Byte) : Prop :=
  v.1.toNat + v.2.toNat ≤ b.bytes.length ∧ (b.bytes.drop v.1.toNat).take v.2.toNat = l

theorem Holds.content {v : View} {l : List Byte} (h : Holds b v l) : b.content v = l := by
  obtain ⟨hle, rfl⟩ := h
  refine List.ext_getElem? fun i => ?_
  rw [Text.content, List.getElem?_map]
  by_cases hi : i < v.2.toNat
  · rw [List.getElem?_range hi, List.getElem?_take_of_lt hi, List.getElem?_drop, Option.map_some, Text.load,
      List.getD_eq_getElem?_getD, List.getElem?_eq_getElem (by omega)]
    rfl
  · rw [List.getElem?_eq_none (by simpa using hi), List.getElem?_eq_none (by rw [List.length_take]; omega)]
    rfl

theorem Holds.length {v : View} {l : List Byte} (h : Holds b v l) : v.2.toNat = l.length := by
  obtain ⟨hle, rfl⟩ := h
  rw [List.length_take, List.length_drop]
  omega

theorem part_takeWhile (b : Text) (lo hi : Nat) (P : Byte → Bool) (hlo : lo ≤ hi) (hhi : hi ≤ b.bytes.length) :
    b.part lo (lo + ((b.part lo hi).takeWhile P).length) = (b.part lo hi).takeWhile P := by
  have hle := takeWhile_length_le P (b.part lo hi)
  rw [Text.length_part _ _ _ hhi] at hle
  rw [← Text.take_part _ _ hi _ (by omega)]
  exact (List.prefix_iff_eq_take.mp (List.takeWhile_prefix P)).symm

theorem view_eq (b : Text) (lo hi : Nat) (hlo : lo ≤ hi) (hhi : hi ≤ b.bytes.length) :
    view b (pos lo) (pos hi) = done (pos lo, pos (hi - lo)) ∧ Holds b (pos lo, pos (hi - lo)) (b.part lo hi) := by
  have hlt := b.short
  have hstart := toNat_pos (p := lo) (by omega)
  have hlen := toNat_pos (p := hi - lo) (by omega)
  constructor
  · rw [view, pos_sub hlo (by omega)]
    exact slice_eq hlt (by rw [hstart, hlen]; omega)
  · refine ⟨by dsimp only; rw [hstart, hlen]; omega, ?_⟩
    dsimp only
    rw [hstart, hlen, Text.part, List.take_drop]
    congr 2
    omega

end Aipl.StdHttp
