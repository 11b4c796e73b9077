import Aipl.Std.Buf.Content
import Aipl.Std.Buf.Numbers
import Aipl.Std.Stream.Window

/-! # Bytes pushed one by one

* `pushAll` — what a writer of a text comes to.
* `pushAll_returns`, `pushAll_ends` — it appends the bytes, and does so where there is room.
* `foldAll_eq_pushAll`, `foldAll_places` — loops whose rounds push.
* `Appends`, `Appends.bind` — writers, and one after another.
-/

namespace Aipl.StdBuf

open Aipl.Lib Aipl.Lib.Outcome Aipl.Std
open Aipl.StdStream (setWidth_setWidth_byte)

variable {σ : Type} {A : Allocator σ} {fuel : Nat} {out : Content σ}

/-- A push looks at the low byte only. -/
theorem pushByte_congr {x y : BitVec 32} (h : x.setWidth 8 = y.setWidth 8) :
    out.pushByte A fuel x = out.pushByte A fuel y := by
  rw [Content.pushByte, Content.pushByte, h]

/-- Bytes pushed one by one. -/
def pushAll (A : Allocator σ) (fuel : Nat) (out : Content σ) (l : List (BitVec 8)) : Outcome (Content σ) :=
  foldAll (fun out x => out.pushByte A fuel (x.setWidth 32)) out l

theorem pushAll_append {l l' : List (BitVec 8)} :
    pushAll A fuel out (l ++ l') = pushAll A fuel out l >>= fun out => pushAll A fuel out l' := foldAll_append ..

theorem pushAll_cons {x : BitVec 8} {l : List (BitVec 8)} {y : BitVec 32} (h : y.setWidth 8 = x) :
    pushAll A fuel out (x :: l) = out.pushByte A fuel y >>= fun out => pushAll A fuel out l := by
  have hx : (x.setWidth 32).setWidth 8 = y.setWidth 8 := by rw [h, setWidth_setWidth_byte]
  rw [pushAll, foldAll, pushByte_congr hx]
  rfl

theorem pushAll_one {x : BitVec 8} {y : BitVec 32} (h : y.setWidth 8 = x) :
    pushAll A fuel out [x] = out.pushByte A fuel y := by
  rw [pushAll_cons h]
  exact bind_pure _

/-- What a push keeps of a word. -/
theorem setWidth_and_255 (v : BitVec 32) : (v &&& 255).setWidth 8 = v.setWidth 8 := by
  apply BitVec.eq_of_toNat_eq
  have h : v.toNat &&& (255#32).toNat = v.toNat % 2 ^ 8 := Nat.and_two_pow_sub_one_eq_mod v.toNat 8
  rw [BitVec.toNat_setWidth, BitVec.toNat_setWidth, BitVec.toNat_and]
  change (v.toNat &&& (255#32).toNat) % 2 ^ 8 = _
  rw [h, Nat.mod_mod]

theorem pushAll_returns (l : List (BitVec 8)) (out : Content σ) :
    Returns (fun out' => out'.bytes = out.bytes ++ l) (pushAll A fuel out l) := by
  induction l generalizing out with
  | nil => exact (List.append_nil _).symm
  | cons x l ih =>
    rw [pushAll, foldAll]
    refine returns_bind (Content.pushByte_returns out (x.setWidth 32)) fun out' hout' => ?_
    refine (ih out').mono fun out'' h => ?_
    rw [h, hout', setWidth_setWidth_byte, List.append_assoc]
    rfl

/-- In a buffer with room for them, bytes are pushed. -/
theorem pushAll_ends {l : List (BitVec 8)} {out : Content σ} (hcap : out.cap.toNat < 2 ^ 31)
    (hroom : out.bytes.length + l.length ≤ out.cap.toNat) :
    pushAll A fuel out l = done { out with bytes := out.bytes ++ l } := by
  induction l generalizing out with
  | nil => rw [List.append_nil]; rfl
  | cons x l ih =>
    rw [List.length_cons] at hroom
    have hpush : out.pushByte A fuel (x.setWidth 32) = done { out with bytes := out.bytes ++ [x] } := by
      rw [Content.pushByte_room (by omega) hcap, setWidth_setWidth_byte]
    rw [pushAll, foldAll, hpush, done_bind]
    have hrest := @ih { out with bytes := out.bytes ++ [x] } hcap (by
      dsimp only
      rw [List.length_append, List.length_singleton]
      omega)
    refine hrest.trans ?_
    rw [List.append_assoc]
    rfl

/-- Up to the bytes that doubling reaches, bytes are pushed. -/
theorem pushAll_sat {N : Nat} (hfuel : 2 ^ 31 ≤ fuel) : ∀ (l : List (BitVec 8)) (out : Content σ), out.Holds N →
    out.bytes.length + l.length ≤ N →
    Sat (fun out' => out'.bytes = out.bytes ++ l ∧ out'.Holds N) (pushAll A fuel out l)
  | [], out, hN, _ => ⟨(List.append_nil _).symm, hN⟩
  | x :: l, out, hN, hle => by
      rw [List.length_cons] at hle
      rw [pushAll, foldAll]
      refine sat_bind (Content.pushByte_sat hN (by omega) hfuel) ?_
      rintro out' ⟨hbytes, hN'⟩
      have hlen := congrArg List.length hbytes
      rw [List.length_append, List.length_singleton] at hlen
      refine (pushAll_sat hfuel l out' hN' (by omega)).mono ?_
      rintro out'' ⟨h, hN''⟩
      refine ⟨?_, hN''⟩
      rw [h, hbytes, setWidth_setWidth_byte, List.append_assoc]
      rfl

/-- **Where there is space**, bytes are pushed into it. -/
theorem pushAll_space {C : Prop} {n : Nat} (hfuel : 2 ^ 31 ≤ fuel) : ∀ (l : List (BitVec 8)) (out : Content σ),
    out.Space C (l.length + n) →
    EndsOr C (fun out' => out'.bytes = out.bytes ++ l ∧ out'.Space C n) (pushAll A fuel out l)
  | [], out, h => ⟨(List.append_nil _).symm, by rwa [List.length_nil, Nat.zero_add] at h⟩
  | x :: l, out, h => by
      rw [pushAll, foldAll]
      rw [List.length_cons, Nat.add_right_comm] at h
      refine endsOr_bind (Content.pushByte_space h hfuel (x.setWidth 32)) ?_
      rintro out' ⟨hbytes, hspace⟩
      refine (pushAll_space hfuel l out' hspace).mono ?_
      rintro out'' ⟨hbytes', hspace'⟩
      refine ⟨?_, hspace'⟩
      rw [hbytes', hbytes, setWidth_setWidth_byte, List.append_assoc]
      rfl

/-- A fold whose rounds push. -/
theorem foldAll_eq_pushAll {T : Type} {g : Content σ → T → Outcome (Content σ)} {f : T → List (BitVec 8)} {l : List T}
    (h : ∀ a ∈ l, ∀ o, g o a = pushAll A fuel o (f a)) (o : Content σ) : foldAll g o l = pushAll A fuel o (l.flatMap f) := by
  induction l generalizing o with
  | nil => rfl
  | cons a l ih =>
    rw [foldAll, h a List.mem_cons_self, List.flatMap_cons, pushAll_append]
    congr
    funext o'
    exact ih (fun a' ha' => h a' (List.mem_cons_of_mem _ ha')) o'

/-- A loop over the places of a list whose rounds push what stands for the element there. -/
theorem foldAll_places {T : Type} {g : Content σ → Nat → Outcome (Content σ)} {f : T → List (BitVec 8)} {l : List T}
    (h : ∀ i a, l[i]? = some a → ∀ o, g o i = pushAll A fuel o (f a)) (o : Content σ) :
    foldAll g o (List.range l.length) = pushAll A fuel o (l.flatMap f) := by
  induction l using List.reverseRecOn with
  | nil => rfl
  | append_singleton l a ih =>
    rw [List.length_append, List.length_singleton, List.range_succ, foldAll_append, List.flatMap_append, pushAll_append,
      ih fun i b hb => h i b (by rw [List.getElem?_append_left (List.getElem?_eq_some_iff.mp hb).1]; exact hb)]
    congr
    funext o'
    rw [List.flatMap_singleton, foldAll, h l.length a (by simp)]
    exact bind_pure _

/-- What returns after the pushes has the bytes. -/
theorem pushAll_bind_congr {α : Type} {l : List (BitVec 8)} {f g : Content σ → Outcome α}
    (h : ∀ out', out'.bytes = out.bytes ++ l → f out' = g out') :
    (pushAll A fuel out l >>= f) = pushAll A fuel out l >>= g := bind_congr_of_returns (pushAll_returns l out) h

theorem make_returns (heap : σ) (capacity : BitVec 32) : Returns (fun b => b.bytes = []) (Content.make A heap capacity) := by
  rw [Content.make]
  refine returns_bind_any ?_
  rintro ⟨_, heap'⟩
  exact returns_bind_any fun heap'' => rfl

/-- A new buffer of a capacity. -/
theorem make_holds (heap : σ) {capacity : BitVec 32} {N : Nat} (hle : N ≤ capacity.toNat) (hlt : capacity.toNat < 2 ^ 31) :
    Sat (fun b => b.bytes = [] ∧ b.Holds N) (Content.make A heap capacity) := by
  have hholds : ∀ cap : BitVec 32, N ≤ cap.toNat → cap.toNat < 2 ^ 31 → ∀ heap : σ, Content.Holds ⟨[], cap, heap⟩ N :=
    fun cap hle hlt heap => ⟨0, by simpa using hle, by simpa using hlt⟩
  have h16 : (16#32).toNat = 16 := rfl
  rw [Content.make]
  dsimp only
  refine sat_bind sat_array ?_
  rintro ⟨_, heap'⟩ -
  refine sat_bind sat_raw fun heap'' _ => ⟨rfl, ?_⟩
  by_cases hslt : capacity.slt 16#32 = true
  · rw [if_pos hslt]
    refine hholds _ ?_ (by omega) _
    rw [BitVec.slt_eq_decide, decide_eq_true_eq, BitVec.toInt_eq_toNat_of_lt (by omega),
      BitVec.toInt_eq_toNat_of_lt (by omega)] at hslt
    omega
  · rw [if_neg hslt]
    exact hholds _ hle hlt _

/-! ### Writers -/

namespace Content

variable {b : Content σ}

/-- `push_int` and `push_i64`: there is room for `extra` bytes, the most that the text of a number takes. -/
def pushDecimal (A : Allocator σ) (fuel : Nat) (b : Content σ) (n : Int) (extra : BitVec 32) : Outcome (Content σ) := do
  let b ← ensure A fuel b extra
  pure { b with bytes := b.bytes ++ decimal n }

theorem ensure_returns (b : Content σ) (extra : BitVec 32) :
    Returns (fun b' => b'.bytes = b.bytes) (ensure A fuel b extra) := by
  rw [ensure]
  dsimp only
  split
  · rfl
  · refine returns_bind_any fun cap => returns_bind_any ?_
    rintro ⟨_, heap⟩
    exact returns_bind_any fun heap => rfl

theorem ensure_room {extra : BitVec 32} (hroom : b.bytes.length + extra.toNat ≤ b.cap.toNat) (hcap : b.cap.toNat < 2 ^ 31) :
    ensure A fuel b extra = done b := by
  have hneed : (b.len + extra).toNat = b.bytes.length + extra.toNat := by
    rw [toNat_add_of_lt (by rw [toNat_len (by omega)]; omega), toNat_len (by omega)]
  rw [ensure, (sle_iff (by omega) hcap).mpr (by omega)]
  rfl

end Content

/-- **A writer** of `l`: what it returns has `l` appended, and where there is room enough it returns. -/
structure Appends (f : Content σ → Outcome (Content σ)) (l : List (BitVec 8)) : Prop where
  returns : ∀ o, Returns (fun o' => o'.bytes = o.bytes ++ l) (f o)
  ends : ∃ n, ∀ o, o.cap.toNat < 2 ^ 31 → o.bytes.length + n ≤ o.cap.toNat → f o = done { o with bytes := o.bytes ++ l }

theorem appends_pure : Appends (fun o : Content σ => pure o) [] :=
  ⟨fun o => (List.append_nil _).symm, 0, fun o _ _ => by rw [List.append_nil]; rfl⟩

/-- **One writer after another.** -/
theorem Appends.bind {f g : Content σ → Outcome (Content σ)} {l l' : List (BitVec 8)} (hf : Appends f l) (hg : Appends g l') :
    Appends (fun o => f o >>= g) (l ++ l') := by
  obtain ⟨n, hn⟩ := hf.ends
  obtain ⟨n', hn'⟩ := hg.ends
  refine ⟨fun o => ?_, n + (l.length + n'), fun o hcap hroom => ?_⟩
  · refine returns_bind (hf.returns o) fun o' ho' => (hg.returns o').mono fun o'' ho'' => ?_
    rw [ho'', ho', List.append_assoc]
  · have hnext := hn' { o with bytes := o.bytes ++ l } hcap (by
      dsimp only
      rw [List.length_append]
      omega)
    rw [hn o hcap (by omega), done_bind, hnext, List.append_assoc]

theorem appends_ite {c : Prop} [Decidable c] {f g : Content σ → Outcome (Content σ)} {l l' : List (BitVec 8)}
    (hf : c → Appends f l) (hg : ¬ c → Appends g l') :
    Appends (fun o => if c then f o else g o) (if c then l else l') := by
  by_cases hc : c
  · simpa only [if_pos hc] using hf hc
  · simpa only [if_neg hc] using hg hc

theorem appends_pushAll (l : List (BitVec 8)) : Appends (fun o => pushAll A fuel o l) l :=
  ⟨pushAll_returns l, l.length, fun _ hcap hroom => pushAll_ends hcap hroom⟩

theorem appends_pushByte {x : BitVec 8} {y : BitVec 32} (h : y.setWidth 8 = x) :
    Appends (fun o => o.pushByte A fuel y) [x] := by
  have happends : Appends (fun o : Content σ => pushAll A fuel o [x]) [x] := appends_pushAll [x]
  simpa only [pushAll_one h] using happends

/-- A text whose room is asked for at once. -/
theorem appends_ensure (extra : BitVec 32) (l : List (BitVec 8)) :
    Appends (fun o => Content.ensure A fuel o extra >>= fun o => pure { o with bytes := o.bytes ++ l }) l := by
  refine ⟨fun o => ?_, extra.toNat, fun o hcap hroom => ?_⟩
  · exact returns_bind (Content.ensure_returns o extra) fun o' ho' => congrArg (· ++ l) ho'
  · rw [Content.ensure_room hroom hcap]
    rfl

theorem appends_pushBytes (l : List (BitVec 8)) : Appends (fun o => o.pushBytes A fuel l) l := appends_ensure _ l

theorem appends_pushDecimal (n : Int) (extra : BitVec 32) :
    Appends (fun o => o.pushDecimal A fuel n extra) (decimal n) := appends_ensure extra _

end Aipl.StdBuf
