import Aipl.Lib.Reading.Follows

/-! # Library — what a program reads

Bytes that stand at a place are read as a value, and some entries are held for it: `Reads`.  It composes with the
program, so that a format's bytes are put together as the program that reads them is.

* `Stands` — bytes at a place of the input.
* `reads_bind`, `reads_loop`, `reads_times` — one after another, and again and again.
* `Reads.runs` — the machine reads them too.
-/

namespace Aipl.Lib.Reading

open Outcome

variable {α β ρ σ τ : Type} (i : Input) (room : Nat)

/-- The bytes are in the input, from `q` on. -/
def Stands : Nat → List (BitVec 8) → Prop
  | _, [] => True
  | q, x :: xs => q < i.len.toNat ∧ i.byteAt (BitVec.ofNat 32 q) = x ∧ Stands (q + 1) xs

instance decidableStands : ∀ q bs, Decidable (Stands i q bs)
  | _, [] => inferInstanceAs (Decidable True)
  | q, _ :: xs =>
    have := decidableStands (q + 1) xs
    inferInstanceAs (Decidable (_ ∧ _ ∧ _))

/-- Where the bytes stand at `q`, the program reads them as `a`, with memory for `k` entries. -/
def Reads (p : Reading α) (q : Nat) (bs : List (BitVec 8)) (k : Nat) (a : α) : Prop :=
  Stands i q bs → ∀ held, held + k ≤ room → ideal i room p ⟨q, false, held⟩ = done (a, ⟨q + bs.length, false, held + k⟩)

/-- The bytes of the rounds of a loop; every round but the last takes some. -/
inductive Rounds (round : σ → Reading (σ ⊕ ρ)) : σ → Nat → List (BitVec 8) → Nat → ρ → Prop
  | last {s : σ} {q k : Nat} {bs : List (BitVec 8)} {b : ρ} : Reads i room (round s) q bs k (.inr b) → Rounds round s q bs k b
  | more {s s' : σ} {q k k' : Nat} {xs ys : List (BitVec 8)} {b : ρ} : xs ≠ [] → Reads i room (round s) q xs k (.inl s') →
      Rounds round s' (q + xs.length) ys k' b → Rounds round s q (xs ++ ys) (k + k') b

variable {i room} {p : Reading α} {f : α → Reading β} {q k k' : Nat} {xs ys bs : List (BitVec 8)} {a : α} {b : β}

theorem stands_append : ∀ (xs : List (BitVec 8)) {q : Nat}, Stands i q (xs ++ ys) ↔ Stands i q xs ∧ Stands i (q + xs.length) ys
  | [], q => by simp [Stands]
  | x :: xs, q => by
      rw [List.cons_append, Stands, Stands, stands_append xs, List.length_cons, Nat.add_assoc q 1, Nat.add_comm 1, and_assoc, and_assoc]

theorem Stands.le : ∀ {xs : List (BitVec 8)} {q : Nat}, Stands i q xs → xs ≠ [] → q + xs.length ≤ i.len.toNat
  | [], _, _, hne => absurd rfl hne
  | [x], q, h, _ => h.1
  | x :: y :: xs, q, h, _ => by
      have hrest := Stands.le h.2.2 (List.cons_ne_nil y xs)
      rw [List.length_cons]
      omega

theorem reads_pure (a : α) : Reads i room (pure a) q [] 0 a := fun _ _ _ => rfl

/-- **One program after another.** -/
theorem reads_bind (hp : Reads i room p q xs k a) (hf : Reads i room (f a) (q + xs.length) ys k' b) :
    Reads i room (p >>= f) q (xs ++ ys) (k + k') b := by
  intro hs held hroom
  obtain ⟨hxs, hys⟩ := (stands_append xs).mp hs
  show (ideal i room p ⟨q, false, held⟩ >>= fun x => ideal i room (f x.1) x.2) = _
  rw [hp hxs held (by omega), done_bind, hf hys (held + k) (by omega), List.length_append, Nat.add_assoc, Nat.add_assoc]

theorem reads_seq (hp : Reads i room p q xs 0 a) (hf : Reads i room (f a) (q + xs.length) ys k b) : Reads i room (p >>= f) q (xs ++ ys) k b := by
  have hboth := reads_bind hp hf
  rw [Nat.zero_add] at hboth
  exact hboth

/-- A program that takes no bytes, and what follows it. -/
theorem reads_after (hp : Reads i room p q [] 0 a) (hf : Reads i room (f a) q ys k b) : Reads i room (p >>= f) q ys k b := by
  have hboth := reads_seq hp hf
  rw [List.nil_append] at hboth
  exact hboth

/-- A program, and what takes no bytes after it. -/
theorem reads_map (hp : Reads i room p q xs k a) (hf : Reads i room (f a) (q + xs.length) [] 0 b) : Reads i room (p >>= f) q xs k b := by
  have hboth := reads_bind hp hf
  rw [List.append_nil, Nat.add_zero] at hboth
  exact hboth

/-- A program, and what takes memory but no bytes after it. -/
theorem reads_held (hp : Reads i room p q xs 0 a) (hf : Reads i room (f a) (q + xs.length) [] k b) : Reads i room (p >>= f) q xs k b := by
  have hboth := reads_seq hp hf
  rw [List.append_nil] at hboth
  exact hboth

theorem reads_pos : Reads i room .pos q [] 0 (BitVec.ofNat 32 q) := fun _ _ _ => rfl

theorem reads_failed : Reads i room .failed q [] 0 false := fun _ _ _ => rfl

theorem reads_hold : Reads i room .hold q [] 1 () := fun _ held hroom => by
  rw [ideal, if_pos (show held < room by omega)]
  rfl

theorem reads_read {x : BitVec 8} : Reads i room .read q [x] 0 (x.setWidth 32) := fun hs held _ => by
  obtain ⟨hlt, hx, -⟩ := hs
  rw [ideal, if_pos hlt, hx]
  rfl

/-! ### Loops -/

variable {round : σ → Reading (σ ⊕ ρ)} {s : σ} {r : ρ}

theorem Rounds.ideal (h : Rounds i room round s q bs k r) : ∀ (n : Nat), bs.length < n → Stands i q bs → ∀ held, held + k ≤ room →
    loopIdeal (fun s => Reading.ideal i room (round s)) n s ⟨q, false, held⟩ = done (r, ⟨q + bs.length, false, held + k⟩) := by
  induction h with
  | last hlast =>
    intro n hn hs held hroom
    obtain ⟨n, rfl⟩ : ∃ m, n = m + 1 := ⟨n - 1, by omega⟩
    rw [loopIdeal, hlast hs held hroom, done_bind]
    rfl
  | @more s s' q k k' xs ys b hne hround _ ih =>
    intro n hn hs held hroom
    obtain ⟨hxs, hys⟩ := (stands_append xs).mp hs
    have hpos := List.length_pos_iff.mpr hne
    rw [List.length_append] at hn
    obtain ⟨n, rfl⟩ : ∃ m, n = m + 1 := ⟨n - 1, by omega⟩
    rw [loopIdeal, hround hxs held (by omega), done_bind]
    show loopIdeal _ n s' _ = _
    rw [ih n (by omega) hys (held + k) (by omega), List.length_append, Nat.add_assoc, Nat.add_assoc]

/-- **A loop**, by its rounds. -/
theorem reads_loop (h : Rounds i room round s q bs k r) : Reads i room (.loop round s) q bs k r := by
  intro hs held hroom
  refine h.ideal _ ?_ hs held hroom
  rcases eq_or_ne bs [] with rfl | hne
  · exact Nat.succ_pos _
  · have hle := hs.le hne
    omega

variable {entry : Reading τ} {T : Type} {code : T → List (BitVec 8)} {val : T → τ}

theorem reads_timesIdeal (hentry : ∀ x q, Reads i room entry q (code x) 0 (val x)) : ∀ (xs : List T) (q held : Nat), Stands i q (xs.flatMap code) →
    held + xs.length ≤ room → timesIdeal room (fun () => ideal i room (do
      let x ← entry
      pure (some (x, ())))) xs.length () ⟨q, false, held⟩ =
        done ((xs.map val, false), ⟨q + (xs.flatMap code).length, false, held + xs.length⟩)
  | [], _, _, _, _ => rfl
  | x :: xs, q, held, hs, hroom => by
      rw [List.flatMap_cons] at hs
      obtain ⟨hx, hxs⟩ := (stands_append _).mp hs
      rw [List.length_cons] at hroom
      have hround : Reads i room (do
          let x ← entry
          pure (some (x, ()))) q (code x) 0 (some (val x, ())) := reads_map (hentry x q) (reads_pure _)
      rw [List.length_cons, timesIdeal, hround hx held (by omega), done_bind]
      dsimp only
      rw [timesIdealNext, if_pos (show held + 0 < room by omega)]
      dsimp only
      rw [Nat.add_zero, reads_timesIdeal hentry xs _ (held + 1) hxs (by omega), done_bind, List.flatMap_cons, List.length_append, List.map_cons]
      dsimp only
      rw [Nat.add_assoc, Nat.add_assoc, Nat.add_comm 1]

/-- **Entries that are pushed**, as many as are counted. -/
theorem reads_times {count : BitVec 32} (hentry : ∀ x q, Reads i room entry q (code x) 0 (val x)) (xs : List T)
    (hcount : count.toInt.toNat = xs.length) : Reads i room (.times count (fun () => do
      let x ← entry
      pure (some (x, ()))) ()) q (xs.flatMap code) xs.length (xs.map val, false) := by
  intro hs held hroom
  show timesIdeal room _ count.toInt.toNat () _ = _
  rw [hcount]
  exact reads_timesIdeal hentry xs q held hs hroom

/-! ### The machine -/

/-- **What is read, the machine reads**, with fuel enough, in bounds. -/
theorem Reads.runs (h : Reads i room p q bs k a) (hroom : room < 2 ^ 31 - 1) (hs : Stands i q bs) {reader : Reader}
    (hpos : reader.pos = BitVec.ofNat 32 q) (hshort : q < 2 ^ 31) (hfailed : reader.failed = false) (hheld : reader.held + k ≤ room) :
    ∃ N, ∀ fuel, N ≤ fuel → ∃ r l, exec i room fuel p reader = done (a, r, l) ∧ r.pos.toNat = q + bs.length ∧ r.failed = false ∧
      r.held = reader.held + k := by
  have hnear : Near room reader ⟨q, false, reader.held⟩ := by
    refine ⟨?_, hshort, hfailed, rfl, by dsimp only; omega, fun h => ?_⟩
    · rw [hpos]
      exact toNat_ofNat_of_lt (by omega)
    · rw [hfailed] at h
      exact absurd h Bool.false_ne_true
  have hfollows := follows (i := i) hroom p reader _ hnear
  rw [h hs reader.held hheld] at hfollows
  obtain ⟨-, -, r, l, hr, -, ⟨N, hN⟩, -⟩ := hfollows
  exact ⟨N, fun fuel hfuel => ⟨r, l, hN fuel fuel hfuel hfuel, hr.pos, hr.failed, hr.held⟩⟩

end Aipl.Lib.Reading
