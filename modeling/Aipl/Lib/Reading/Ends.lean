import Aipl.Lib.Reading.Follows

/-! # Library — runs of the ideal of a reading program

* `Steady`, `ideal_known` — a program whose loops read on ends in the ideal.
* `Gives` — what the ideal's results satisfy, and its rules.
* `Bytewise`, `exec_calm` — a program that moves only by reading is calm on the machine.
-/

namespace Aipl.Lib.Reading

open Outcome

variable {α β ρ σ : Type} {i : Input} {room : Nat}

/-! ### Steady programs -/

variable (i room) in
/-- Every round of a loop that goes on reads on. -/
def Steady {α : Type} : Reading α → Prop
  | .seq p f => Steady p ∧ ∀ a, Steady (f a)
  | .times _ round _ => ∀ s, Steady (round s)
  | .loop round _ => ∀ s, Steady (round s) ∧ ∀ c s' c', Fit room c →
      ideal i room (round s) c = done (.inl s', c') → c.pos < c'.pos ∧ c.pos < i.len.toNat
  | _ => True

@[simp] theorem steady_pure (a : α) : Steady i room (pure a) := trivial

@[simp] theorem steady_bind {p : Reading α} {f : α → Reading β} :
    Steady i room (p >>= f) ↔ Steady i room p ∧ ∀ a, Steady i room (f a) := Iff.rfl

@[simp] theorem steady_ite {b : Prop} [Decidable b] {p q : Reading α} :
    Steady i room (if b then p else q) ↔ (b → Steady i room p) ∧ (¬ b → Steady i room q) := by
  by_cases h : b <;> simp [h]

@[simp] theorem steady_times {count : BitVec 32} {round : σ → Reading (Option (α × σ))} {s : σ} :
    Steady i room (.times count round s) ↔ ∀ s, Steady i room (round s) := Iff.rfl

@[simp] theorem steady_report {what : String} {place : Option (BitVec 32)} :
    Steady i room (.report what place) := trivial

@[simp] theorem steady_pos : Steady i room .pos := trivial

@[simp] theorem steady_failed : Steady i room .failed := trivial

@[simp] theorem steady_read : Steady i room .read := trivial

@[simp] theorem steady_forget : Steady i room .forget := trivial

@[simp] theorem steady_skip {n : BitVec 32} : Steady i room (.skip n) := trivial

@[simp] theorem steady_seek {place : BitVec 32} : Steady i room (.seek place) := trivial

@[simp] theorem steady_hold : Steady i room .hold := trivial

theorem timesIdeal_known (hroom : room < 2 ^ 31 - 1) {round : σ → Reading (Option (α × σ))}
    (h : ∀ s c, Fit room c → Sat (fun _ => True) (ideal i room (round s) c)) :
    ∀ (n : Nat) (s : σ) (c : Cursor), Fit room c →
      Sat (fun _ => True) (timesIdeal room (fun s => ideal i room (round s)) n s c)
  | 0, _, _, _ => trivial
  | n + 1, s, c, hc => by
      refine sat_bind (h s c hc).and_eq ?_
      rintro ⟨_ | ⟨x, s'⟩, c'⟩ ⟨-, hdone⟩
      · trivial
      · have hc' := (ideal_fits hroom hc hdone).2
        dsimp only
        rw [timesIdealNext]
        by_cases hlt : c'.held < room
        · rw [if_pos hlt]
          exact sat_bind (timesIdeal_known hroom h n s' _ ⟨hc'.short, hlt⟩) fun _ _ => trivial
        · rw [if_neg hlt]
          trivial

theorem loopIdeal_known (hroom : room < 2 ^ 31 - 1) {round : σ → Reading (σ ⊕ ρ)}
    (h : ∀ s c, Fit room c → Sat (fun _ => True) (ideal i room (round s) c))
    (hgo : ∀ s c s' c', Fit room c → ideal i room (round s) c = done (.inl s', c') →
      c.pos < c'.pos ∧ c.pos < i.len.toNat) :
    ∀ (n : Nat) (s : σ) (c : Cursor), Fit room c → i.len.toNat - c.pos < n →
      Sat (fun _ => True) (loopIdeal (fun s => ideal i room (round s)) n s c)
  | 0, _, _, _, hn => by omega
  | n + 1, s, c, hc, hn => by
      refine sat_bind (h s c hc).and_eq ?_
      rintro ⟨s' | b, c'⟩ ⟨-, hdone⟩
      · have hmove := hgo s c s' c' hc hdone
        exact loopIdeal_known hroom h hgo n s' c' (ideal_fits hroom hc hdone).2 (by omega)
      · trivial

/-- **A steady program ends in the ideal**: it returns, or is refused. -/
theorem ideal_known (hroom : room < 2 ^ 31 - 1) {p : Reading α} (hp : Steady i room p) :
    ∀ c, Fit room c → Sat (fun _ => True) (ideal i room p c) := by
  induction p with
  | seq p f ihp ihf =>
    intro c hc
    refine sat_bind (ihp hp.1 c hc).and_eq ?_
    rintro ⟨a, c'⟩ ⟨-, hdone⟩
    exact ihf a (hp.2 a) c' (ideal_fits hroom hc hdone).2
  | times count round s ih => exact timesIdeal_known hroom (fun s => ih s (hp s)) _ s
  | loop round s ih =>
    exact fun c hc => loopIdeal_known hroom (fun s => ih s (hp s).1) (fun s => (hp s).2) _ s c hc (by omega)
  | read | skip | seek | hold =>
    intro c hc
    rw [ideal]
    split
    · trivial
    · trivial
  | ret | pos | failed | report | forget => exact fun _ _ => trivial

/-! ### What the ideal's results satisfy -/

variable (i room) in
def Gives (p : Reading α) (Q : α → Prop) : Prop :=
  ∀ c a c', Fit room c → ideal i room p c = done (a, c') → Q a

theorem gives_any (p : Reading α) : Gives i room p fun _ => True := fun _ _ _ _ _ => trivial

theorem gives_pure {a : α} {Q : α → Prop} (h : Q a) : Gives i room (pure a) Q := by
  intro c a' c' _ hdone
  cases hdone
  exact h

theorem gives_bind (hroom : room < 2 ^ 31 - 1) {p : Reading α} {f : α → Reading β} {P : α → Prop} {Q : β → Prop}
    (h : Gives i room p P) (hf : ∀ a, P a → Gives i room (f a) Q) : Gives i room (p >>= f) Q := by
  intro c b c' hc hdone
  obtain ⟨⟨a, c₁⟩, ha, hb⟩ := bind_eq_done hdone
  exact hf a (h c a c₁ hc ha) c₁ b c' (ideal_fits hroom hc ha).2 hb

/-- What follows a run of which nothing needs to be known. -/
theorem gives_then (hroom : room < 2 ^ 31 - 1) {p : Reading α} {f : α → Reading β} {Q : β → Prop}
    (hf : ∀ a, Gives i room (f a) Q) : Gives i room (p >>= f) Q :=
  gives_bind hroom (gives_any p) fun a _ => hf a

theorem gives_ite {b : Prop} [Decidable b] {p q : Reading α} {Q : α → Prop} (hp : b → Gives i room p Q)
    (hq : ¬ b → Gives i room q Q) : Gives i room (if b then p else q) Q := by
  by_cases h : b
  · rw [if_pos h]
    exact hp h
  · rw [if_neg h]
    exact hq h

theorem gives_times (hroom : room < 2 ^ 31 - 1) {count : BitVec 32} {round : σ → Reading (Option (α × σ))}
    {s : σ} {Q : α → Prop} (h : ∀ s, Gives i room (round s) fun next => ∀ x ∈ next, Q x.1) :
    Gives i room (.times count round s) fun entries => ∀ x ∈ entries.1, Q x := by
  have hrounds : ∀ (n : Nat) (s : σ) (c c' : Cursor) (entries : List α × Bool), Fit room c →
      timesIdeal room (fun s => ideal i room (round s)) n s c = done (entries, c') → ∀ x ∈ entries.1, Q x := by
    intro n
    induction n with
    | zero =>
      intro s c c' entries _ hdone
      cases hdone
      exact fun x hx => absurd hx List.not_mem_nil
    | succ n ih =>
      intro s c c' entries hc hdone
      obtain ⟨⟨next, c₁⟩, hnext, hrest⟩ := bind_eq_done hdone
      rcases next with _ | ⟨x, s'⟩
      · cases hrest
        exact fun x hx => absurd hx List.not_mem_nil
      · have hc₁ := (ideal_fits hroom hc hnext).2
        dsimp only at hrest
        rw [timesIdealNext] at hrest
        by_cases hlt : c₁.held < room
        · rw [if_pos hlt] at hrest
          obtain ⟨⟨rest, c₂⟩, hrounds, hlast⟩ := bind_eq_done hrest
          cases hlast
          intro y hy
          rcases List.mem_cons.mp hy with rfl | hy
          · exact h s c _ c₁ hc hnext _ rfl
          · exact ih s' { c₁ with held := c₁.held + 1 } _ rest ⟨hc₁.short, hlt⟩ hrounds y hy
        · rw [if_neg hlt] at hrest
          cases hrest
  exact fun c entries c' hc hdone => hrounds _ s c c' entries hc hdone

theorem gives_loop (hroom : room < 2 ^ 31 - 1) {round : σ → Reading (σ ⊕ ρ)} {P : σ → Prop} {Q : ρ → Prop}
    (h : ∀ s, P s → Gives i room (round s) (Sum.elim P Q)) {s : σ} (hs : P s) :
    Gives i room (.loop round s) Q := by
  have hrounds : ∀ (n : Nat) (s : σ) (c c' : Cursor) (b : ρ), P s → Fit room c →
      loopIdeal (fun s => ideal i room (round s)) n s c = done (b, c') → Q b := by
    intro n
    induction n with
    | zero =>
      intro s c c' b _ _ hdone
      cases hdone
    | succ n ih =>
      intro s c c' b hs hc hdone
      obtain ⟨⟨next, c₁⟩, hnext, hrest⟩ := bind_eq_done hdone
      have hgives := h s hs c next c₁ hc hnext
      rcases next with s' | b'
      · exact ih s' c₁ c' b hgives (ideal_fits hroom hc hnext).2 hrest
      · cases hrest
        exact hgives
  exact fun c b c' hc hdone => hrounds _ s c c' b hs hc hdone

/-! ### Programs that move only by reading -/

def Bytewise {α : Type} : Reading α → Prop
  | .seq p f => Bytewise p ∧ ∀ a, Bytewise (f a)
  | .times _ round _ => ∀ s, Bytewise (round s)
  | .loop round _ => ∀ s, Bytewise (round s)
  | .skip _ => False
  | .seek _ => False
  | _ => True

@[simp] theorem bytewise_pure (a : α) : Bytewise (pure a) := trivial

@[simp] theorem bytewise_bind {p : Reading α} {f : α → Reading β} :
    Bytewise (p >>= f) ↔ Bytewise p ∧ ∀ a, Bytewise (f a) := Iff.rfl

@[simp] theorem bytewise_ite {b : Prop} [Decidable b] {p q : Reading α} :
    Bytewise (if b then p else q) ↔ (b → Bytewise p) ∧ (¬ b → Bytewise q) := by
  by_cases h : b <;> simp [h]

@[simp] theorem bytewise_times {count : BitVec 32} {round : σ → Reading (Option (α × σ))} {s : σ} :
    Bytewise (.times count round s) ↔ ∀ s, Bytewise (round s) := Iff.rfl

@[simp] theorem bytewise_loop {round : σ → Reading (σ ⊕ ρ)} {s : σ} :
    Bytewise (.loop round s) ↔ ∀ s, Bytewise (round s) := Iff.rfl

@[simp] theorem bytewise_read : Bytewise .read := trivial

@[simp] theorem bytewise_pos : Bytewise .pos := trivial

@[simp] theorem bytewise_failed : Bytewise .failed := trivial

@[simp] theorem bytewise_report {what : String} {place : Option (BitVec 32)} :
    Bytewise (.report what place) := trivial

@[simp] theorem bytewise_hold : Bytewise .hold := trivial

theorem returns_andThen {o : Outcome (α × Reader × List Event)}
    {k : α → Reader → Outcome (β × Reader × List Event)} (h : Returns (fun x => Calm i x.2.2) o)
    (hk : ∀ a r, Returns (fun x => Calm i x.2.2) (k a r)) : Returns (fun x => Calm i x.2.2) (andThen o k) := by
  refine returns_bind h fun x hx => returns_bind (hk x.1 x.2.1) fun y hy => ?_
  exact calm_append.mpr ⟨hx, hy⟩

/-- A read is inside the input, so the place behind it is a word that is not negative. -/
theorem calm_read {place : BitVec 32} (h : ((0#32).sle place && place.slt i.len) = true) :
    Calm i [.read place, .move place (place + 1#32)] := by
  have hlen := i.short
  rw [Bool.and_eq_true, BitVec.sle_eq_decide, BitVec.slt_eq_decide, decide_eq_true_eq, decide_eq_true_eq,
    BitVec.toInt_zero] at h
  have hplace := (toInt_of_nonneg h.1).2
  have hint : place.toInt = place.toNat := toInt_eq_toNat hplace
  have hlenint : i.len.toInt = i.len.toNat := toInt_eq_toNat hlen
  have hnext : (place + 1#32).toNat = place.toNat + 1 := toNat_succ hplace
  have hnextint : (place + 1#32).toInt = (place + 1#32).toNat := toInt_eq_toNat (by omega)
  intro e he
  simp only [List.mem_cons, List.not_mem_nil, or_false] at he
  rcases he with rfl | rfl
  · exact h
  · rw [Event.Calm]
    omega

theorem timesRun_calm {run : σ → Reader → Outcome (Option (α × σ) × Reader × List Event)} {count : BitVec 32}
    (h : ∀ s r, Returns (fun x => Calm i x.2.2) (run s r)) : ∀ (g : Nat) (k : BitVec 32) (s : σ) (r : Reader),
      Returns (fun x => Calm i x.2.2) (timesRun room run count g k s r)
  | 0, _, _, _ => trivial
  | g + 1, k, s, r => by
      rw [timesRun]
      split
      · exact calm_nil
      · refine returns_andThen (h s r) fun next r => ?_
        rcases next with _ | ⟨x, s'⟩
        · exact calm_nil
        · rw [timesNext]
          split
          · exact returns_andThen (timesRun_calm h g _ s' _) fun _ _ => calm_nil
          · trivial

theorem loopRun_calm {run : σ → Reader → Outcome ((σ ⊕ ρ) × Reader × List Event)}
    (h : ∀ s r, Returns (fun x => Calm i x.2.2) (run s r)) : ∀ (g : Nat) (s : σ) (r : Reader),
      Returns (fun x => Calm i x.2.2) (loopRun run g s r)
  | 0, _, _ => trivial
  | g + 1, s, r => by
      refine returns_andThen (h s r) fun next r => ?_
      rcases next with s' | b
      · exact loopRun_calm h g s' r
      · exact calm_nil

theorem exec_calm {fuel : Nat} {p : Reading α} (hp : Bytewise p) :
    ∀ r, Returns (fun x => Calm i x.2.2) (exec i room fuel p r) := by
  induction p with
  | seq p f ihp ihf => exact fun r => returns_andThen (ihp hp.1 r) fun a r => ihf a (hp.2 a) r
  | read => exact fun r => returns_bind (returns_require fun hread => calm_read hread) fun _ hcalm => hcalm
  | times count round s ih => exact fun r => timesRun_calm (fun s => ih s (hp s)) _ _ s r
  | loop round s ih => exact fun r => loopRun_calm (fun s => ih s (hp s)) _ s r
  | hold =>
    intro r
    rw [exec]
    split
    · exact calm_nil
    · trivial
  | skip | seek => exact hp.elim
  | ret | pos | failed | report | forget => exact fun _ => calm_nil

end Aipl.Lib.Reading
