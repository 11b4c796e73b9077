import Aipl.Lib.Reading.Program

/-! # Library — the machine of a reading program follows its ideal

* `follows` — where the ideal returns, the machine returns the same, reads inside the input and only moves
  forward; where the ideal refuses, no run of the machine that returns does both.
* `tracks_andThen`, `tracks_loop`, `tracks_times` — the rules it is assembled from.
-/

namespace Aipl.Lib.Reading

open Outcome

variable {α β ρ σ : Type} (i : Input) (room : Nat)

/-- The states of a machine and of its ideal that stand for each other. -/
structure Near (r : Reader) (c : Cursor) : Prop where
  pos : r.pos.toNat = c.pos
  short : c.pos < 2 ^ 31
  failed : r.failed = c.failed
  held : r.held = c.held
  fits : c.held ≤ room
  told : r.failed = true → r.msg ≠ ""

def Calm (l : List Event) : Prop := ∀ e ∈ l, e.Calm i

variable {i} {room}

theorem calm_nil : Calm i [] := fun _ h => absurd h List.not_mem_nil

theorem calm_append {l l' : List Event} : Calm i (l ++ l') ↔ Calm i l ∧ Calm i l' :=
  List.forall_mem_append

/-- A run that returns `x` from some bounds on, and nothing else. -/
def Reaches (run : Nat → Nat → Outcome α) (x : α) : Prop :=
  (∃ N, ∀ f g, N ≤ f → N ≤ g → run f g = done x) ∧ ∀ f g y, run f g = done y → y = x

theorem reaches_done (x : α) : Reaches (fun _ _ => done x) x := by
  refine ⟨⟨0, fun _ _ _ _ => rfl⟩, fun f g y h => ?_⟩
  cases h
  rfl

variable (i room) in
/-- What the machine does from a state near `c`, where `o` is what the ideal does from `c`.  The first
argument of a run bounds what it calls, the second its own rounds. -/
def Tracks (c : Cursor) (run : Nat → Nat → Outcome (α × Reader × List Event)) : Outcome (α × Cursor) → Prop
  | done (a, c') => c.pos ≤ c'.pos ∧ c.held ≤ c'.held ∧
      ∃ r l, Near room r c' ∧ Calm i l ∧ Reaches run (a, r, l)
  | stop => ∀ f g a r l, run f g = done (a, r, l) → ¬ Calm i l
  | outOfFuel => True

theorem tracks_done {c c' : Cursor} {r : Reader} {l : List Event} {a : α} (hpos : c.pos ≤ c'.pos)
    (hheld : c.held ≤ c'.held) (hnear : Near room r c') (hl : Calm i l) :
    Tracks i room c (fun _ _ => done (a, r, l)) (done (a, c')) :=
  ⟨hpos, hheld, r, l, hnear, hl, reaches_done _⟩

theorem Tracks.of_le {c c₀ : Cursor} {run : Nat → Nat → Outcome (α × Reader × List Event)}
    {o : Outcome (α × Cursor)} (h : Tracks i room c run o) (hpos : c₀.pos ≤ c.pos) (hheld : c₀.held ≤ c.held) :
    Tracks i room c₀ run o := by
  rcases o with ⟨a, c'⟩ | _ | _
  · exact ⟨hpos.trans h.1, hheld.trans h.2.1, h.2.2⟩
  · exact h
  · trivial

theorem andThen_eq_done {o : Outcome (α × Reader × List Event)}
    {k : α → Reader → Outcome (β × Reader × List Event)} {b : β} {r : Reader} {l : List Event}
    (h : andThen o k = done (b, r, l)) :
    ∃ a r₁ l₁ l₂, o = done (a, r₁, l₁) ∧ k a r₁ = done (b, r, l₂) ∧ l = l₁ ++ l₂ := by
  obtain ⟨⟨a, r₁, l₁⟩, ho, h⟩ := bind_eq_done h
  obtain ⟨⟨b', r₂, l₂⟩, hk, h⟩ := bind_eq_done h
  cases h
  exact ⟨a, r₁, l₁, l₂, ho, hk, rfl⟩

theorem Reaches.andThen {run : Nat → Nat → Outcome (α × Reader × List Event)} {a : α} {r r' : Reader}
    {l l' : List Event} {k : Nat → Nat → α → Reader → Outcome (β × Reader × List Event)} {b : β}
    (h : Reaches run (a, r, l)) (hk : Reaches (fun f g => k f g a r) (b, r', l')) :
    Reaches (fun f g => andThen (run f g) (k f g)) (b, r', l ++ l') := by
  obtain ⟨⟨N, hrun⟩, honly⟩ := h
  obtain ⟨⟨N', hrun'⟩, honly'⟩ := hk
  refine ⟨⟨max N N', fun f g hf hg => ?_⟩, ?_⟩
  · dsimp only at hrun' ⊢
    rw [hrun f g (by omega) (by omega), Reading.andThen, done_bind]
    dsimp only
    rw [hrun' f g (by omega) (by omega)]
    rfl
  · rintro f g ⟨b₁, r₁, l₁⟩ hdone
    obtain ⟨a₁, r₂, l₂, l₃, ho, hk, rfl⟩ := andThen_eq_done hdone
    cases honly f g _ ho
    cases honly' f g _ hk
    rfl

/-- **The rule of sequencing.** -/
theorem tracks_andThen {c : Cursor} {run : Nat → Nat → Outcome (α × Reader × List Event)}
    {o : Outcome (α × Cursor)} {k : Nat → Nat → α → Reader → Outcome (β × Reader × List Event)}
    {K : α → Cursor → Outcome (β × Cursor)} (h : Tracks i room c run o)
    (hk : ∀ a r c', o = done (a, c') → c.pos ≤ c'.pos → c.held ≤ c'.held → Near room r c' →
      Tracks i room c (fun f g => k f g a r) (K a c')) :
    Tracks i room c (fun f g => andThen (run f g) (k f g)) (o >>= fun x => K x.1 x.2) := by
  rcases o with ⟨a, c'⟩ | _ | _
  · obtain ⟨hpos, hheld, r, l, hnear, hl, hrun⟩ := h
    have h' := hk a r c' rfl hpos hheld hnear
    rw [done_bind]
    dsimp only
    revert h'
    rcases K a c' with ⟨b, c''⟩ | _ | _
    · rintro ⟨hpos', hheld', r', l', hnear', hl', hrun'⟩
      exact ⟨hpos', hheld', r', l ++ l', hnear', calm_append.mpr ⟨hl, hl'⟩,
        hrun.andThen hrun'⟩
    · intro h' f g b r' l' hdone hcalm
      obtain ⟨a₁, r₁, l₁, l₂, ho, hk', rfl⟩ := andThen_eq_done hdone
      cases hrun.2 f g _ ho
      exact h' f g b r' l₂ hk' (calm_append.mp hcalm).2
    · exact fun _ => trivial
  · intro f g b r l hdone hcalm
    obtain ⟨a, r₁, l₁, l₂, ho, -, rfl⟩ := andThen_eq_done hdone
    exact h f g a r₁ l₁ ho (calm_append.mp hcalm).1
  · trivial

/-- The bound on the rounds, one greater. -/
theorem tracks_succ {c : Cursor} {R run : Nat → Nat → Outcome (α × Reader × List Event)}
    {o : Outcome (α × Cursor)} (h : Tracks i room c R o) (hzero : ∀ f, run f 0 = outOfFuel)
    (hsucc : ∀ f g, run f (g + 1) = R f g) : Tracks i room c run o := by
  rcases o with ⟨a, c'⟩ | _ | _
  · obtain ⟨hpos, hheld, r, l, hnear, hl, ⟨N, hrun⟩, honly⟩ := h
    refine ⟨hpos, hheld, r, l, hnear, hl, ⟨N + 1, ?_⟩, ?_⟩
    · rintro f (_ | g) hf hg
      · omega
      · rw [hsucc]
        exact hrun f g (by omega) (by omega)
    · rintro f (_ | g) y hy
      · rw [hzero] at hy
        cases hy
      · rw [hsucc] at hy
        exact honly f g y hy
  · rintro f (_ | g) b r l hdone
    · rw [hzero] at hdone
      cases hdone
    · rw [hsucc] at hdone
      exact h f g b r l hdone
  · trivial

theorem tracks_loop {run : Nat → σ → Reader → Outcome ((σ ⊕ ρ) × Reader × List Event)}
    {runI : σ → Cursor → Outcome ((σ ⊕ ρ) × Cursor)}
    (h : ∀ s r c, Near room r c → Tracks i room c (fun f _ => run f s r) (runI s c)) :
    ∀ (n : Nat) (s : σ) (r : Reader) (c : Cursor), Near room r c →
      Tracks i room c (fun f g => loopRun (run f) g s r) (loopIdeal runI n s c)
  | 0, _, _, _, _ => trivial
  | n + 1, s, r, c, hnear => by
      refine tracks_succ (tracks_andThen (h s r c hnear) (k := fun f g => loopNext (loopRun (run f) g))
        (K := loopIdealNext (loopIdeal runI n)) fun next r' c' _ hpos hheld hnear' => ?_) (fun _ => rfl)
        fun _ _ => rfl
      cases next with
      | inl s' => exact (tracks_loop h n s' r' c' hnear').of_le hpos hheld
      | inr b => exact tracks_done hpos hheld hnear' calm_nil

theorem Near.hold {r : Reader} {c : Cursor} (h : Near room r c) (hroom : c.held < room) :
    Near room { r with held := r.held + 1 } { c with held := c.held + 1 } :=
  ⟨h.pos, h.short, h.failed, congrArg (· + 1) h.held, hroom, h.told⟩

/-- A loop of `count` rounds.  In the round `k`, at least `k - 1` entries are held, so the round number
does not wrap. -/
theorem tracks_times (hroom : room < 2 ^ 31 - 1) (count : BitVec 32)
    {run : Nat → σ → Reader → Outcome (Option (α × σ) × Reader × List Event)}
    {runI : σ → Cursor → Outcome (Option (α × σ) × Cursor)}
    (h : ∀ s r c, Near room r c → Tracks i room c (fun f _ => run f s r) (runI s c)) :
    ∀ (n : Nat) (k : BitVec 32) (s : σ) (r : Reader) (c : Cursor), Near room r c → 1 ≤ k.toInt →
      n = (count.toInt + 1 - k.toInt).toNat → k.toInt ≤ c.held + 1 →
      Tracks i room c (fun f g => timesRun room (run f) count g k s r) (timesIdeal room runI n s c)
  | 0, k, s, r, c, hnear, hk, hn, _ => by
      have hlast : count.slt k = true := by
        rw [BitVec.slt_eq_decide, decide_eq_true_eq]
        omega
      refine tracks_succ (R := fun _ _ => done (([], false), r, []))
        (tracks_done le_rfl le_rfl hnear calm_nil) (fun _ => rfl) fun f g => ?_
      rw [timesRun, if_pos hlast]
  | n + 1, k, s, r, c, hnear, hk, hn, hheld => by
      have hgo : ¬ count.slt k = true := by
        rw [BitVec.slt_eq_decide, decide_eq_true_eq]
        omega
      refine tracks_succ (tracks_andThen (h s r c hnear)
        (k := fun f g => timesNext room (timesRun room (run f) count g (k + 1#32)))
        (K := timesIdealNext room (timesIdeal room runI n)) fun next r' c' _ hpos hmono hnear' => ?_)
        (fun _ => rfl) fun f g => by rw [timesRun, if_neg hgo]
      rcases next with _ | ⟨x, s'⟩
      · exact tracks_done hpos hmono hnear' calm_nil
      · have hheld' := hnear'.held
        by_cases hlt : c'.held < room
        · simp only [timesNext, timesIdealNext, hheld', if_pos hlt]
          have hnext : (k + 1#32).toInt = k.toInt + 1 := by
            have h1 : (1#32).toInt = 1 := rfl
            rw [BitVec.toInt_add, h1, Int.bmod_eq_of_le (by omega) (by omega)]
          have hrest := tracks_times hroom count h n (k + 1#32) s' _ _ (hnear'.hold hlt) (by omega) (by omega)
            (by rw [hnext]; push_cast; omega)
          have hpush := tracks_andThen hrest
            (k := fun _ _ rest r => done ((x :: rest.1, rest.2), r, []))
            (K := fun rest c => done ((x :: rest.1, rest.2), c))
            fun rest r c _ hpos hheld hnear => tracks_done hpos hheld hnear calm_nil
          rw [hheld'] at hpush
          exact hpush.of_le hpos (hmono.trans (Nat.le_succ _))
        · simp only [timesNext, timesIdealNext, hheld', if_neg hlt]
          intro f g b r'' l hdone
          cases hdone

/-- One bound for both. -/
theorem Tracks.diagonal {c : Cursor} {run : Nat → Nat → Outcome (α × Reader × List Event)}
    {o : Outcome (α × Cursor)} (h : Tracks i room c run o) : Tracks i room c (fun f _ => run f f) o := by
  rcases o with ⟨a, c'⟩ | _ | _
  · obtain ⟨hpos, hheld, r, l, hnear, hl, ⟨N, hrun⟩, honly⟩ := h
    exact ⟨hpos, hheld, r, l, hnear, hl, ⟨N, fun f _ hf _ => hrun f f hf hf⟩, fun f _ y hy => honly f f y hy⟩
  · exact fun f _ b r l hdone => h f f b r l hdone
  · trivial

theorem report_told (r : Reader) (what : String) (place : Option (BitVec 32))
    (h : r.failed = true → r.msg ≠ "") : (reportTo r what place).msg ≠ "" := by
  rw [reportTo]
  by_cases hfailed : r.failed = true
  · rw [if_pos hfailed]
    exact h hfailed
  · rw [if_neg hfailed]
    simp

theorem Near.pos_eq {r : Reader} {c : Cursor} (h : Near room r c) : r.pos = BitVec.ofNat 32 c.pos := by
  rw [← h.pos, BitVec.ofNat_toNat, BitVec.setWidth_eq]

/-- A move to a place that is a natural number, and not passed. -/
theorem tracks_move {r : Reader} {c : Cursor} {new : BitVec 32} (h : Near room r c)
    (hnew : new.toNat < 2 ^ 31) (hle : c.pos ≤ new.toNat) :
    Tracks i room c (fun _ _ => done ((), { r with pos := new }, [.move r.pos new]))
      (done ((), { c with pos := new.toNat })) := by
  refine tracks_done hle le_rfl ⟨rfl, hnew, h.failed, h.held, h.fits, h.told⟩ fun e he => ?_
  obtain rfl := List.mem_singleton.mp he
  have hpos := h.pos
  have hshort := h.short
  simp only [Event.Calm, toInt_eq_toNat hnew, toInt_eq_toNat (hpos ▸ hshort)]
  omega

/-- A move back. -/
theorem tracks_back {r : Reader} {c : Cursor} {new : BitVec 32} (h : new.toInt < r.pos.toInt) :
    Tracks i room c (fun _ _ => done ((), { r with pos := new }, [.move r.pos new])) stop := by
  intro f g b r' l hdone hcalm
  cases hdone
  have hmove : r.pos.toInt ≤ new.toInt := hcalm _ (List.mem_singleton.mpr rfl)
  omega

theorem tracks_read {r : Reader} {c : Cursor} (h : Near room r c) :
    Tracks i room c (fun f _ => exec i room f .read r) (ideal i room .read c) := by
  have hpos := h.pos
  have hshort := h.short
  have hlen := i.short
  rw [ideal]
  by_cases hlt : c.pos < i.len.toNat
  · have hread : ((0#32).sle r.pos && r.pos.slt i.len) = true := by
      rw [zero_sle (by omega), Bool.true_and, slt_iff (by omega) hlen]
      omega
    have hnext : (r.pos + 1#32).toNat = c.pos + 1 := by rw [toNat_succ (by omega), hpos]
    simp only [if_pos hlt, exec, hread, require, if_true, done_bind, pure_eq, ← h.pos_eq]
    refine tracks_done (Nat.le_succ _) le_rfl ⟨hnext, Nat.lt_of_le_of_lt hlt hlen, h.failed, h.held, h.fits, h.told⟩ ?_
    have h31 : r.pos.toNat < 2 ^ 31 := by omega
    have h31' : (r.pos + 1#32).toNat < 2 ^ 31 := by omega
    intro e he
    simp only [List.mem_cons, List.not_mem_nil, or_false] at he
    rcases he with rfl | rfl
    · simp only [Event.Calm, toInt_eq_toNat h31, toInt_eq_toNat hlen]
      omega
    · simp only [Event.Calm, toInt_eq_toNat h31, toInt_eq_toNat h31']
      omega
  · have hread : ((0#32).sle r.pos && r.pos.slt i.len) = false := by
      rw [zero_sle (by omega), Bool.true_and, Bool.eq_false_iff, Ne, slt_iff (by omega) hlen]
      omega
    simp only [if_neg hlt, exec, hread, require, stop_bind, Bool.false_eq_true, if_false]
    intro f g b r' l hdone
    cases hdone

theorem tracks_skip {r : Reader} {c : Cursor} (h : Near room r c) (n : BitVec 32) :
    Tracks i room c (fun f _ => exec i room f (.skip n) r) (ideal i room (.skip n) c) := by
  have hpos := h.pos
  have hshort := h.short
  have hn := n.isLt
  simp only [exec, ideal]
  by_cases hlt : c.pos + n.toNat < 2 ^ 31
  · have hsum : (r.pos + n).toNat = c.pos + n.toNat := by rw [toNat_add_of_lt (by omega), hpos]
    rw [if_pos hlt, ← hsum]
    exact tracks_move h (by omega) (by omega)
  · rw [if_neg hlt]
    refine tracks_back ?_
    rw [toInt_eq_toNat (by omega : r.pos.toNat < 2 ^ 31), BitVec.toInt_eq_toNat_cond, BitVec.toNat_add]
    omega

theorem tracks_seek {r : Reader} {c : Cursor} (h : Near room r c) (place : BitVec 32) :
    Tracks i room c (fun f _ => exec i room f (.seek place) r) (ideal i room (.seek place) c) := by
  have hpos := h.pos
  have hshort := h.short
  have hplace := place.isLt
  simp only [exec, ideal]
  by_cases hlt : c.pos ≤ place.toNat ∧ place.toNat < 2 ^ 31
  · rw [if_pos hlt]
    exact tracks_move h hlt.2 hlt.1
  · rw [if_neg hlt]
    refine tracks_back ?_
    rw [toInt_eq_toNat (by omega : r.pos.toNat < 2 ^ 31), BitVec.toInt_eq_toNat_cond]
    omega

theorem tracks_hold {r : Reader} {c : Cursor} (h : Near room r c) :
    Tracks i room c (fun f _ => exec i room f .hold r) (ideal i room .hold c) := by
  have hheld := h.held
  simp only [exec, ideal, hheld]
  by_cases hlt : c.held < room
  · simp only [if_pos hlt]
    have hnear := h.hold hlt
    rw [hheld] at hnear
    exact tracks_done le_rfl (Nat.le_succ _) hnear calm_nil
  · simp only [if_neg hlt]
    intro f g b r' l hdone
    cases hdone

/-- **The machine follows the ideal**: where the ideal returns, every run of the machine with bounds
enough returns the same and is calm; where the ideal stops, no run that returns is calm. -/
theorem follows (hroom : room < 2 ^ 31 - 1) {α : Type} (p : Reading α) : ∀ (r : Reader) (c : Cursor),
    Near room r c → Tracks i room c (fun f _ => exec i room f p r) (ideal i room p c) := by
  induction p with
  | ret a => exact fun r c hnear => tracks_done le_rfl le_rfl hnear calm_nil
  | seq p f ihp ihf =>
    exact fun r c hnear => tracks_andThen (ihp r c hnear) (k := fun fuel _ a r => exec i room fuel (f a) r)
      fun a r c _ hpos hheld hnear => (ihf a r c hnear).of_le hpos hheld
  | read => exact fun r c hnear => tracks_read hnear
  | pos =>
    intro r c hnear
    simp only [exec, ideal, ← hnear.pos_eq]
    exact tracks_done le_rfl le_rfl hnear calm_nil
  | failed =>
    intro r c hnear
    simp only [exec, ideal, ← hnear.failed]
    exact tracks_done le_rfl le_rfl hnear calm_nil
  | report what place =>
    intro r c hnear
    have htold := report_told r what place hnear.told
    refine tracks_done le_rfl le_rfl ?_ calm_nil
    by_cases hfailed : r.failed = true
    · rw [reportTo, if_pos hfailed]
      exact ⟨hnear.pos, hnear.short, hfailed, hnear.held, hnear.fits, hnear.told⟩
    · rw [reportTo, if_neg hfailed] at htold ⊢
      exact ⟨hnear.pos, hnear.short, rfl, hnear.held, hnear.fits, fun _ => htold⟩
  | forget =>
    exact fun r c hnear => tracks_done le_rfl le_rfl
      ⟨hnear.pos, hnear.short, rfl, hnear.held, hnear.fits, fun h => absurd h (by simp)⟩ calm_nil
  | skip n => exact fun r c hnear => tracks_skip hnear n
  | seek place => exact fun r c hnear => tracks_seek hnear place
  | hold => exact fun r c hnear => tracks_hold hnear
  | times count round s ih =>
    exact fun r c hnear => (tracks_times hroom count (fun s r c hnear => ih s r c hnear) _ 1#32 s r c hnear
      (by decide) (by have h1 : (1#32).toInt = 1 := rfl; omega)
      (by have h1 : (1#32).toInt = 1 := rfl; omega)).diagonal
  | loop round s ih =>
    exact fun r c hnear => (tracks_loop (fun s r c hnear => ih s r c hnear) _ s r c hnear).diagonal

variable (room) in
/-- The states that stand for a state of the machine. -/
structure Fit (c : Cursor) : Prop where
  short : c.pos < 2 ^ 31
  fits : c.held ≤ room

theorem Fit.near {c : Cursor} (h : Fit room c) :
    Near room ⟨BitVec.ofNat 32 c.pos, c.failed, "failed", c.held⟩ c :=
  ⟨toNat_ofNat_of_lt (by have := h.short; omega), h.short, rfl, rfl, h.fits, fun _ => (by decide : "failed" ≠ "")⟩

/-- The ideal only moves forward. -/
theorem ideal_fits (hroom : room < 2 ^ 31 - 1) {p : Reading α} {c c' : Cursor} {a : α} (hc : Fit room c)
    (h : ideal i room p c = done (a, c')) : c.pos ≤ c'.pos ∧ Fit room c' := by
  have hfollows := follows (i := i) hroom p _ c hc.near
  rw [h] at hfollows
  obtain ⟨hpos, -, r, l, hnear, -⟩ := hfollows
  exact ⟨hpos, hnear.short, hnear.fits⟩

end Aipl.Lib.Reading
