import Mathlib

/-! # Paths

A path is parts with separators between them, and is walked part by part: a dot stays, two dots go back over
the name before them, and any other part is a name gone down.

* `Place`, `place` — where a path leads.
* `render`, `Canonical` — the shortest path to a place, and the paths that are such.
* `place_render` — it leads there; `canonical_iff` — the canonical paths are those of places.
* `length_render_place_le` — it is no longer than the path that was walked.
-/

namespace Aipl.Lib.Paths

variable {α : Type} [DecidableEq α] (sep dot : α)

/-- Where a path leads: from the root if `root` separators begin it, else from where one is, `ups` levels up,
and down through the names. -/
structure Place (α : Type) where
  root : Nat
  ups : Nat
  names : List (List α)

/-- A part that is a name. -/
structure IsName (part : List α) : Prop where
  ne_nil : part ≠ []
  ne_dot : part ≠ [dot]
  ne_dots : part ≠ [dot, dot]
  sep : sep ∉ part

structure Place.Valid (x : Place α) : Prop where
  root : x.root ≤ 2
  ups : x.root ≠ 0 → x.ups = 0
  names : ∀ part ∈ x.names, IsName sep dot part

/-- The parts of the way. -/
def Place.parts (x : Place α) : List (List α) := List.replicate x.ups [dot, dot] ++ x.names

/-- One part further. -/
def enter (x : Place α) (part : List α) : Place α :=
  if part = [] ∨ part = [dot] then x
  else if part = [dot, dot] then
    if x.names ≠ [] then { x with names := x.names.dropLast }
    else if x.root ≠ 0 then x
    else { x with ups := x.ups + 1 }
  else { x with names := x.names ++ [part] }

/-- Of the separators that begin a path, two stand for themselves; any other number stands for one. -/
def rootWidth (lead : Nat) : Nat := if lead = 0 then 0 else if lead = 2 then 2 else 1

def lead (p : List α) : Nat := (p.takeWhile (· = sep)).length

/-- **Where a path leads.** -/
def place (p : List α) : Place α := (p.splitOn sep).foldl (enter dot) ⟨rootWidth (lead sep p), 0, []⟩

/-- The shortest path to a place. -/
def render (x : Place α) : List α :=
  if x.root = 0 ∧ x.parts dot = [] then [dot] else List.replicate x.root sep ++ [sep].intercalate (x.parts dot)

/-- **A canonical path**: a dot alone, or names with one separator between them, after a root, or after as many
two-dot parts as there are. -/
def Canonical (q : List α) : Prop :=
  q = [dot] ∨ ∃ (root ups : Nat) (names : List (List α)),
    q = List.replicate root sep ++ [sep].intercalate (List.replicate ups [dot, dot] ++ names) ∧ q ≠ [] ∧
      root ≤ 2 ∧ (root ≠ 0 → ups = 0) ∧ ∀ part ∈ names, IsName sep dot part

variable {sep dot} {x : Place α} {part p q : List α}

/-! ### Walking -/

theorem enter_valid (hx : x.Valid sep dot) (hpart : sep ∉ part) : (enter dot x part).Valid sep dot := by
  obtain ⟨hroot, hups, hnames⟩ := hx
  rw [enter]
  split
  · exact ⟨hroot, hups, hnames⟩
  · rename_i hempty
    rw [not_or] at hempty
    split
    · split
      · exact ⟨hroot, hups, fun part hmem => hnames part ((List.dropLast_subset _) hmem)⟩
      · split
        · exact ⟨hroot, hups, hnames⟩
        · rename_i hnone
          exact ⟨hroot, fun h => absurd h hnone, hnames⟩
    · rename_i hdots
      refine ⟨hroot, hups, fun part' hmem => ?_⟩
      rcases List.mem_append.mp hmem with hmem | hmem
      · exact hnames part' hmem
      · rw [List.mem_singleton] at hmem
        subst hmem
        exact ⟨hempty.1, hempty.2, hdots, hpart⟩

theorem walk_valid {l : List (List α)} (hx : x.Valid sep dot) (hl : ∀ part ∈ l, sep ∉ part) :
    (l.foldl (enter dot) x).Valid sep dot := by
  induction l generalizing x with
  | nil => exact hx
  | cons part l ih =>
    exact ih (enter_valid hx (hl part List.mem_cons_self)) fun part' h => hl part' (List.mem_cons_of_mem _ h)

theorem rootWidth_le (n : Nat) : rootWidth n ≤ 2 ∧ rootWidth n ≤ n := by
  rw [rootWidth]
  split
  · omega
  · split
    · omega
    · omega

/-- No part has a separator in it. -/
theorem not_mem_of_mem_splitOn : ∀ {p part : List α}, part ∈ p.splitOn sep → sep ∉ part
  | [], part, h => by
      rw [List.splitOn_nil, List.mem_singleton] at h
      simp [h]
  | c :: p, part, h => by
      rw [List.splitOn_cons_eq_if_modifyHead] at h
      split at h
      · rcases List.mem_cons.mp h with rfl | h
        · exact List.not_mem_nil
        · exact not_mem_of_mem_splitOn h
      · rename_i hc
        rw [beq_iff_eq] at hc
        cases hs : p.splitOn sep with
        | nil => exact absurd hs (List.splitOn_ne_nil sep p)
        | cons first rest =>
          rw [hs, List.modifyHead_cons] at h
          have hall : ∀ part ∈ first :: rest, sep ∉ part := fun part hmem => not_mem_of_mem_splitOn (hs ▸ hmem)
          rcases List.mem_cons.mp h with rfl | h
          · rw [List.mem_cons, not_or]
            exact ⟨fun heq => hc heq.symm, hall first List.mem_cons_self⟩
          · exact hall part (List.mem_cons_of_mem _ h)

theorem place_valid (p : List α) : (place sep dot p).Valid sep dot :=
  walk_valid ⟨(rootWidth_le _).1, fun _ => rfl, fun _ h => absurd h List.not_mem_nil⟩ fun _ h => not_mem_of_mem_splitOn h

theorem enter_nil (x : Place α) : enter dot x [] = x := by
  simp [enter]

variable (dot) in
theorem length_parts_enter_le (x : Place α) (part : List α) :
    ((enter dot x part).parts dot).length ≤ (x.parts dot).length + 1 := by
  rw [enter]
  split
  · omega
  · split
    · split
      · simp only [Place.parts, List.length_append, List.length_replicate, List.length_dropLast]
        omega
      · split
        · omega
        · simp only [Place.parts, List.length_append, List.length_replicate]
          omega
    · simp only [Place.parts, List.length_append, List.length_replicate, List.length_singleton]
      omega

/-- Separators that begin a path lead nowhere. -/
theorem walk_replicate (n : Nat) (p : List α) (x : Place α) :
    ((List.replicate n sep ++ p).splitOn sep).foldl (enter dot) x = (p.splitOn sep).foldl (enter dot) x := by
  induction n with
  | zero => rfl
  | succ n ih =>
    have hsplit : (List.replicate (n + 1) sep ++ p).splitOn sep = [] :: (List.replicate n sep ++ p).splitOn sep := by
      rw [List.replicate_succ, List.cons_append]
      exact List.splitOn_append_cons_self_of_not_mem (show sep ∉ [] from List.not_mem_nil) _
    rw [hsplit, List.foldl_cons, enter_nil, ih]

theorem walk_ups (n ups : Nat) :
    (List.replicate n [dot, dot]).foldl (enter dot) ⟨0, ups, []⟩ = ⟨0, ups + n, []⟩ := by
  induction n generalizing ups with
  | zero => rfl
  | succ n ih =>
    have henter : enter dot ⟨0, ups, []⟩ [dot, dot] = ⟨0, ups + 1, []⟩ := by
      simp [enter]
    rw [List.replicate_succ, List.foldl_cons, henter, ih, Nat.add_assoc, Nat.add_comm 1 n]

theorem walk_names {l : List (List α)} (hl : ∀ part ∈ l, IsName sep dot part) :
    l.foldl (enter dot) x = { x with names := x.names ++ l } := by
  induction l generalizing x with
  | nil => simp
  | cons part l ih =>
    have hpart := hl part List.mem_cons_self
    have henter : enter dot x part = { x with names := x.names ++ [part] } := by
      simp [enter, hpart.ne_nil, hpart.ne_dot, hpart.ne_dots]
    rw [List.foldl_cons, henter, ih fun part' h => hl part' (List.mem_cons_of_mem _ h)]
    simp

theorem mem_names_walk {l : List (List α)} : ∀ {x : Place α}, part ∈ (l.foldl (enter dot) x).names → part ∈ x.names ∨ part ∈ l := by
  induction l with
  | nil => exact fun h => .inl h
  | cons part' l ih =>
    intro x h
    rcases ih h with h | h
    · rw [enter] at h
      split at h
      · exact .inl h
      · split at h
        · split at h
          · exact .inl ((List.dropLast_subset _) h)
          · split at h
            · exact .inl h
            · exact .inl h
        · rcases List.mem_append.mp h with h | h
          · exact .inl h
          · exact .inr (List.mem_singleton.mp h ▸ List.mem_cons_self)
    · exact .inr (List.mem_cons_of_mem _ h)

/-- **Separators inside a path** lead no further than one does. -/
theorem place_separators (n : Nat) (hp : ∃ c ∈ p, c ≠ sep) (q : List α) :
    place sep dot (p ++ sep :: (List.replicate n sep ++ q)) = place sep dot (p ++ sep :: q) := by
  have hlead : ∀ r, lead sep (p ++ r) = lead sep p := fun r => by
    have hsome : p.takeWhile (· = sep) ≠ p := fun heq => by
      obtain ⟨c, hc, hne⟩ := hp
      rw [← heq] at hc
      exact hne (by simpa using List.mem_takeWhile_imp hc)
    rw [lead, List.takeWhile_append, if_neg, lead]
    intro hlen
    exact hsome ((List.takeWhile_prefix _).eq_of_length hlen)
  rw [place, place, hlead, hlead, List.splitOn_append_cons_self, List.splitOn_append_cons_self, List.foldl_append,
    List.foldl_append, walk_replicate]

/-- The parts of a way lead where it leads. -/
theorem walk_parts (hx : x.Valid sep dot) : (x.parts dot).foldl (enter dot) ⟨x.root, 0, []⟩ = x := by
  rw [Place.parts, List.foldl_append]
  have hups : (List.replicate x.ups [dot, dot]).foldl (enter dot) ⟨x.root, 0, []⟩ = ⟨x.root, x.ups, []⟩ := by
    by_cases hroot : x.root = 0
    · rw [hroot, walk_ups, Nat.zero_add]
    · rw [hx.ups hroot]
      rfl
  rw [hups, walk_names hx.names, List.nil_append]

/-! ### The shortest path -/

omit [DecidableEq α] in
theorem ne_nil_of_mem_parts (hx : x.Valid sep dot) (h : part ∈ x.parts dot) : part ≠ [] := by
  rcases List.mem_append.mp h with h | h
  · rw [List.eq_of_mem_replicate h]
    exact List.cons_ne_nil _ _
  · exact (hx.names part h).ne_nil

omit [DecidableEq α] in
theorem not_mem_of_mem_parts (hsep : dot ≠ sep) (hx : x.Valid sep dot) (h : part ∈ x.parts dot) : sep ∉ part := by
  rcases List.mem_append.mp h with h | h
  · rw [List.eq_of_mem_replicate h]
    simp [hsep.symm]
  · exact (hx.names part h).sep

theorem lead_replicate (n : Nat) (h : ∀ c r, p = c :: r → c ≠ sep) : lead sep (List.replicate n sep ++ p) = n := by
  have htake : p.takeWhile (· = sep) = [] := by
    cases p with
    | nil => rfl
    | cons c r => simp [h c r rfl]
  rw [lead, List.takeWhile_append_of_pos (by simp), htake, List.append_nil, List.length_replicate]

theorem rootWidth_of_le {n : Nat} (h : n ≤ 2) : rootWidth n = n := by
  rw [rootWidth]
  split
  · omega
  · split
    · omega
    · omega

/-- **The shortest path leads to the place.** -/
theorem place_render (hsep : dot ≠ sep) (hx : x.Valid sep dot) : place sep dot (render sep dot x) = x := by
  rw [render]
  split
  · rename_i hhere
    obtain ⟨hroot, hnone⟩ := hhere
    rw [Place.parts, List.append_eq_nil_iff, List.replicate_eq_nil_iff] at hnone
    have hlead : lead sep [dot] = 0 := by simp [lead, hsep]
    rw [place, hlead, List.splitOn_eq_singleton (by simp [hsep.symm])]
    obtain ⟨root, ups, names⟩ := x
    obtain ⟨rfl, rfl⟩ := hnone
    obtain rfl : root = 0 := hroot
    simp [enter, rootWidth]
  · have hlead : lead sep (List.replicate x.root sep ++ [sep].intercalate (x.parts dot)) = x.root := by
      refine lead_replicate x.root fun c r heq => ?_
      cases hp : x.parts dot with
      | nil =>
        rw [hp] at heq
        cases heq
      | cons first rest =>
        have hmem : first ∈ x.parts dot := hp ▸ List.mem_cons_self
        have hfirst := not_mem_of_mem_parts hsep hx hmem
        obtain ⟨d, first, rfl⟩ := List.exists_cons_of_ne_nil (ne_nil_of_mem_parts hx hmem)
        have hhead : c = d := by
          rw [hp] at heq
          cases rest with
          | nil =>
            rw [List.intercalate_singleton] at heq
            exact (List.cons.inj heq).1.symm
          | cons second rest =>
            rw [List.intercalate_cons_cons] at heq
            exact (List.cons.inj heq).1.symm
        rintro rfl
        exact hfirst (hhead ▸ List.mem_cons_self)
    rw [place, hlead, rootWidth_of_le hx.root, walk_replicate]
    by_cases hnil : x.parts dot = []
    · rw [hnil, List.intercalate_nil, List.splitOn_nil, List.foldl_cons, enter_nil, List.foldl_nil]
      have hwalk := walk_parts hx
      rwa [hnil] at hwalk
    · rw [List.splitOn_intercalate sep (fun part h => not_mem_of_mem_parts hsep hx h) hnil, walk_parts hx]

omit [DecidableEq α] in
theorem way_eq_nil_iff (hx : x.Valid sep dot) :
    List.replicate x.root sep ++ [sep].intercalate (x.parts dot) = [] ↔ x.root = 0 ∧ x.parts dot = [] := by
  rw [List.append_eq_nil_iff, List.replicate_eq_nil_iff]
  refine and_congr_right fun _ => ⟨fun hempty => ?_, fun hnil => by rw [hnil, List.intercalate_nil]⟩
  cases hp : x.parts dot with
  | nil => rfl
  | cons first rest =>
    have hfirst := ne_nil_of_mem_parts hx (show first ∈ x.parts dot from hp ▸ List.mem_cons_self)
    rw [hp] at hempty
    cases rest with
    | nil => exact absurd (List.intercalate_singleton.symm.trans hempty) hfirst
    | cons second rest =>
      rw [List.intercalate_cons_cons, List.append_eq_nil_iff, List.append_eq_nil_iff] at hempty
      exact absurd hempty.1.1 hfirst

omit [DecidableEq α] in
theorem canonical_iff : Canonical sep dot q ↔ ∃ x : Place α, x.Valid sep dot ∧ q = render sep dot x := by
  constructor
  · rintro (rfl | ⟨root, ups, names, hq, hne, hroot, hups, hnames⟩)
    · exact ⟨⟨0, 0, []⟩, ⟨Nat.zero_le _, fun _ => rfl, fun _ h => absurd h List.not_mem_nil⟩, by simp [render, Place.parts]⟩
    · refine ⟨⟨root, ups, names⟩, ⟨hroot, hups, hnames⟩, ?_⟩
      rw [render, if_neg, hq]
      · rfl
      · rintro ⟨hroot0, hnil⟩
        dsimp only [Place.parts] at hroot0 hnil
        rw [hroot0, hnil] at hq
        exact hne hq
  · rintro ⟨x, hx, rfl⟩
    rw [render]
    split
    · exact .inl rfl
    · rename_i hhere
      exact .inr ⟨x.root, x.ups, x.names, rfl, fun hnil => hhere ((way_eq_nil_iff hx).mp hnil), hx.root, hx.ups, hx.names⟩

omit [DecidableEq α] in
theorem canonical_render (hx : x.Valid sep dot) : Canonical sep dot (render sep dot x) := canonical_iff.mpr ⟨x, hx, rfl⟩

/-- **There is one canonical path to a place.** -/
theorem Canonical.eq_render (hsep : dot ≠ sep) (hq : Canonical sep dot q) : q = render sep dot (place sep dot q) := by
  obtain ⟨x, hx, rfl⟩ := canonical_iff.mp hq
  rw [place_render hsep hx]

/-! ### Its length -/

/-- The length of parts, each with a separator. -/
def weight (l : List (List α)) : Nat := (l.map fun part => part.length + 1).sum

omit [DecidableEq α] in
theorem weight_append (l l' : List (List α)) : weight (l ++ l') = weight l + weight l' := by
  simp [weight]

theorem weight_splitOn : ∀ p : List α, weight (p.splitOn sep) = p.length + 1
  | [] => by simp [weight]
  | c :: p => by
      have ih := weight_splitOn p
      rw [List.splitOn_cons_eq_if_modifyHead]
      split
      · rw [show ([] : List α) :: p.splitOn sep = [[]] ++ p.splitOn sep from rfl, weight_append, ih]
        simp [weight]
        omega
      · cases hs : p.splitOn sep with
        | nil => exact absurd hs (List.splitOn_ne_nil sep p)
        | cons first rest =>
          rw [hs] at ih
          simp only [weight, List.map_cons, List.sum_cons, List.modifyHead_cons, List.length_cons] at ih ⊢
          omega

omit [DecidableEq α] in
theorem weight_dropLast_le (l : List (List α)) : weight l.dropLast ≤ weight l := by
  rcases List.eq_nil_or_concat l with rfl | ⟨l, part, rfl⟩
  · exact Nat.le_refl _
  · rw [List.concat_eq_append, List.dropLast_concat, weight_append]
    exact Nat.le_add_right _ _

variable (dot) in
theorem weight_enter_le (x : Place α) (part : List α) :
    weight ((enter dot x part).parts dot) ≤ weight (x.parts dot) + (part.length + 1) := by
  rw [enter]
  split
  · exact Nat.le_add_right _ _
  · split
    · rename_i hdots
      split
      · rw [Place.parts, Place.parts, weight_append, weight_append]
        have := weight_dropLast_le x.names
        dsimp only
        omega
      · split
        · exact Nat.le_add_right _ _
        · rw [hdots, Place.parts, Place.parts, weight_append, weight_append, List.replicate_succ', weight_append]
          dsimp only
          simp [weight]
          omega
    · rw [Place.parts, Place.parts, weight_append, weight_append, weight_append]
      simp [weight]
      omega

variable (dot) in
theorem weight_walk_le (l : List (List α)) (x : Place α) :
    weight ((l.foldl (enter dot) x).parts dot) ≤ weight (x.parts dot) + weight l := by
  induction l generalizing x with
  | nil => exact Nat.le_add_right _ _
  | cons part l ih =>
    have hstep := weight_enter_le dot x part
    have hrest := ih (enter dot x part)
    simp only [List.foldl_cons]
    rw [show part :: l = [part] ++ l from rfl, weight_append]
    have hone : weight [part] = part.length + 1 := by simp [weight]
    omega

variable (sep) in
omit [DecidableEq α] in
theorem length_intercalate (l : List (List α)) (hl : l ≠ []) : ([sep].intercalate l).length + 1 = weight l := by
  induction l with
  | nil => exact absurd rfl hl
  | cons part l ih =>
    cases l with
    | nil => simp [weight]
    | cons part' l =>
      have ih' := ih (List.cons_ne_nil _ _)
      rw [List.intercalate_cons_cons, List.length_append, List.length_append]
      rw [show part :: part' :: l = [part] ++ part' :: l from rfl, weight_append, ← ih']
      simp [weight]
      omega

theorem enter_root (x : Place α) (part : List α) : (enter dot x part).root = x.root := by
  rw [enter]
  split
  · rfl
  · split
    · split
      · rfl
      · split <;> rfl
    · rfl

variable (sep dot) in
theorem place_root (p : List α) : (place sep dot p).root = rootWidth (lead sep p) := by
  have hwalk : ∀ (l : List (List α)) (x : Place α), (l.foldl (enter dot) x).root = x.root := fun l => by
    induction l with
    | nil => exact fun _ => rfl
    | cons part l ih => exact fun x => (ih _).trans (enter_root x part)
  exact hwalk _ _

/-- The way is no longer than the path that was walked. -/
theorem length_way_le (p : List α) :
    (List.replicate (place sep dot p).root sep ++ [sep].intercalate ((place sep dot p).parts dot)).length ≤ p.length := by
  have hroot := place_root sep dot p
  have hwidth := rootWidth_le (lead sep p)
  -- the separators that begin the path, and the rest of it
  have hsplit : p = List.replicate (lead sep p) sep ++ p.dropWhile (· = sep) := by
    have hall : p.takeWhile (· = sep) = List.replicate (lead sep p) sep :=
      List.eq_replicate_iff.mpr ⟨rfl, fun c hc => by simpa using List.mem_takeWhile_imp hc⟩
    rw [← hall, List.takeWhile_append_dropWhile]
  have hlen : p.length = lead sep p + (p.dropWhile (· = sep)).length := by
    conv_lhs => rw [hsplit]
    rw [List.length_append, List.length_replicate]
  have hweight : weight ((place sep dot p).parts dot) ≤ (p.dropWhile (· = sep)).length + 1 := by
    have hwalk := weight_walk_le dot ((p.dropWhile (· = sep)).splitOn sep) ⟨rootWidth (lead sep p), 0, []⟩
    rw [weight_splitOn, ← walk_replicate (lead sep p), ← hsplit] at hwalk
    have hnone : weight (Place.parts dot (⟨rootWidth (lead sep p), 0, []⟩ : Place α)) = 0 := rfl
    rw [hnone, Nat.zero_add] at hwalk
    exact hwalk
  rw [List.length_append, List.length_replicate, hroot]
  by_cases hnil : (place sep dot p).parts dot = []
  · rw [hnil, List.intercalate_nil, List.length_nil]
    omega
  · have := length_intercalate sep _ hnil
    omega

/-- **The shortest path is no longer** than any there, of which the empty one leads where a dot does. -/
theorem length_render_place_le (p : List α) : (render sep dot (place sep dot p)).length ≤ max p.length 1 := by
  rw [render]
  split
  · exact Nat.le_max_right _ _
  · exact Nat.le_trans (length_way_le p) (Nat.le_max_left _ _)

end Aipl.Lib.Paths
