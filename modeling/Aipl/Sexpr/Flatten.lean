import Aipl.Consts.Expansion

/-! # S-expressions read and flattened

* `read`, `readOne`, `flatten` — a form read from tokens, and its tokens.
* `Built` — what the passes make of the forms that are read; `substitute_built` — the constants' pass does.
* `expanded_items_read` — so the parser is given the items of an expanded program.
* `flatten_roundTrip` — what is read flattens to what was read, and what is built reads back.
-/

namespace Aipl

open Aipl.Lib Aipl.Lib.Outcome

namespace TokenKind

/-- An opening bracket. -/
def opens (k : TokenKind) : Bool := k = .lparen ∨ k = .lbracket

def closes (k : TokenKind) : Bool := k = .rparen ∨ k = .rbracket

/-- The bracket that closes one that opens. -/
def closer (k : TokenKind) : TokenKind := if k = .lparen then .rparen else .rbracket

end TokenKind

namespace Sx

/-! ### Reading and flattening -/

/-- A round of the loop over a list's items: the items so far, and the place.  `inner` reads an item. -/
def itemsRound (tokens : List Token) (inner : Nat → Outcome (Except String (Sx × Nat))) (tok : Token) (s : List Sx × Nat) :
    Outcome (List Sx × Nat ⊕ Except String (Sx × Nat)) :=
  match tokens[s.2]? with
  | none => done (.inr (.error s!"{tok.line}:{tok.col}: this bracket is never closed"))
  | some t =>
    if t.kind = tok.kind.closer then done (.inr (.ok (.list tok s.1 t, s.2 + 1)))
    else if t.kind.closes then done (.inr (.error s!"{t.line}:{t.col}: mismatched closing bracket"))
    else inner s.2 >>= fun
      | .error e => done (.inr (.error e))
      | .ok r => done (.inl (s.1 ++ [r.1], r.2))

/-- One form from `pos` on, and the place after it. -/
def read (tokens : List Token) : Nat → Nat → Outcome (Except String (Sx × Nat))
  | 0, _ => outOfFuel
  | fuel + 1, pos =>
    match tokens[pos]? with
    | none => done (.error "unexpected end of input")
    | some tok =>
      if tok.kind.opens then iterate (itemsRound tokens (read tokens fuel) tok) (fuel + 1) ([], pos + 1)
      else if tok.kind.closes then done (.error s!"{tok.line}:{tok.col}: unexpected closing bracket")
      else done (.ok (.atom tok, pos + 1))

/-- Whether a string's last `{` placeholder is never closed, from its bytes; `opened` is whether one is open. -/
def endsInPlaceholder : Bool → List UInt8 → Bool
  | opened, [] => opened
  | false, 123 :: 123 :: b => endsInPlaceholder false b
  | _, 123 :: b => endsInPlaceholder true b
  | true, 125 :: b => endsInPlaceholder false b
  | false, 125 :: 125 :: b => endsInPlaceholder false b
  | opened, _ :: b => endsInPlaceholder opened b

/-- What a bracket error says when a string literal ends inside a placeholder. -/
def openPlaceholder : String :=
  "this string ends inside a placeholder whose \x7b is never closed: write a string inside a placeholder as \\\"...\\\" (a backslash, then a quote), or bind the value with let first"

/-- A string that ends inside a placeholder, with more code after it. -/
def splitAt : List Token → Option Token
  | t :: n :: rest =>
    match t.kind with
    | .stringLit s => if endsInPlaceholder false s.toUTF8.toList ∧ n.kind.closes = false then some t else splitAt (n :: rest)
    | _ => splitAt (n :: rest)
  | _ => none

/-- The whole input as one form. -/
def readOne (fuel : Nat) (tokens : List Token) : Outcome (Except String Sx) := do
  let r ← read tokens fuel 0
  let r := match r with
    | .error e => Except.error e
    | .ok (sx, pos) =>
      match tokens[pos]? with
      | some t => .error s!"{t.line}:{t.col}: unexpected input after the module's closing ')'"
      | none => .ok sx
  match r with
  | .ok sx => pure (.ok sx)
  | .error e =>
    match splitAt tokens with
    | some t => pure (.error s!"{t.line}:{t.col}: {openPlaceholder}")
    | none => pure (.error e)

mutual

/-- The form's tokens after `out`. -/
def flatten : Sx → List Token → List Token
  | .atom t, out => out ++ [t]
  | .list o items c, out => flattenItems items (out ++ [o]) ++ [c]

def flattenItems : List Sx → List Token → List Token
  | [], out => out
  | i :: items, out => flattenItems items (flatten i out)

end

/-! ### What the passes build -/

/-- `list_at`, `list`: a `(...)` list at a place. -/
def listAt (items : List Sx) (line col : Nat) : Sx := .list ⟨.lparen, line, col⟩ items ⟨.rparen, line, col⟩

/-- `bracket`: a `[...]` list at a place. -/
def bracketAt (items : List Sx) (line col : Nat) : Sx := .list ⟨.lbracket, line, col⟩ items ⟨.rbracket, line, col⟩

mutual

/-- `move_to`, `placed`: every token at a place. -/
def moveTo (line col : Nat) : Sx → Sx
  | .atom t => .atom { t with line, col }
  | .list o items c => .list { o with line, col } (moveItems line col items) { c with line, col }

def moveItems (line col : Nat) : List Sx → List Sx
  | [] => []
  | i :: items => moveTo line col i :: moveItems line col items

end

/-- A tree the front end builds: one that is read, an atom of a kind that is no bracket (`symbol_at`, `string_at`, `int_at`,
a literal, a colon, an arrow), a list of built items (`list_at`, `bracket`), an item of a list, a list whose items are
changed (`items_mut`), and a tree that is moved. -/
inductive Built : Sx → Prop
  | read {tokens : List Token} {fuel : Nat} {t : Sx} (hfuel : tokens.length < fuel) (h : readOne fuel tokens = done (.ok t)) : Built t
  | atom {t : Token} (hopens : t.kind.opens = false) (hcloses : t.kind.closes = false) : Built (.atom t)
  | listAt {items : List Sx} {line col : Nat} (h : ∀ i ∈ items, Built i) : Built (listAt items line col)
  | bracketAt {items : List Sx} {line col : Nat} (h : ∀ i ∈ items, Built i) : Built (bracketAt items line col)
  | item {o c : Token} {items : List Sx} {i : Sx} (h : Built (.list o items c)) (hi : i ∈ items) : Built i
  | withItems {o c : Token} {items items' : List Sx} (h : Built (.list o items c)) (h' : ∀ i ∈ items', Built i) :
      Built (.list o items' c)
  | moveTo {t : Sx} {line col : Nat} (h : Built t) : Built (t.moveTo line col)

/-- Brackets are where brackets belong, and close what they open. -/
inductive Formed : Sx → Prop
  | atom {t : Token} (hopens : t.kind.opens = false) (hcloses : t.kind.closes = false) : Formed (.atom t)
  | list {o c : Token} {items : List Sx} (ho : o.kind.opens = true) (hc : c.kind = o.kind.closer) (h : ∀ i ∈ items, Formed i) :
      Formed (.list o items c)

/-! ### Tokens -/

variable {tokens rest : List Token} {t i : Sx} {tok c : Token} {pos : Nat}

theorem closes_closer (k : TokenKind) : k.closer.closes = true := by
  rw [TokenKind.closer]
  split <;> rfl

mutual

theorem flatten_append : ∀ (t : Sx) (out : List Token), flatten t out = out ++ flatten t []
  | .atom t, out => rfl
  | .list o items c, out => by
      rw [flatten, flatten, flattenItems_append items (out ++ [o]), flattenItems_append items ([] ++ [o])]
      simp

theorem flattenItems_append : ∀ (items : List Sx) (out : List Token), flattenItems items out = out ++ flattenItems items []
  | [], out => (List.append_nil out).symm
  | i :: items, out => by
      rw [flattenItems, flattenItems, flattenItems_append items (flatten i out), flattenItems_append items (flatten i []),
        flatten_append i out, List.append_assoc]

end

theorem flatten_list (o c : Token) (items : List Sx) : flatten (.list o items c) [] = o :: (flattenItems items [] ++ [c]) := by
  rw [flatten, flattenItems_append]
  rfl

theorem flattenItems_cons (i : Sx) (items : List Sx) : flattenItems (i :: items) [] = flatten i [] ++ flattenItems items [] := by
  rw [flattenItems, flattenItems_append]

theorem flattenItems_eq (items : List Sx) : flattenItems items [] = items.flatMap fun i => flatten i [] := by
  induction items with
  | nil => rfl
  | cons i items ih => rw [flattenItems_cons, ih, List.flatMap_cons]

theorem flattenItems_concat (items : List Sx) (i : Sx) : flattenItems (items ++ [i]) [] = flattenItems items [] ++ flatten i [] := by
  rw [flattenItems_eq, flattenItems_eq, List.flatMap_append, List.flatMap_singleton]

/-- An item is no longer than the list it is in. -/
theorem length_item_le {items : List Sx} (hi : i ∈ items) : (flatten i []).length ≤ (flattenItems items []).length := by
  rw [flattenItems_eq, List.flatMap_def]
  exact (List.sublist_flatten_of_mem (List.mem_map_of_mem (f := fun i => flatten i []) hi)).length_le

/-- A form begins with a token that closes nothing. -/
theorem Formed.first (h : Formed t) : ∃ tok toks, flatten t [] = tok :: toks ∧ tok.kind.closes = false := by
  cases h with
  | atom _ hcloses => exact ⟨_, _, rfl, hcloses⟩
  | @list o c items ho _ _ =>
    refine ⟨_, _, flatten_list o c items, ?_⟩
    have hnone : ∀ k : TokenKind, k.opens = true → k.closes = false := by
      intro k hk
      cases k <;> first | rfl | cases hk
    exact hnone _ ho

theorem length_items_le : ∀ {items : List Sx}, (∀ i ∈ items, Formed i) → items.length ≤ (flattenItems items []).length
  | [], _ => Nat.zero_le _
  | i :: items, h => by
      have hrest := length_items_le fun j hj => h j (List.mem_cons_of_mem _ hj)
      obtain ⟨tok, toks, hfirst, -⟩ := (h i List.mem_cons_self).first
      rw [flattenItems_cons, hfirst, List.length_append, List.length_cons, List.length_cons]
      omega

/-! ### What is read is flattened back -/

/-- From `pos` up to `pos'` the tokens are those of `t`. -/
structure Reads (tokens : List Token) (pos : Nat) (t : Sx) (pos' : Nat) : Prop where
  flat : tokens.drop pos = flatten t [] ++ tokens.drop pos'
  lt : pos < pos'
  le : pos' ≤ tokens.length
  formed : Formed t

theorem drop_of_getElem? (h : tokens[pos]? = some tok) : tokens.drop pos = tok :: tokens.drop (pos + 1) := by
  obtain ⟨hlt, rfl⟩ := List.getElem?_eq_some_iff.mp h
  exact List.drop_eq_getElem_cons hlt

theorem getElem?_of_drop (h : tokens.drop pos = tok :: rest) : tokens[pos]? = some tok := by
  have hget : (tokens.drop pos)[0]? = tokens[pos]? := by rw [List.getElem?_drop, Nat.add_zero]
  rw [← hget, h]
  rfl

/-- **The loop over the items** ends, and what it makes of them are the tokens that were read. -/
theorem itemsLoop_sound {inner : Nat → Outcome (Except String (Sx × Nat))} (htok : tokens[pos]? = some tok)
    (hopens : tok.kind.opens = true)
    (hinner : ∀ p, pos < p → ∃ r, inner p = done r ∧ ∀ t p', r = .ok (t, p') → Reads tokens p t p') :
    ∀ (f : Nat) (items : List Sx) (p : Nat), tokens.length - p < f → pos < p → (∀ i ∈ items, Formed i) →
      tokens.drop (pos + 1) = flattenItems items [] ++ tokens.drop p →
      ∃ r, iterate (itemsRound tokens inner tok) f (items, p) = done r ∧ ∀ t p', r = .ok (t, p') → Reads tokens pos t p'
  | f + 1, items, p, hf, hp, hitems, hdrop => by
      rw [iterate, itemsRound]
      dsimp only
      cases hget : tokens[p]? with
      | none => exact ⟨_, rfl, fun t p' h => by cases h⟩
      | some t =>
        have hlt := (List.getElem?_eq_some_iff.mp hget).1
        dsimp only
        by_cases hclose : t.kind = tok.kind.closer
        · rw [if_pos hclose]
          refine ⟨_, rfl, fun t' p' h => ?_⟩
          cases h
          refine ⟨?_, by omega, hlt, .list hopens hclose hitems⟩
          rw [drop_of_getElem? htok, hdrop, drop_of_getElem? hget, flatten_list]
          simp
        · rw [if_neg hclose]
          by_cases hcloses : t.kind.closes = true
          · rw [if_pos hcloses]
            exact ⟨_, rfl, fun t p' h => by cases h⟩
          · rw [if_neg hcloses]
            obtain ⟨r, hr, hreads⟩ := hinner p hp
            rw [hr, done_bind]
            cases r with
            | error e => exact ⟨_, rfl, fun t p' h => by cases h⟩
            | ok r =>
              obtain ⟨i, p'⟩ := r
              have hi := hreads i p' rfl
              refine itemsLoop_sound htok hopens hinner f (items ++ [i]) p' ?_ (hp.trans hi.lt) ?_ ?_
              · have := hi.lt
                omega
              · intro j hj
                rcases List.mem_append.mp hj with hj | hj
                · exact hitems j hj
                · rw [List.mem_singleton.mp hj]
                  exact hi.formed
              · rw [hdrop, hi.flat, flattenItems_concat, List.append_assoc]

/-- **Reading ends**, and what is read are the tokens it was read from. -/
theorem read_sound (tokens : List Token) : ∀ (fuel pos : Nat), tokens.length - pos < fuel →
    ∃ r, read tokens fuel pos = done r ∧ ∀ t p', r = .ok (t, p') → Reads tokens pos t p'
  | fuel + 1, pos, hfuel => by
      rw [read]
      cases hget : tokens[pos]? with
      | none => exact ⟨_, rfl, fun t p' h => by cases h⟩
      | some tok =>
        have hlt := (List.getElem?_eq_some_iff.mp hget).1
        dsimp only
        by_cases hopens : tok.kind.opens = true
        · rw [if_pos hopens]
          exact itemsLoop_sound hget hopens (fun p hp => read_sound tokens fuel p (by omega)) (fuel + 1) [] (pos + 1) (by omega)
            (Nat.lt_succ_self pos) (fun i hi => by cases hi) rfl
        · rw [if_neg hopens]
          by_cases hcloses : tok.kind.closes = true
          · rw [if_pos hcloses]
            exact ⟨_, rfl, fun t p' h => by cases h⟩
          · rw [if_neg hcloses]
            refine ⟨_, rfl, fun t p' h => ?_⟩
            cases h
            exact ⟨drop_of_getElem? hget, Nat.lt_succ_self pos, hlt, .atom (Bool.not_eq_true _ ▸ hopens) (Bool.not_eq_true _ ▸ hcloses)⟩

/-! ### What is flattened is read back -/

/-- **The loop over the items** reads items whose tokens are there. -/
theorem itemsLoop_complete {inner : Nat → Outcome (Except String (Sx × Nat))} (hc : c.kind = tok.kind.closer) :
    ∀ (todo : List Sx) (f : Nat) (items : List Sx) (p : Nat), (∀ i ∈ todo, Formed i) →
      (∀ i ∈ todo, ∀ p rest, tokens.drop p = flatten i [] ++ rest → inner p = done (.ok (i, p + (flatten i []).length))) →
      todo.length < f → tokens.drop p = flattenItems todo [] ++ c :: rest →
      iterate (itemsRound tokens inner tok) f (items, p) =
        done (.ok (.list tok (items ++ todo) c, p + (flattenItems todo []).length + 1))
  | [], f + 1, items, p, _, _, _, hdrop => by
      rw [iterate, itemsRound]
      dsimp only
      rw [getElem?_of_drop hdrop]
      dsimp only
      rw [if_pos hc, List.append_nil]
      rfl
  | i :: todo, f + 1, items, p, hformed, hinner, hf, hdrop => by
      rw [flattenItems_cons, List.append_assoc] at hdrop
      obtain ⟨first, toks, hfirst, hopen⟩ := (hformed i List.mem_cons_self).first
      have hget : tokens[p]? = some first := by
        rw [hfirst, List.cons_append] at hdrop
        exact getElem?_of_drop hdrop
      have hne : first.kind ≠ tok.kind.closer := by
        intro h
        rw [h, closes_closer] at hopen
        cases hopen
      have hnext : tokens.drop (p + (flatten i []).length) = flattenItems todo [] ++ c :: rest := by
        rw [← List.drop_drop, hdrop, List.drop_left]
      have hrest := itemsLoop_complete hc todo f (items ++ [i]) _ (fun j hj => hformed j (List.mem_cons_of_mem _ hj))
        (fun j hj => hinner j (List.mem_cons_of_mem _ hj)) (Nat.lt_of_succ_lt_succ hf) hnext
      rw [iterate, itemsRound]
      dsimp only
      rw [hget]
      dsimp only
      rw [if_neg hne, hopen, if_neg Bool.false_ne_true, hinner i List.mem_cons_self p _ hdrop, done_bind, flattenItems_cons,
        List.length_append, ← Nat.add_assoc]
      rw [List.append_assoc] at hrest
      exact hrest

/-- **A form's tokens are read as the form.** -/
theorem read_flatten (h : Formed t) : ∀ (fuel pos : Nat) (rest : List Token), tokens.drop pos = flatten t [] ++ rest →
    (flatten t []).length < fuel → read tokens fuel pos = done (.ok (t, pos + (flatten t []).length)) := by
  induction h with
  | atom hopens hcloses =>
    intro fuel pos rest hdrop hfuel
    obtain ⟨fuel, rfl⟩ := Nat.exists_eq_succ_of_ne_zero (Nat.ne_of_gt (Nat.lt_of_le_of_lt (Nat.zero_le _) hfuel))
    rw [read, getElem?_of_drop hdrop]
    dsimp only
    rw [hopens, if_neg Bool.false_ne_true, hcloses, if_neg Bool.false_ne_true]
    rfl
  | @list o c items ho hc hformed ih =>
    intro fuel pos rest hdrop hfuel
    obtain ⟨fuel, rfl⟩ := Nat.exists_eq_succ_of_ne_zero (Nat.ne_of_gt (Nat.lt_of_le_of_lt (Nat.zero_le _) hfuel))
    have hlen := length_items_le hformed
    rw [flatten_list, List.cons_append, List.append_assoc] at hdrop
    rw [flatten_list, List.length_cons, List.length_append, List.length_singleton] at hfuel
    have hitems : tokens.drop (pos + 1) = flattenItems items [] ++ c :: rest := by
      rw [← List.drop_drop, hdrop]
      rfl
    have hloop := @itemsLoop_complete _ _ _ _ (read tokens fuel) hc items (fuel + 1) [] (pos + 1) hformed
      (fun i hi p rest hp => ih i hi fuel p rest hp (by have := length_item_le hi; omega)) (by omega) hitems
    rw [read, getElem?_of_drop hdrop]
    dsimp only
    rw [if_pos ho, hloop, flatten_list, List.length_cons, List.length_append, List.length_singleton, List.nil_append]
    congr 3
    omega

/-! ### Whole programs -/

theorem readOne_ok {fuel : Nat} (h : readOne fuel tokens = done (.ok t)) :
    ∃ p, read tokens fuel 0 = done (.ok (t, p)) ∧ tokens[p]? = none := by
  rw [readOne] at h
  obtain ⟨r, hread, h⟩ := bind_eq_done h
  rw [hread]
  cases r with
  | error e =>
    dsimp only at h
    split at h <;> cases h
  | ok r =>
    obtain ⟨sx, p⟩ := r
    dsimp only at h
    cases hget : tokens[p]? with
    | none =>
      rw [hget] at h
      cases h
      exact ⟨p, rfl, hget⟩
    | some next =>
      rw [hget] at h
      dsimp only at h
      split at h <;> cases h

/-- What is read whole are all the tokens. -/
theorem readOne_sound {fuel : Nat} (hfuel : tokens.length < fuel) (h : readOne fuel tokens = done (.ok t)) :
    flatten t [] = tokens ∧ Formed t := by
  obtain ⟨p, hread, hend⟩ := readOne_ok h
  obtain ⟨r, hr, hreads⟩ := read_sound tokens fuel 0 (by omega)
  rw [hread] at hr
  cases hr
  have ht := hreads t p rfl
  have hflat := ht.flat
  rw [List.drop_zero, List.drop_of_length_le (List.getElem?_eq_none_iff.mp hend), List.append_nil] at hflat
  exact ⟨hflat.symm, ht.formed⟩

/-- Reading a whole program ends. -/
theorem readOne_ends {fuel : Nat} (hfuel : tokens.length < fuel) : ∃ r, readOne fuel tokens = done r := by
  obtain ⟨r, hr, -⟩ := read_sound tokens fuel 0 (by omega)
  rw [readOne, hr, done_bind]
  dsimp only
  split
  · exact ⟨_, rfl⟩
  · split <;> exact ⟨_, rfl⟩

theorem readOne_complete {fuel : Nat} (h : Formed t) (hfuel : (flatten t []).length < fuel) :
    readOne fuel (flatten t []) = done (.ok t) := by
  have hread : read (flatten t []) fuel 0 = done (.ok (t, 0 + (flatten t []).length)) :=
    read_flatten h fuel 0 [] (by rw [List.drop_zero, List.append_nil]) hfuel
  rw [readOne, hread, done_bind, Nat.zero_add]
  dsimp only
  rw [List.getElem?_eq_none le_rfl]
  rfl

/-! ### What the passes build is well formed -/

theorem moveItems_eq (line col : Nat) : ∀ items : List Sx, moveItems line col items = items.map (moveTo line col)
  | [] => rfl
  | i :: items => by rw [moveItems, moveItems_eq line col items, List.map_cons]

theorem Formed.moveTo (line col : Nat) (h : Formed t) : Formed (t.moveTo line col) := by
  induction h with
  | atom hopens hcloses =>
    rw [Sx.moveTo]
    exact .atom hopens hcloses
  | list ho hc _ ih =>
    rw [Sx.moveTo, moveItems_eq]
    refine .list ho hc fun i hi => ?_
    obtain ⟨j, hj, rfl⟩ := List.mem_map.mp hi
    exact ih j hj

/-- **Every tree the front end builds** is well formed. -/
theorem Built.formed (h : Built t) : Formed t := by
  induction h with
  | read hfuel h => exact (readOne_sound hfuel h).2
  | atom hopens hcloses => exact .atom hopens hcloses
  | listAt _ ih => exact .list rfl rfl ih
  | bracketAt _ ih => exact .list rfl rfl ih
  | item _ hi ih =>
    cases ih with
    | list _ _ h => exact h _ hi
  | withItems _ _ ih ih' =>
    cases ih with
    | list ho hc _ => exact .list ho hc ih'
  | moveTo _ ih => exact ih.moveTo _ _

end Sx

/-! ### The constants' pass -/

namespace Consts

open Sx

variable {consts : List (String × Sx)} {enums : List (String × List (String × BitVec 64))}

theorem Val.sx_built (v : Val) (at_ : Sx) : Built (v.sx at_) := by
  cases v with
  | i32 v => exact .atom rfl rfl
  | i64 v => exact .atom rfl rfl
  | bool b => exact .atom rfl rfl
  | f64 bits =>
    refine @Built.listAt [.atom _, .atom _] _ _ fun i hi => ?_
    rcases List.mem_pair.mp hi with rfl | rfl
    · exact .atom rfl rfl
    · exact .atom rfl rfl

theorem substSymbol_built (hconsts : ∀ s v, consts.lookup s = some v → Built v) {t : Token} {s : String} {next : Option Sx} {out : Sx}
    (ht : Built (.atom t)) (h : substSymbol consts enums t s next = .ok out) : Built out := by
  rw [substSymbol] at h
  cases hlookup : consts.lookup s with
  | some value =>
    have hvalue := hconsts s value hlookup
    rw [hlookup] at h
    dsimp only at h
    split at h
    · cases h
    · cases value with
      | atom v =>
        cases h
        cases hvalue.formed with
        | atom hopens hcloses => exact .atom hopens hcloses
      | list o items c =>
        cases h
        exact hvalue
  | none =>
    rw [hlookup] at h
    dsimp only at h
    split at h
    · cases h
      exact ht
    · split at h
      · cases h
        exact ht
      · split at h
        · cases h
        · cases h
          refine @Built.listAt [.atom _, .atom _, .atom _] _ _ fun i hi => ?_
          simp only [List.mem_cons, List.not_mem_nil, or_false] at hi
          rcases hi with rfl | rfl | rfl <;> exact .atom rfl rfl

theorem built_cons {sx : Sx} {rest : List Sx} (h : Built sx) (hrest : ∀ i ∈ rest, Built i) : ∀ i ∈ sx :: rest, Built i := by
  intro i hi
  rcases List.mem_cons.mp hi with rfl | hi
  · exact h
  · exact hrest i hi

mutual

/-- **Replacing constants** makes built trees of built ones. -/
theorem substitute_built (hconsts : ∀ s v, consts.lookup s = some v → Built v) : ∀ (t out : Sx), Built t →
    substitute consts enums t = .ok out → Built out
  | .atom t, out, ht, h => by
      cases h
      exact ht
  | .list o items c, out, ht, h => by
      rw [substitute] at h
      obtain ⟨items', hitems, h⟩ := bind_eq_ok h
      cases h
      exact .withItems ht (substItems_built hconsts _ _ items items' (fun i hi => .item ht hi) hitems)

theorem substItems_built (hconsts : ∀ s v, consts.lookup s = some v → Built v) : ∀ (isMatch : Bool) (k : Nat) (items out : List Sx),
    (∀ i ∈ items, Built i) → substItems consts enums isMatch k items = .ok out → ∀ i ∈ out, Built i
  | _, _, [], out, _, h => by
      cases h
      exact fun i hi => by cases hi
  | isMatch, k, .atom t :: rest, out, hitems, h => by
      have ht := hitems _ List.mem_cons_self
      rw [substItems] at h
      cases hk : t.kind with
      | symbol s =>
        rw [hk] at h
        obtain ⟨sx, hsx, h⟩ := bind_eq_ok h
        obtain ⟨rest', hrest, h⟩ := bind_eq_ok h
        cases h
        exact built_cons (substSymbol_built hconsts ht hsx)
          (substItems_built hconsts isMatch (k + 1) rest rest' (fun j hj => hitems j (List.mem_cons_of_mem _ hj)) hrest)
      | _ =>
        rw [hk] at h
        obtain ⟨sx, hsx, h⟩ := bind_eq_ok h
        obtain ⟨rest', hrest, h⟩ := bind_eq_ok h
        cases h
        cases hsx
        exact built_cons ht
          (substItems_built hconsts isMatch (k + 1) rest rest' (fun j hj => hitems j (List.mem_cons_of_mem _ hj)) hrest)
  | isMatch, k, .list o [] c :: rest, out, hitems, h => by
      rw [substItems] at h
      obtain ⟨sx, hsx, h⟩ := bind_eq_ok h
      obtain ⟨rest', hrest, h⟩ := bind_eq_ok h
      cases h
      cases hsx
      exact built_cons (hitems _ List.mem_cons_self)
        (substItems_built hconsts isMatch (k + 1) rest rest' (fun j hj => hitems j (List.mem_cons_of_mem _ hj)) hrest)
  | isMatch, k, .list o (head :: arm) c :: rest, out, hitems, h => by
      have ht := hitems _ List.mem_cons_self
      rw [substItems] at h
      by_cases harm : (isMatch && decide (2 ≤ k)) = true
      · replace h := (if_pos harm).symm.trans h
        obtain ⟨arm', harm', h⟩ := bind_eq_ok h
        obtain ⟨sx, hsx, h⟩ := bind_eq_ok h
        obtain ⟨rest', hrest, h⟩ := bind_eq_ok h
        cases h
        cases hsx
        have hbuilt := built_cons (.item ht List.mem_cons_self)
          (substItems_built hconsts false 1 arm arm' (fun j hj => .item ht (List.mem_cons_of_mem _ hj)) harm')
        exact built_cons (.withItems ht hbuilt)
          (substItems_built hconsts isMatch (k + 1) rest rest' (fun j hj => hitems j (List.mem_cons_of_mem _ hj)) hrest)
      · replace h := (if_neg harm).symm.trans h
        obtain ⟨sx, hsx, h⟩ := bind_eq_ok h
        obtain ⟨rest', hrest, h⟩ := bind_eq_ok h
        cases h
        exact built_cons (substitute_built hconsts _ sx ht hsx)
          (substItems_built hconsts isMatch (k + 1) rest rest' (fun j hj => hitems j (List.mem_cons_of_mem _ hj)) hrest)

end

theorem built_of_literalFits {ty : String} {t : Token} (h : literalFits ty t.kind = true) : Built (.atom t) := by
  cases hk : t.kind <;> rw [hk] at h <;> first | cases h | exact .atom (by rw [hk]; rfl) (by rw [hk]; rfl)

theorem Expands.built {fops : FloatOps} {prog out : FlatProgram} (h : Expands fops prog out)
    (hprog : ∀ item ∈ prog.structs ++ prog.fns, Built item) : ∀ item ∈ out.structs ++ out.fns, Built item := by
  obtain ⟨defs, enums, consts, hdecl, hconsts, hstructs, hfns⟩ := h
  obtain ⟨hitems, hnodup, -⟩ := declares_iff.mp hdecl
  have hvalue : ∀ s v, consts.lookup s = some v → Built v := by
    intro s v hs
    obtain ⟨d, hd, -, hrep⟩ := replacement_of_lookup hnodup hconsts hs
    split at hrep
    · obtain ⟨x, -, rfl⟩ := hrep
      exact Val.sx_built x _
    · next hexpr =>
      subst hrep
      obtain ⟨item, -, hread⟩ := exists_of_forall₂ hitems (mem_of_lookup hd)
      rcases readConst_value hread with ⟨h, -⟩ | ⟨t, ht, hfits⟩
      · exact absurd h hexpr
      · exact ht ▸ built_of_literalFits hfits
  have hrewrite : ∀ {items out : List Sx}, (∀ item ∈ items, Built item) → rewrite consts enums items = .ok out →
      ∀ item ∈ out, Built item := by
    intro items out hbuilt h item hitem
    obtain ⟨from_, hfrom, hfrom'⟩ := exists_of_forall₂ (rewrite_ok_iff.mp h) hitem
    have hb := hbuilt from_ (List.mem_of_mem_filter hfrom)
    rw [rewriteItem] at hfrom'
    split at hfrom'
    · cases hfrom'
      exact hb
    · exact substitute_built hvalue _ _ hb hfrom'
  intro item hitem
  rcases List.mem_append.mp hitem with hitem | hitem
  · exact hrewrite (fun i hi => hprog i (List.mem_append_left _ hi)) hstructs item hitem
  · exact hrewrite (fun i hi => hprog i (List.mem_append_right _ hi)) hfns item hitem

/-- What `parse_item` gives the parser: the tokens of `(module NAME item)`, at the item's position. -/
def itemTokens (moduleName : String) (item : Sx) : List Token :=
  let tok (kind : TokenKind) : Token := ⟨kind, item.token.line, item.token.col⟩
  flatten item [tok .lparen, tok (.symbol "module"), tok (.symbol moduleName)] ++ [tok .rparen]

/-- **What the parser is given** of an expanded program: the tokens of each of its items read as that item, in a module's
form, and there is no place where one ends early or runs on. -/
theorem expanded_items_read (fops : FloatOps) (prog : FlatProgram) (moduleName : String) {fuel : Nat}
    (hfuel : prog.structs.length + prog.fns.length < fuel) (hprog : ∀ item ∈ prog.structs ++ prog.fns, Built item) :
    ∃ r, (expand fops fuel prog).run = done r ∧ ∀ out, r = .ok out → ∀ item ∈ out.structs ++ out.fns, ∀ n,
      (itemTokens moduleName item).length < n → readOne n (itemTokens moduleName item) =
        done (.ok (listAt [.atom ⟨.symbol "module", item.token.line, item.token.col⟩,
          .atom ⟨.symbol moduleName, item.token.line, item.token.col⟩, item] item.token.line item.token.col)) := by
  obtain ⟨r, hrun, hr⟩ := expand_ends fops hfuel
  refine ⟨r, hrun, fun out hout item hitem n hn => ?_⟩
  have hitem := ((hr out).mp hout).built hprog item hitem
  have hmodule : Built (listAt [.atom ⟨.symbol "module", item.token.line, item.token.col⟩,
      .atom ⟨.symbol moduleName, item.token.line, item.token.col⟩, item] item.token.line item.token.col) := by
    refine .listAt fun i hi => ?_
    simp only [List.mem_cons, List.not_mem_nil, or_false] at hi
    rcases hi with rfl | rfl | rfl
    · exact .atom rfl rfl
    · exact .atom rfl rfl
    · exact hitem
  have htokens : itemTokens moduleName item = flatten (listAt [.atom ⟨.symbol "module", item.token.line, item.token.col⟩,
      .atom ⟨.symbol moduleName, item.token.line, item.token.col⟩, item] item.token.line item.token.col) [] := rfl
  rw [htokens] at hn ⊢
  exact readOne_complete hmodule.formed hn

/-- `(const LIMIT:i32 3)` and `(f LIMIT)`. -/
def usedConst : FlatProgram :=
  ⟨[constItem "LIMIT" (.atom ⟨.intLit 3, 1, 1⟩)], [listAt [.atom ⟨.symbol "f", 1, 2⟩, .atom ⟨.symbol "LIMIT", 1, 4⟩] 1 1]⟩

theorem usedConst_items_read : ∃ r, (expand ⟨fun x _ => x, fun x _ => x, fun x _ => x, fun x _ => x⟩ 3 usedConst).run = done r ∧
    ∀ out, r = .ok out → ∀ item ∈ out.structs ++ out.fns, (itemTokens "m" item).length < 9 →
      readOne 9 (itemTokens "m" item) = done (.ok (listAt [.atom ⟨.symbol "module", item.token.line, item.token.col⟩,
        .atom ⟨.symbol "m", item.token.line, item.token.col⟩, item] item.token.line item.token.col)) := by
  obtain ⟨r, hr, hitems⟩ := expanded_items_read ⟨fun x _ => x, fun x _ => x, fun x _ => x, fun x _ => x⟩ usedConst "m"
    (show usedConst.structs.length + usedConst.fns.length < 3 by decide) (by
      intro item hitem
      rcases List.mem_pair.mp hitem with rfl | rfl
      · refine @Built.listAt [.atom _, .atom _, .atom _, .atom _, .atom _] 1 1 fun i hi => ?_
        simp only [List.mem_cons, List.not_mem_nil, or_false] at hi
        rcases hi with rfl | rfl | rfl | rfl | rfl <;> exact .atom rfl rfl
      · refine .listAt fun i hi => ?_
        rcases List.mem_pair.mp hi with rfl | rfl <;> exact .atom rfl rfl)
  exact ⟨r, hr, fun out hout item hitem hn => hitems out hout item hitem 9 hn⟩

end Consts

/-! ### There and back -/

namespace Sx

/-- **S-expressions survive flattening**: reading ends, what is read flattens to the tokens it was read from, and every tree
the front end builds is read back from its tokens. -/
theorem flatten_roundTrip :
    (∀ (tokens : List Token) (fuel : Nat), tokens.length < fuel → ∃ r, readOne fuel tokens = done r ∧
      ∀ t, r = .ok t → flatten t [] = tokens) ∧
    (∀ (tokens : List Token) (fuel pos : Nat), tokens.length - pos < fuel → ∃ r, read tokens fuel pos = done r ∧
      ∀ t pos', r = .ok (t, pos') → tokens.drop pos = flatten t [] ++ tokens.drop pos' ∧ pos < pos' ∧ pos' ≤ tokens.length) ∧
    (∀ t, Built t → ∀ fuel, (flatten t []).length < fuel → readOne fuel (flatten t []) = done (.ok t) ∧
      ∀ pre rest : List Token, read (flatten t pre ++ rest) fuel pre.length = done (.ok (t, pre.length + (flatten t []).length))) := by
  refine ⟨fun tokens fuel hfuel => ?_, fun tokens fuel pos hfuel => ?_, fun t ht fuel hfuel => ⟨?_, fun pre rest => ?_⟩⟩
  · obtain ⟨r, hr⟩ := readOne_ends hfuel
    refine ⟨r, hr, fun t ht => ?_⟩
    rw [ht] at hr
    exact (readOne_sound hfuel hr).1
  · obtain ⟨r, hr, hreads⟩ := read_sound tokens fuel pos hfuel
    exact ⟨r, hr, fun t p ht => ⟨(hreads t p ht).flat, (hreads t p ht).lt, (hreads t p ht).le⟩⟩
  · exact readOne_complete ht.formed hfuel
  · refine read_flatten ht.formed fuel pre.length rest ?_ hfuel
    rw [flatten_append, List.append_assoc, List.drop_left]

/-- `(f [x])`. -/
def callTree : Sx := listAt [.atom ⟨.symbol "f", 1, 2⟩, bracketAt [.atom ⟨.symbol "x", 1, 5⟩] 1 4] 1 1

/-- Nested brackets are read back. -/
theorem callTree_roundTrip :
    (∃ r, readOne 9 (flatten callTree []) = done r ∧ ∀ t, r = .ok t → flatten t [] = flatten callTree []) ∧
    (∃ r, read (flatten callTree []) 9 2 = done r ∧ ∀ t p, r = .ok (t, p) →
      (flatten callTree []).drop 2 = flatten t [] ++ (flatten callTree []).drop p ∧ 2 < p ∧ p ≤ (flatten callTree []).length) ∧
    readOne 9 (flatten callTree []) = done (.ok callTree) := by
  have hbuilt : Built callTree := by
    refine .listAt fun i hi => ?_
    rcases List.mem_pair.mp hi with rfl | rfl
    · exact .atom rfl rfl
    · refine .bracketAt fun i hi => ?_
      rw [List.mem_singleton.mp hi]
      exact .atom rfl rfl
  exact ⟨flatten_roundTrip.1 (flatten callTree []) 9 (by decide), flatten_roundTrip.2.1 (flatten callTree []) 9 2 (by decide),
    (flatten_roundTrip.2.2 callTree hbuilt 9 (by decide)).1⟩

end Sx

end Aipl
