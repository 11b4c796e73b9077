import Aipl.Consts.Model
import Aipl.Lib.Wasm.Ints

/-! # What a constant means

The value of a constant expression by WebAssembly's instructions, constants that refer to each other
being followed to a depth.

* `denote`, `Denotes` — the value of an expression and of a constant.
* `fold_toOption` — the folder computes what the instructions do.
* `Denotes.unique` — a constant has one value.
-/

namespace Aipl.Consts

open Aipl.Lib Aipl.Lib.Wasm

/-! ### The instructions -/

section Words

variable {w : Nat}

def wasmUnary (op : String) (x : BitVec w) : BitVec w :=
  if op = "bitnot" then x ^^^ BitVec.allOnes w
  else if op = "clz" then BitVec.ofNat w (iclz x)
  else if op = "ctz" then BitVec.ofNat w (ictz x)
  else BitVec.ofNat w (ipopcnt x)

def wasmInts (op : String) (x y : BitVec w) : Option (BitVec w) :=
  if op = "+" then some (iadd x y)
  else if op = "-" then some (isub x y)
  else if op = "*" then some (imul x y)
  else if op = "/" then idivS x y
  else if op = "%" then iremS x y
  else if op = "^" then some (x ^^^ y)
  else if op = "shl" then some (ishl x y)
  else if op = "shr" then some (ishrS x y)
  else if op = "shru" then some (ishrU x y)
  else if op = "rotl" then some (irotl x y)
  else if op = "rotr" then some (irotr x y)
  else if op = "bitand" then some (x &&& y)
  else if op = "bitor" then some (x ||| y)
  else none

theorem foldUnary_eq (op : String) (x : BitVec w) : foldUnary op x = wasmUnary op x := by
  rw [foldUnary, wasmUnary, BitVec.xor_allOnes]
  rfl

theorem foldInts_toOption (op ty : String) (hw : 1 < w) {x y : BitVec w}
    (hcount : shiftCount y = y.toNat % w) : (foldInts op ty x y).toOption = wasmInts op x y := by
  rw [foldInts, wasmInts, hcount, iadd_eq, isub_eq, imul_eq, ishl_eq, ishrS_eq, ishrU_eq]
  by_cases hop : op ∈ operators
  · simp only [operators, List.mem_cons, List.not_mem_nil, or_false] at hop
    rcases hop with rfl | rfl | rfl | rfl | rfl | rfl | rfl | rfl | rfl | rfl | rfl | rfl | rfl | rfl |
      rfl | rfl | rfl | rfl | rfl | rfl
    -- the division and its remainder have checks of their own
    case inr.inr.inr.inl =>
      by_cases hy : y = 0#w
      · simp [hy, idivS, Except.toOption]
      · rw [idivS_eq hw hy]
        by_cases hmin : x = BitVec.intMin w ∧ y = -1#w
        · have hne : w ≠ 0 := by omega
          simp [hne, hmin, Except.toOption]
        · simp [hy, hmin, Except.toOption]
    case inr.inr.inr.inr.inl =>
      by_cases hy : y = 0#w
      · simp [hy, iremS, Except.toOption]
      · rw [iremS_eq hy]
        simp [hy, Except.toOption]
    all_goals rfl
  · simp only [operators, List.mem_cons, List.not_mem_nil, or_false, not_or] at hop
    simp [hop, Except.toOption]

theorem shiftCount_32 (y : BitVec 32) : shiftCount y = y.toNat % 32 := by
  rw [shiftCount, BitVec.setWidth_eq, BitVec.toNat_and]
  exact Nat.and_two_pow_sub_one_eq_mod y.toNat 5

theorem shiftCount_64 (y : BitVec 64) : shiftCount y = y.toNat % 64 := by
  have hmask : shiftCount y = (y.toNat % 2 ^ 32) % 64 := by
    rw [shiftCount, BitVec.toNat_and, BitVec.toNat_setWidth]
    exact Nat.and_two_pow_sub_one_eq_mod _ 6
  rw [hmask]
  omega

end Words

/-- The value of an operator, by the instructions; `none` is a trap, or operands it does not take. -/
def wasmOp (fops : FloatOps) (op : String) (args : List Val) : Option Val :=
  if op ∉ operators then none
  else if args.length ≠ if op = "not" ∨ isUnaryInt op then 1 else 2 then none
  else
    match args with
    | [.bool b] => if op = "not" then some (.bool !b) else none
    | [.i32 x] => if op = "not" then none else some (.i32 (wasmUnary op x))
    | [.i64 x] => if op = "not" then none else some (.i64 (wasmUnary op x))
    | [.i32 x, .i32 y] => (wasmInts op x y).map .i32
    | [.i64 x, .i64 y] => (wasmInts op x y).map .i64
    | [.f64 x, .f64 y] => (foldFloats fops op x y).toOption.map .f64
    | [.bool x, .bool y] => (foldBools op x y).toOption.map .bool
    | _ => none

theorem toOption_map {α β : Type} (r : Except FoldError α) (f : α → β) :
    (r.map f).toOption = r.toOption.map f := by
  cases r <;> rfl

/-- **Folding is evaluation.**  Where the folder gives a value it is the one the instructions compute,
and it gives none where they trap. -/
theorem fold_toOption (fops : FloatOps) (op : String) (args : List Val) :
    (fold fops op args).toOption = wasmOp fops op args := by
  rw [fold, wasmOp.eq_def]
  by_cases hop : op ∉ operators
  · rw [if_pos hop, if_pos hop]
    rfl
  rw [if_neg hop, if_neg hop]
  by_cases hlen : args.length ≠ if op = "not" ∨ isUnaryInt op then 1 else 2
  · rw [if_pos hlen, if_pos hlen]
    rfl
  rw [if_neg hlen, if_neg hlen]
  match args with
  | [] => rfl
  | [.i32 x] => by_cases hnot : op = "not" <;> simp [hnot, foldUnary_eq, Except.toOption]
  | [.i64 x] => by_cases hnot : op = "not" <;> simp [hnot, foldUnary_eq, Except.toOption]
  | [.bool b] => by_cases hnot : op = "not" <;> simp [hnot, Except.toOption]
  | [.f64 x] => by_cases hnot : op = "not" <;> simp [hnot, Except.toOption]
  | [.i32 x, .i32 y] =>
    exact (toOption_map _ _).trans
      (congrArg (Option.map Val.i32) (foldInts_toOption op "i32" (by decide) (shiftCount_32 y)))
  | [.i64 x, .i64 y] =>
    exact (toOption_map _ _).trans
      (congrArg (Option.map Val.i64) (foldInts_toOption op "i64" (by decide) (shiftCount_64 y)))
  | [.f64 x, .f64 y] => exact toOption_map _ _
  | [.bool x, .bool y] => exact toOption_map _ _
  | [.i32 x, .i64 y] => rfl
  | [.i32 x, .f64 y] => rfl
  | [.i32 x, .bool y] => rfl
  | [.i64 x, .i32 y] => rfl
  | [.i64 x, .f64 y] => rfl
  | [.i64 x, .bool y] => rfl
  | [.f64 x, .i32 y] => rfl
  | [.f64 x, .i64 y] => rfl
  | [.f64 x, .bool y] => rfl
  | [.bool x, .i32 y] => rfl
  | [.bool x, .i64 y] => rfl
  | [.bool x, .f64 y] => rfl
  | v :: w :: _ :: _ => cases v <;> cases w <;> rfl

/-! ### Expressions and constants -/

section Denote

variable (fops : FloatOps)

mutual

/-- The value of an expression, `const` giving those of the constants in it. -/
def denote (const : String → Option Val) : Sx → Option Val
  | .atom t =>
    match t.kind with
    | .intLit v => if fitsI32 v then some (.i32 (v.setWidth 32)) else none
    | .int64Lit v => some (.i64 v)
    | .floatLit bits _ => some (.f64 bits)
    | .boolLit b => some (.bool b)
    | .symbol s => const s
    | _ => none
  | .list _ [] _ => none
  | .list _ (head :: args) _ => (denoteAll const args).bind (wasmOp fops (head.symbol.getD ""))

def denoteAll (const : String → Option Val) : List Sx → Option (List Val)
  | [] => some []
  | a :: as =>
    (denote const a).bind fun v => (denoteAll const as).map fun vs => v :: vs

end

/-- The value of a constant, others being followed to depth `n`; a constant has its declared type. -/
def denoteConst (defs : List (String × Def)) : Nat → String → Option Val
  | 0, _ => none
  | n + 1, s => (defs.lookup s).bind fun d =>
    (denote fops (denoteConst defs n) d.value).filter fun v => v.ty == d.ty

/-- Constant `s` is defined and has the value `v`. -/
def Denotes (defs : List (String × Def)) (s : String) (v : Val) : Prop :=
  ∃ n, denoteConst fops defs n s = some v

/-- Expression `e` has the value `v`. -/
def ExprDenotes (defs : List (String × Def)) (e : Sx) (v : Val) : Prop :=
  ∃ n, denote fops (denoteConst fops defs n) e = some v

variable {fops} {const const' : String → Option Val}
  (hconst : ∀ s v, const s = some v → const' s = some v)
include hconst

mutual

theorem denote_mono : ∀ (e : Sx) (v : Val), denote fops const e = some v →
    denote fops const' e = some v
  | .atom t, v, h => by
      rw [denote] at h ⊢
      cases hk : t.kind with
      | symbol s =>
        rw [hk] at h
        exact hconst s v h
      | _ =>
        rw [hk] at h
        exact h
  | .list _ [] _, v, h => h
  | .list _ (head :: args) _, v, h => by
      rw [denote] at h ⊢
      obtain ⟨vs, hvs, hv⟩ := Option.bind_eq_some_iff.mp h
      rw [denoteAll_mono args vs hvs]
      exact hv

theorem denoteAll_mono : ∀ (es : List Sx) (vs : List Val), denoteAll fops const es = some vs →
    denoteAll fops const' es = some vs
  | [], vs, h => h
  | a :: as, vs, h => by
      rw [denoteAll] at h ⊢
      obtain ⟨v, hv, h⟩ := Option.bind_eq_some_iff.mp h
      obtain ⟨vs', hvs, rfl⟩ := Option.map_eq_some_iff.mp h
      rw [denote_mono a v hv, denoteAll_mono as vs' hvs]
      rfl

end

end Denote

section

variable {fops : FloatOps} {defs : List (String × Def)} {s : String} {v v' : Val} {e : Sx} {n m : Nat}

theorem denoteConst_succ (h : denoteConst fops defs n s = some v) :
    denoteConst fops defs (n + 1) s = some v := by
  induction n generalizing s v with
  | zero => cases h
  | succ n ih =>
    rw [denoteConst] at h ⊢
    obtain ⟨d, hd, h⟩ := Option.bind_eq_some_iff.mp h
    obtain ⟨hv, hty⟩ := Option.filter_eq_some_iff.mp h
    rw [hd, Option.bind_some, denote_mono (fun s v h => ih h) d.value v hv]
    exact Option.filter_eq_some_iff.mpr ⟨rfl, hty⟩

theorem denoteConst_mono (hnm : n ≤ m) (h : denoteConst fops defs n s = some v) :
    denoteConst fops defs m s = some v := by
  induction m, hnm using Nat.le_induction with
  | base => exact h
  | succ m _ ih => exact denoteConst_succ ih

theorem denote_le (hnm : n ≤ m) (h : denote fops (denoteConst fops defs n) e = some v) :
    denote fops (denoteConst fops defs m) e = some v :=
  denote_mono (fun _ _ h => denoteConst_mono hnm h) e v h

theorem denoteAll_le {es : List Sx} {vs : List Val} (hnm : n ≤ m)
    (h : denoteAll fops (denoteConst fops defs n) es = some vs) :
    denoteAll fops (denoteConst fops defs m) es = some vs :=
  denoteAll_mono (fun _ _ h => denoteConst_mono hnm h) es vs h

/-- A constant has one value. -/
theorem Denotes.unique (h : Denotes fops defs s v) (h' : Denotes fops defs s v') : v = v' := by
  obtain ⟨n, h⟩ := h
  obtain ⟨m, h'⟩ := h'
  have h₁ := denoteConst_mono (Nat.le_add_right n m) h
  rw [denoteConst_mono (Nat.le_add_left m n) h'] at h₁
  injection h₁ with h₁
  exact h₁.symm

theorem ExprDenotes.unique (h : ExprDenotes fops defs e v) (h' : ExprDenotes fops defs e v') :
    v = v' := by
  obtain ⟨n, h⟩ := h
  obtain ⟨m, h'⟩ := h'
  have h₁ := denote_le (Nat.le_add_right n m) h
  rw [denote_le (Nat.le_add_left m n) h'] at h₁
  injection h₁ with h₁
  exact h₁.symm

/-- A constant has the value of its expression, when that has the declared type. -/
theorem denotes_iff {d : Def} (hd : defs.lookup s = some d) :
    Denotes fops defs s v ↔ ExprDenotes fops defs d.value v ∧ v.ty = d.ty := by
  constructor
  · rintro ⟨n, h⟩
    cases n with
    | zero => cases h
    | succ n =>
      rw [denoteConst, hd] at h
      obtain ⟨hv, hty⟩ := Option.filter_eq_some_iff.mp h
      exact ⟨⟨n, hv⟩, by simpa using hty⟩
  · rintro ⟨⟨n, hv⟩, hty⟩
    refine ⟨n + 1, ?_⟩
    rw [denoteConst, hd]
    exact Option.filter_eq_some_iff.mpr ⟨hv, by simpa using hty⟩

end

end Aipl.Consts
