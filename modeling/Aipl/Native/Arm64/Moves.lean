import Aipl.Lib.Arm64
import Aipl.Native.Arm64.Model

/-! # Constants by halfwords

* `emit_eq`, `moveWide_eq` — what is appended; `decode_encode` — what it means.
* `movImm_eq` — `mov_imm` appends the instructions of `plan`.
* `steps_plan`, `length_plan_le` — they leave the constant, and none fewer do.
-/

namespace Aipl.Arm64

open Lib Lib.Outcome Aipl.Std StdBuf Lib.Arm64

/-! ### Instruction words -/

/-- The bytes of a word. -/
def wordBytes (v : BitVec 32) : List (BitVec 8) :=
  [v.setWidth 8, (v >>> 8).setWidth 8, (v >>> 16).setWidth 8, (v >>> 24).setWidth 8]

section Emit

variable {σ : Type} {A : Allocator σ} {fuel : Nat}

theorem emit_eq (c : Content σ) (v : BitVec 32) : emit A fuel c v = pushAll A fuel c (wordBytes v) := by
  rw [wordBytes, pushAll_cons (setWidth_and_255 v), emit]
  congr
  funext c
  rw [pushAll_cons (setWidth_and_255 (v >>> 8))]
  congr
  funext c
  rw [pushAll_cons (setWidth_and_255 (v >>> 16))]
  congr
  funext c
  exact (pushAll_one (setWidth_and_255 (v >>> 24))).symm

end Emit

/-- The operation field. -/
def opc : WideOp → BitVec 32
  | .movn => 0
  | .movz => 2
  | .movk => 3

/-- The word that `move_wide` puts together. -/
def encode (i : MoveWide) : BitVec 32 :=
  (if i.is64 then 1#32 <<< 31 else 0) ||| (opc i.op <<< 29 ||| (37#32 <<< 23 ||| (i.hw.setWidth 32 <<< 21 |||
    (i.imm16.setWidth 32 <<< 5 ||| i.rd.setWidth 32 <<< 0))))

theorem opc_lt (op : WideOp) : (opc op).toNat < 2 ^ 2 := by cases op <;> decide

theorem toNat_setWidth_lt {l : Nat} (x : BitVec l) (h : l ≤ 32) : (x.setWidth 32).toNat < 2 ^ l := by
  rw [BitVec.toNat_setWidth_of_le h]
  exact x.isLt

theorem sf_eq (b : Bool) : (if b then 1#32 <<< 31 else 0) = (BitVec.ofBool b).setWidth 32 <<< 31 := by
  cases b <;> decide

/-- A field of the word, from those of its parts. -/
theorem extract_encode (i : MoveWide) (s l : Nat) : (encode i).extractLsb' s l =
    ((BitVec.ofBool i.is64).setWidth 32 <<< 31).extractLsb' s l ||| ((opc i.op <<< 29).extractLsb' s l |||
      ((37#32 <<< 23).extractLsb' s l ||| ((i.hw.setWidth 32 <<< 21).extractLsb' s l |||
        ((i.imm16.setWidth 32 <<< 5).extractLsb' s l ||| (i.rd.setWidth 32 <<< 0).extractLsb' s l)))) := by
  rw [encode, sf_eq]
  simp only [BitVec.extractLsb'_or]

section Decode

variable (i : MoveWide)

theorem encode_opcode : (encode i).extractLsb' 23 6 = 0b100101#6 := by
  rw [extract_encode, extract_shl_below (by decide), extract_shl_below (by decide), extract_shl _ (by decide),
    extract_shl_above (toNat_setWidth_lt i.hw (by decide)) (by decide),
    extract_shl_above (toNat_setWidth_lt i.imm16 (by decide)) (by decide),
    extract_shl_above (toNat_setWidth_lt i.rd (by decide)) (by decide)]
  decide

theorem encode_opc : (encode i).extractLsb' 29 2 = (opc i.op).setWidth 2 := by
  rw [extract_encode, extract_shl_below (by decide), extract_shl _ (by decide),
    extract_shl_above (k := 6) (by decide) (by decide),
    extract_shl_above (toNat_setWidth_lt i.hw (by decide)) (by decide),
    extract_shl_above (toNat_setWidth_lt i.imm16 (by decide)) (by decide),
    extract_shl_above (toNat_setWidth_lt i.rd (by decide)) (by decide)]
  simp

theorem encode_hw : (encode i).extractLsb' 21 2 = i.hw := by
  rw [extract_encode, extract_shl_below (by decide), extract_shl_below (by decide), extract_shl_below (by decide),
    extract_shl _ (by decide), extract_shl_above (toNat_setWidth_lt i.imm16 (by decide)) (by decide),
    extract_shl_above (toNat_setWidth_lt i.rd (by decide)) (by decide)]
  simp [BitVec.setWidth_setWidth_of_le]

theorem encode_imm16 : (encode i).extractLsb' 5 16 = i.imm16 := by
  rw [extract_encode, extract_shl_below (by decide), extract_shl_below (by decide), extract_shl_below (by decide),
    extract_shl_below (by decide), extract_shl _ (by decide),
    extract_shl_above (toNat_setWidth_lt i.rd (by decide)) (by decide)]
  simp [BitVec.setWidth_setWidth_of_le]

theorem encode_rd : (encode i).extractLsb' 0 5 = i.rd := by
  rw [extract_encode, extract_shl_below (by decide), extract_shl_below (by decide), extract_shl_below (by decide),
    extract_shl_below (by decide), extract_shl_below (by decide), extract_shl _ (by decide)]
  simp [BitVec.setWidth_setWidth_of_le]

theorem encode_sf : (encode i).getLsbD 31 = i.is64 := by
  have h : (encode i).extractLsb' 31 1 = BitVec.ofBool i.is64 := by
    rw [extract_encode, extract_shl _ (by decide), extract_shl_above (opc_lt i.op) (by decide),
      extract_shl_above (k := 6) (by decide) (by decide),
      extract_shl_above (toNat_setWidth_lt i.hw (by decide)) (by decide),
      extract_shl_above (toNat_setWidth_lt i.imm16 (by decide)) (by decide),
      extract_shl_above (toNat_setWidth_lt i.rd (by decide)) (by decide)]
    simp [BitVec.setWidth_setWidth_of_le]
  have hbit := congrArg (fun z : BitVec 1 => z.getLsbD 0) h
  simpa using hbit

/-- **The word means the instruction.** -/
theorem decode_encode (hw : i.hw.toNat < halves i.is64) : MoveWide.decode (encode i) = some i := by
  rw [MoveWide.decode]
  rw [encode_sf, encode_hw, encode_opcode, encode_opc, encode_imm16, encode_rd, if_pos ⟨rfl, hw⟩]
  obtain ⟨is64, op, hw, imm16, rd⟩ := i
  cases op <;> rfl

end Decode

/-! ### What `mov_imm` appends -/

/-- The operand size of 64 bits or of 32. -/
def size (is64 : Bool) : BitVec 32 := if is64 then 64 else 32

theorem halves_le (b : Bool) : halves b ≤ 4 := by cases b <;> decide

theorem if_size (b : Bool) : (if size b = 64 then 4 else 2) = halves b := by cases b <;> rfl

theorem shift_ok : ∀ (b : Bool) (hw : BitVec 2), hw.toNat < halves b →
    (16 * BitVec.ofNat 32 hw.toNat == 0 || (16 * BitVec.ofNat 32 hw.toNat == 16 ||
      (size b == 64 && 16 * BitVec.ofNat 32 hw.toNat == 32 || size b == 64 && 16 * BitVec.ofNat 32 hw.toNat == 48))) = true ∧
    (16 * BitVec.ofNat 32 hw.toNat) >>> 4 = hw.setWidth 32 := by decide

theorem r_eq : ∀ rd : BitVec 5, r (rd.setWidth 32) = done (rd.setWidth 32) := by decide

theorem sf_size (b : Bool) : sf (size b) = done (if b then 1#32 <<< 31 else 0) := by cases b <;> rfl

theorem imm16_ok (h : BitVec 16) : ((0#32).sle (h.setWidth 32) && (h.setWidth 32).sle 65535) = true := by
  have hlt : (h.setWidth 32).toNat < 2 ^ 16 := toNat_setWidth_lt h (by decide)
  rw [Bool.and_eq_true, sle_iff (by decide) (by omega), sle_iff (by omega) (by decide)]
  exact ⟨Nat.zero_le _, Nat.lt_succ_iff.mp hlt⟩

section Emit

variable {σ : Type} {A : Allocator σ} {fuel : Nat}

theorem moveWide_eq (A : Allocator σ) (fuel : Nat) (c : Content σ) (i : MoveWide) (hw : i.hw.toNat < halves i.is64) :
    moveWide A fuel c (size i.is64) (opc i.op) (i.rd.setWidth 32) (i.imm16.setWidth 32)
      (16 * BitVec.ofNat 32 i.hw.toNat) = pushAll A fuel c (wordBytes (encode i)) := by
  obtain ⟨hshift, hshr⟩ := shift_ok i.is64 i.hw hw
  have htrue : require true = done () := rfl
  rw [moveWide, imm16_ok, hshift, htrue, done_bind, done_bind, sf_size, done_bind, r_eq, done_bind, hshr, emit_eq, encode,
    BitVec.shiftLeft_zero]

end Emit

theorem half_eq (v : BitVec 64) (k : Nat) : half v k = (halfword v k).setWidth 32 := by
  apply BitVec.eq_of_toNat_eq
  have h : (v.toNat >>> (16 * k)) &&& (65535#64).toNat = v.toNat >>> (16 * k) % 2 ^ 16 :=
    Nat.and_two_pow_sub_one_eq_mod _ 16
  rw [half, halfword, BitVec.toNat_setWidth, BitVec.toNat_setWidth, BitVec.toNat_and, BitVec.toNat_ushiftRight,
    BitVec.extractLsb'_toNat]
  change ((v.toNat >>> (16 * k)) &&& (65535#64).toNat) % _ = _
  rw [h]

theorem setWidth_inj {x y : BitVec 16} (h : x.setWidth 32 = y.setWidth 32) : x = y := by
  have hw := congrArg (fun z : BitVec 32 => z.setWidth 16) h
  simpa [BitVec.setWidth_setWidth_of_le] using hw

/-- A fill, as a halfword. -/
def fillOf (inv : Bool) : BitVec 16 := if inv then BitVec.allOnes 16 else 0

theorem half_eq_fill (v : BitVec 64) (k : Nat) (inv : Bool) :
    half v k = (if inv then 65535 else 0) ↔ halfword v k = fillOf inv := by
  have h : (if inv then 65535 else 0 : BitVec 32) = (fillOf inv).setWidth 32 := by cases inv <;> rfl
  rw [h, half_eq]
  exact ⟨setWidth_inj, fun h => by rw [h]⟩

theorem half_xor (v : BitVec 64) (k : Nat) : half v k ^^^ 65535 = (~~~halfword v k).setWidth 32 := by
  rw [half_eq]
  apply BitVec.eq_of_getLsbD_eq
  intro i hi
  have hones : (65535 : BitVec 32).getLsbD i = decide (i < 16) := by
    rw [show (65535 : BitVec 32) = (BitVec.allOnes 16).setWidth 32 by rfl, BitVec.getLsbD_setWidth, BitVec.getLsbD_allOnes,
      decide_eq_true hi, Bool.true_and]
  rw [BitVec.getLsbD_xor, hones, BitVec.getLsbD_setWidth, BitVec.getLsbD_setWidth, BitVec.getLsbD_not, decide_eq_true hi]
  by_cases h16 : i < 16
  · rw [decide_eq_true h16]
    simp
  · rw [decide_eq_false h16, BitVec.getLsbD_of_ge _ _ (by omega)]
    rfl

/-- Whether more halfwords are all ones than zero. -/
def moreOnes (b : Bool) (v : BitVec 64) : Bool :=
  decide ((List.range (halves b)).countP (fun k => halfword v k = 0#16) <
    (List.range (halves b)).countP fun k => halfword v k = BitVec.allOnes 16)

/-- The places of the halfwords that are not the fill. -/
def places (b inv : Bool) (v : BitVec 64) : List Nat :=
  (List.range (halves b)).filter fun k => halfword v k ≠ fillOf inv

/-- The first instruction, which sets the other halfwords to the fill. -/
def start (b inv : Bool) (rd : BitVec 5) (v : BitVec 64) (k : Nat) : MoveWide :=
  ⟨b, if inv then .movn else .movz, BitVec.ofNat 2 k, if inv then ~~~halfword v k else halfword v k, rd⟩

def keep (b : Bool) (rd : BitVec 5) (v : BitVec 64) (k : Nat) : MoveWide :=
  ⟨b, .movk, BitVec.ofNat 2 k, halfword v k, rd⟩

/-- The instructions of `mov_imm`. -/
def plan (b : Bool) (rd : BitVec 5) (v : BitVec 64) : List MoveWide :=
  let inv := moreOnes b v
  match places b inv v with
  | [] => [⟨b, if inv then .movn else .movz, 0, 0, rd⟩]
  | k :: ks => start b inv rd v k :: ks.map (keep b rd v)

/-- The bytes of instructions. -/
def code (l : List MoveWide) : List (BitVec 8) := l.flatMap fun i => wordBytes (encode i)

theorem foldl_count {p : Nat → Prop} [DecidablePred p] (l : List Nat) (n : Nat) :
    l.foldl (fun n k => if p k then n + 1 else n) n = n + l.countP fun k => p k := by
  induction l generalizing n with
  | nil => rfl
  | cons k l ih =>
    rw [List.foldl_cons, ih, List.countP_cons]
    by_cases hk : p k
    · rw [if_pos hk, decide_eq_true hk, if_pos rfl]
      omega
    · rw [if_neg hk, decide_eq_false hk, if_neg (by decide)]
      omega

/-- The loop for the first place finds the head of those that there are. -/
theorem foldl_first {p : Nat → Prop} [DecidablePred p] (l : List Nat) :
    l.foldl (fun (first : Int) k => if first < 0 ∧ p k then (k : Int) else first) (-1) =
      match l.filter (fun k => p k) with
      | [] => -1
      | k :: _ => k := by
  have hkeep : ∀ (l : List Nat) (k : Nat),
      l.foldl (fun (first : Int) k => if first < 0 ∧ p k then (k : Int) else first) k = k := by
    intro l k
    induction l with
    | nil => rfl
    | cons k' l ih => rw [List.foldl_cons, if_neg (by omega), ih]
  induction l with
  | nil => rfl
  | cons k l ih =>
    rw [List.foldl_cons]
    by_cases hk : p k
    · rw [if_pos ⟨by decide, hk⟩, hkeep, List.filter_cons_of_pos (by simpa using hk)]
    · rw [if_neg fun h => hk h.2, ih, List.filter_cons_of_neg (by simpa using hk)]

/-- The places after the first. -/
theorem filter_range' {p : Nat → Bool} {n k : Nat} {ks : List Nat} (h : (List.range n).filter p = k :: ks) :
    k < n ∧ (List.range' (k + 1) (n - (k + 1))).filter p = ks := by
  obtain ⟨l₁, l₂, hl, -, -, hks⟩ := List.filter_eq_cons_iff.mp h
  have hlen := congrArg List.length hl
  rw [List.length_range, List.length_append, List.length_cons] at hlen
  have hk : k = l₁.length := by
    have hget := congrArg (fun l : List Nat => l[l₁.length]?) hl
    simp only [List.getElem?_append_right (Nat.le_refl _), Nat.sub_self, List.getElem?_cons_zero] at hget
    rw [List.getElem?_range (by omega)] at hget
    exact (Option.some.inj hget).symm
  have hdrop := congrArg (List.drop (l₁.length + 1)) hl
  rw [List.range_eq_range', List.drop_range', Nat.zero_add, Nat.mul_one, ← hk] at hdrop
  rw [hdrop, hk]
  refine ⟨by omega, ?_⟩
  rw [List.drop_append, List.drop_eq_nil_of_le (Nat.le_succ _), List.nil_append, Nat.add_sub_cancel_left]
  exact hks

section Emit

variable {σ : Type} {A : Allocator σ} {fuel : Nat}

theorem pushAll_code_cons (c : Content σ) (i : MoveWide) (l : List MoveWide) :
    pushAll A fuel c (code (i :: l)) = pushAll A fuel c (wordBytes (encode i)) >>= fun c => pushAll A fuel c (code l) := by
  rw [code, List.flatMap_cons, pushAll_append]
  rfl

theorem ofNat_hw {k : Nat} (hk : k < 4) : (BitVec.ofNat 2 k).toNat = k := by
  rw [BitVec.toNat_ofNat]
  omega

theorem movk_eq (c : Content σ) (b : Bool) (rd : BitVec 5) (v : BitVec 64) {k : Nat} (hk : k < halves b) :
    movk A fuel c (size b) (rd.setWidth 32) (half v k) (16 * BitVec.ofNat 32 k) =
      pushAll A fuel c (wordBytes (encode (keep b rd v k))) := by
  have hhw := ofNat_hw (hk.trans_le (halves_le b))
  have hmove := moveWide_eq A fuel c (keep b rd v k) (by rw [keep]; dsimp only; rwa [hhw])
  rw [movk, half_eq, ← hmove, keep]
  dsimp only
  rw [hhw]
  rfl

theorem start_eq (c : Content σ) (b inv : Bool) (rd : BitVec 5) (v : BitVec 64) {k : Nat} (hk : k < halves b) :
    (if (if inv then 65535 else 0 : BitVec 32) = 0 then
      movz A fuel c (size b) (rd.setWidth 32) (half v k) (16 * BitVec.ofNat 32 k)
    else movn A fuel c (size b) (rd.setWidth 32) (half v k ^^^ 65535) (16 * BitVec.ofNat 32 k)) =
      pushAll A fuel c (wordBytes (encode (start b inv rd v k))) := by
  have hhw := ofNat_hw (hk.trans_le (halves_le b))
  have hmove := moveWide_eq A fuel c (start b inv rd v k) (by rw [start]; dsimp only; rwa [hhw])
  rw [← hmove, start]
  dsimp only
  rw [hhw]
  cases inv with
  | true =>
    rw [if_neg (by decide), half_xor]
    rfl
  | false =>
    rw [if_pos (by decide), half_eq]
    rfl

theorem rest_eq (b inv : Bool) (rd : BitVec 5) (v : BitVec 64) : ∀ (l : List Nat) (c : Content σ), (∀ k ∈ l, k < halves b) →
    foldAll (fun c k => if ¬ halfword v k = fillOf inv then
      movk A fuel c (size b) (rd.setWidth 32) (half v k) (16 * BitVec.ofNat 32 k) else pure c) c l =
      pushAll A fuel c (code ((l.filter fun k => halfword v k ≠ fillOf inv).map (keep b rd v)))
  | [], c, _ => rfl
  | k :: l, c, h => by
      have ih := fun c => rest_eq b inv rd v l c fun k hk => h k (List.mem_cons_of_mem _ hk)
      rw [foldAll]
      by_cases hk : halfword v k = fillOf inv
      · rw [if_neg (not_not.mpr hk), List.filter_cons_of_neg (by simpa using hk)]
        exact ih c
      · rw [if_pos hk, List.filter_cons_of_pos (by simpa using hk), List.map_cons,
          pushAll_code_cons, movk_eq c b rd v (h k List.mem_cons_self)]
        simp only [ih]

/-- **What is appended**: the words of the plan. -/
theorem movImm_eq (c : Content σ) (b : Bool) (rd : BitVec 5) (v : BitVec 64) :
    movImm A fuel c (size b) (rd.setWidth 32) v = pushAll A fuel c (code (plan b rd v)) := by
  have hzeros : ∀ k, half v k = 0 ↔ halfword v k = 0#16 := fun k => half_eq_fill v k false
  have hones : ∀ k, half v k = 65535 ↔ halfword v k = BitVec.allOnes 16 := fun k => half_eq_fill v k true
  have hinv : (if (List.range (halves b)).countP (fun k => half v k = 0) <
      (List.range (halves b)).countP (fun k => half v k = 65535) then 65535 else 0 : BitVec 32) =
        if moreOnes b v then 65535 else 0 := by
    simp only [moreOnes, hzeros, hones, decide_eq_true_eq]
  rw [movImm, if_size]
  simp only [foldl_count, Nat.zero_add, foldl_first]
  rw [hinv, plan, places]
  generalize moreOnes b v = inv
  simp only [ne_eq, half_eq_fill]
  cases hplaces : (List.range (halves b)).filter fun k => ¬ halfword v k = fillOf inv with
  | nil =>
    dsimp only
    rw [if_pos (by decide)]
    have hmove := moveWide_eq A fuel c ⟨b, if inv then .movn else .movz, 0, 0, rd⟩
      (show 0 < halves b by cases b <;> decide)
    rw [code, List.flatMap_singleton, ← hmove]
    cases inv <;> rfl
  | cons k ks =>
    obtain ⟨hk, hks⟩ := filter_range' hplaces
    dsimp only
    rw [if_neg (by omega), Int.toNat_natCast, start_eq c b inv rd v hk, pushAll_code_cons, ← hks]
    congr
    funext c
    refine (rest_eq b inv rd v _ c fun k' hk' => ?_).trans (by simp only [ne_eq])
    obtain ⟨i, hi, rfl⟩ := List.mem_range'.mp hk'
    omega

end Emit

/-! ### What the plan leaves -/

/-- The constant: `v`, or its low 32 bits. -/
def target (b : Bool) (v : BitVec 64) : BitVec 64 := if b then v else (v.setWidth 32).setWidth 64

theorem halfword_target (b : Bool) (v : BitVec 64) {k : Nat} (hk : k < 4) :
    halfword (target b v) k = if k < halves b then halfword v k else 0#16 := by
  cases b with
  | true => rw [if_pos (show k < halves true from hk)]; rfl
  | false => exact halfword_low v hk

theorem half_start (b inv : Bool) (rd : BitVec 5) (v x : BitVec 64) {k j : Nat} (hk : k < 4) :
    (start b inv rd v k).half x j = if j = k then halfword v k else fillOf inv := by
  have hhw := ofNat_hw hk
  cases inv with
  | true => simp [start, MoveWide.half, fillOf, hhw]
  | false => simp [start, MoveWide.half, fillOf, hhw]

theorem half_keep (b : Bool) (rd : BitVec 5) (v x : BitVec 64) {k j : Nat} (hk : k < 4) :
    (keep b rd v k).half x j = if j = k then halfword v k else halfword x j := by
  have hhw := ofNat_hw hk
  simp [keep, MoveWide.half, hhw]

/-- A register after instructions that all name it. -/
theorem steps_update {rd : BitVec 5} (hrd : rd ≠ 31#5) : ∀ {l : List MoveWide} {regs : BitVec 5 → BitVec 64},
    (∀ i ∈ l, i.rd = rd) → steps l regs = Function.update regs rd (l.foldl (fun x i => i.value x) (regs rd))
  | [], regs, _ => (Function.update_eq_self rd regs).symm
  | i :: l, regs, h => by
      have hi := h i List.mem_cons_self
      rw [steps, List.foldl_cons, List.foldl_cons, MoveWide.step, if_neg (by rwa [hi]), hi]
      change steps l _ = _
      rw [steps_update hrd fun j hj => h j (List.mem_cons_of_mem _ hj), Function.update_idem, Function.update_self]

/-- What the `movk`s leave: the halfwords at their places, and the others as they were. -/
theorem halfword_keeps (b : Bool) (rd : BitVec 5) (v : BitVec 64) {j : Nat} (hj : j < halves b) :
    ∀ (ks : List Nat) (x : BitVec 64), (∀ k ∈ ks, k < halves b) →
      halfword ((ks.map (keep b rd v)).foldl (fun x i => i.value x) x) j =
        if j ∈ ks then halfword v j else halfword x j
  | [], x, _ => rfl
  | k :: ks, x, h => by
      have hk := (h k List.mem_cons_self).trans_le (halves_le b)
      rw [List.map_cons, List.foldl_cons, halfword_keeps b rd v hj ks _ fun k' hk' => h k' (List.mem_cons_of_mem _ hk'),
        MoveWide.halfword_value _ _ (hj.trans_le (halves_le b)), if_pos (show j < halves (keep b rd v k).is64 from hj),
        half_keep b rd v x hk]
      by_cases hjk : j = k
      · subst hjk
        simp
      · simp [hjk]

/-- The upper half of what is left, of 32 bits. -/
theorem halfword_above (b : Bool) {i : MoveWide} (hi : i.is64 = b) (x : BitVec 64) {j : Nat} (hj : j < 4)
    (hle : halves b ≤ j) : halfword (i.value x) j = 0#16 := by
  rw [i.halfword_value x hj, hi, if_neg (by omega)]

theorem foldl_above (b : Bool) {j : Nat} (hj : j < 4) (hle : halves b ≤ j) : ∀ (l : List MoveWide) (x : BitVec 64),
    (∀ i ∈ l, i.is64 = b) → halfword x j = 0#16 → halfword (l.foldl (fun x i => i.value x) x) j = 0#16
  | [], _, _, hx => hx
  | i :: l, _, h, _ => foldl_above b hj hle l _ (fun i' hi' => h i' (List.mem_cons_of_mem _ hi'))
      (halfword_above b (h i List.mem_cons_self) _ hj hle)

theorem mem_places {b inv : Bool} {v : BitVec 64} {k : Nat} :
    k ∈ places b inv v ↔ k < halves b ∧ halfword v k ≠ fillOf inv := by
  rw [places, List.mem_filter, List.mem_range, decide_eq_true_eq]

theorem plan_is64 {b : Bool} {rd : BitVec 5} {v : BitVec 64} : ∀ i ∈ plan b rd v, i.is64 = b ∧ i.rd = rd := by
  intro i hi
  rw [plan] at hi
  cases hplaces : places b (moreOnes b v) v with
  | nil =>
    rw [hplaces] at hi
    obtain rfl := List.mem_singleton.mp hi
    exact ⟨rfl, rfl⟩
  | cons k ks =>
    rw [hplaces] at hi
    rcases List.mem_cons.mp hi with rfl | hi
    · exact ⟨rfl, rfl⟩
    · obtain ⟨k', -, rfl⟩ := List.mem_map.mp hi
      exact ⟨rfl, rfl⟩

theorem plan_hw {b : Bool} {rd : BitVec 5} {v : BitVec 64} : ∀ i ∈ plan b rd v, i.hw.toNat < halves i.is64 := by
  intro i hi
  rw [plan] at hi
  have hall : ∀ k ∈ places b (moreOnes b v) v, (BitVec.ofNat 2 k).toNat < halves b := fun k hk => by
    have hlt := (mem_places.mp hk).1
    rwa [ofNat_hw (hlt.trans_le (halves_le b))]
  cases hplaces : places b (moreOnes b v) v with
  | nil =>
    rw [hplaces] at hi
    obtain rfl := List.mem_singleton.mp hi
    exact show 0 < halves b by cases b <;> decide
  | cons k ks =>
    rw [hplaces] at hi hall
    rcases List.mem_cons.mp hi with rfl | hi
    · exact hall k List.mem_cons_self
    · obtain ⟨k', hk', rfl⟩ := List.mem_map.mp hi
      exact hall k' (List.mem_cons_of_mem _ hk')

theorem plan_value (b : Bool) (rd : BitVec 5) (v x : BitVec 64) :
    (plan b rd v).foldl (fun x i => i.value x) x = target b v := by
  apply eq_of_halfwords
  intro j hj
  have hmem : ∀ i ∈ plan b rd v, i.is64 = b ∧ i.rd = rd := plan_is64
  rw [halfword_target b v hj]
  rw [plan] at hmem ⊢
  cases hplaces : places b (moreOnes b v) v with
  | nil =>
    rw [hplaces] at hmem
    dsimp only at hmem ⊢
    rw [List.foldl_cons, List.foldl_nil, MoveWide.halfword_value _ _ hj]
    by_cases hjb : j < halves b
    · have hfill : halfword v j = fillOf (moreOnes b v) := by
        by_contra hne
        have hin := mem_places.mpr ⟨hjb, hne⟩
        rw [hplaces] at hin
        cases hin
      rw [if_pos hjb, if_pos hjb, hfill, MoveWide.half, fillOf]
      cases moreOnes b v <;> simp
    · rw [if_neg hjb, if_neg hjb]
  | cons k ks =>
    rw [hplaces] at hmem
    dsimp only at hmem ⊢
    have hall : ∀ k' ∈ k :: ks, k' < halves b := fun k' hk' => by
      rw [← hplaces] at hk'
      exact (mem_places.mp hk').1
    have hk := hall k List.mem_cons_self
    rw [List.foldl_cons]
    by_cases hjb : j < halves b
    · rw [if_pos hjb, halfword_keeps b rd v hjb ks _ fun k' hk' => hall k' (List.mem_cons_of_mem _ hk'),
        MoveWide.halfword_value _ _ hj, if_pos (show j < halves (start b _ rd v k).is64 from hjb),
        half_start b _ rd v x (hk.trans_le (halves_le b))]
      by_cases hjks : j ∈ ks
      · rw [if_pos hjks]
      · rw [if_neg hjks]
        by_cases hjk : j = k
        · rw [if_pos hjk, hjk]
        · rw [if_neg hjk]
          by_contra hne
          have hin := mem_places.mpr ⟨hjb, Ne.symm hne⟩
          rw [hplaces] at hin
          rcases List.mem_cons.mp hin with h | h
          · exact hjk h
          · exact hjks h
    · rw [if_neg hjb]
      refine foldl_above b hj (by omega) _ _ (fun i hi => (hmem i (List.mem_cons_of_mem _ hi)).1) ?_
      exact halfword_above b rfl _ hj (by omega)

/-- **The plan leaves the constant**, whatever the registers held, and no other register changes. -/
theorem steps_plan {rd : BitVec 5} (hrd : rd ≠ 31#5) (b : Bool) (v : BitVec 64) (regs : BitVec 5 → BitVec 64) :
    steps (plan b rd v) regs = Function.update regs rd (target b v) := by
  rw [steps_update hrd fun i hi => (plan_is64 i hi).2, plan_value]

/-! ### That no fewer do -/

theorem card_differs (b inv : Bool) (v : BitVec 64) :
    (differs (halves b) (target b v) fun _ => fillOf inv).card = (places b inv v).length := by
  have hset : (differs (halves b) (target b v) fun _ => fillOf inv) = (places b inv v).toFinset := by
    ext k
    rw [differs, Finset.mem_filter, List.mem_toFinset, mem_places, Finset.mem_range]
    refine and_congr_right fun hk => ?_
    rw [halfword_target b v (hk.trans_le (halves_le b)), if_pos hk]
  rw [hset]
  exact List.toFinset_card_of_nodup (List.nodup_range.filter _)

theorem length_places (b inv : Bool) (v : BitVec 64) :
    (places b inv v).length + (List.range (halves b)).countP (fun k => halfword v k = fillOf inv) = halves b := by
  have h := List.length_eq_countP_add_countP (fun k => decide (halfword v k = fillOf inv)) (l := List.range (halves b))
  rw [List.length_range] at h
  rw [places, ← List.countP_eq_length_filter]
  simp only [ne_eq, decide_not, decide_eq_true_eq] at h ⊢
  omega

/-- The fill that is taken leaves the fewest places. -/
theorem length_places_le (b inv : Bool) (v : BitVec 64) :
    (places b (moreOnes b v) v).length ≤ (places b inv v).length := by
  have hones := length_places b true v
  have hzeros := length_places b false v
  have htrue : fillOf true = BitVec.allOnes 16 := rfl
  have hfalse : fillOf false = 0#16 := rfl
  rw [htrue] at hones
  rw [hfalse] at hzeros
  cases hmore : moreOnes b v with
  | true =>
    rw [moreOnes, decide_eq_true_eq] at hmore
    cases inv <;> omega
  | false =>
    rw [moreOnes, decide_eq_false_iff_not] at hmore
    cases inv <;> omega

theorem length_plan (b : Bool) (rd : BitVec 5) (v : BitVec 64) :
    (plan b rd v).length = max 1 (places b (moreOnes b v) v).length := by
  rw [plan]
  cases places b (moreOnes b v) v with
  | nil => rfl
  | cons k ks =>
    simp only [List.length_cons, List.length_map]
    omega

/-- **No fewer leave the constant**, of those of the operand size. -/
theorem length_plan_le {b : Bool} {rd rd' : BitVec 5} {v : BitVec 64} {l : List MoveWide} (hsize : ∀ i ∈ l, i.is64 = b)
    (hl : ∀ regs, steps l regs rd' = target b v) : (plan b rd v).length ≤ l.length := by
  obtain ⟨hpos, h⟩ := le_length_of_steps hsize hl
  rw [length_plan]
  refine max_le hpos ?_
  rcases h with h | h
  · have hcard := card_differs b false v
    exact (length_places_le b false v).trans (hcard ▸ h)
  · have hcard := card_differs b true v
    exact (length_places_le b true v).trans (hcard ▸ h)

end Aipl.Arm64
