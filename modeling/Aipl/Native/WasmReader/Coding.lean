import Aipl.Lib.Leb128
import Aipl.Lib.Reading.Reads
import Aipl.Native.WasmReader.Steady

/-! # Coding a function body

The bytes of local declarations and instructions, as the binary format has them, and what each of them is read as.
Numbers may be in any length of LEB128 that the format allows.

* `U32`, `S32`, `S64` — numbers with their bytes.
* `Imm`, `Coded`, `Group` — immediates, instructions, local groups.
* `reads_u32`, `reads_s32`, `reads_s64`, `reads_floatBits` — each is read as it is meant.
-/

namespace Aipl.WasmReader

open Aipl.Lib Aipl.Lib.Outcome Aipl.Lib.Reading Aipl.Lib.Leb

/-! ### The format -/

/-- An unsigned number of 32 bits. -/
structure U32 where
  bytes : List (BitVec 8)
  leb : IsLeb bytes
  short : bytes.length ≤ 5
  fits : unsigned bytes < 2 ^ 32

def U32.value (n : U32) : BitVec 32 := BitVec.ofNat 32 (unsigned n.bytes)

structure S32 where
  bytes : List (BitVec 8)
  leb : IsLeb bytes
  short : bytes.length ≤ 5
  fits : -2 ^ 31 ≤ signed bytes ∧ signed bytes < 2 ^ 31

def S32.value (n : S32) : BitVec 32 := BitVec.ofInt 32 (signed n.bytes)

structure S64 where
  bytes : List (BitVec 8)
  leb : IsLeb bytes
  short : bytes.length ≤ 10
  fits : -2 ^ 63 ≤ signed bytes ∧ signed bytes < 2 ^ 63

def S64.value (n : S64) : BitVec 64 := BitVec.ofInt 64 (signed n.bytes)

/-- A number's `n` bytes, the lowest first. -/
def leBytes : Nat → Nat → List (BitVec 8)
  | 0, _ => []
  | n + 1, v => BitVec.ofNat 8 v :: leBytes n (v / 256)

/-- The immediates of an instruction. -/
inductive Imm where
  | none
  | index (a : U32)
  | block (bt : BitVec 8)
  | pair (a b : U32)
  | i32 (c : S32)
  | i64 (c : S64)
  | f64 (bits : BitVec 64)
  | memory (b : BitVec 8)
  | init (a : U32) (b : BitVec 8)
  | f32 (bits : BitVec 32)

def Imm.bytes : Imm → List (BitVec 8)
  | none => []
  | index a => a.bytes
  | block bt => [bt]
  | pair a b => a.bytes ++ b.bytes
  | i32 c => c.bytes
  | i64 c => c.bytes
  | f64 bits => leBytes 8 bits.toNat
  | memory b => [b]
  | init a b => a.bytes ++ [b]
  | f32 bits => leBytes 4 bits.toNat

/-- The kinds that take these immediates; a block is empty, or has one value. -/
def Imm.Fits : Imm → Int → Prop
  | none, kind => kind = 0
  | index _, kind => kind = 1
  | block bt, kind => kind = 2 ∧ bt ∈ [64#8, 127#8, 126#8, 125#8, 124#8]
  | pair _ _, kind => kind = 3 ∨ kind = 4
  | i32 _, kind => kind = 5
  | i64 _, kind => kind = 6
  | f64 _, kind => kind = 7
  | memory _, kind => kind = 8
  | init _ _, kind => kind = 9
  | f32 _, kind => kind = 10

/-- Immediates as an instruction keeps them. -/
def Imm.instr (imm : Imm) (op offset : BitVec 32) : Instr :=
  match imm with
  | none => ⟨op, 0#32, 0#32, 0#64, offset⟩
  | index a => ⟨op, a.value, 0#32, 0#64, offset⟩
  | block bt => ⟨op, bt.setWidth 32, 0#32, 0#64, offset⟩
  | pair a b => ⟨op, a.value, b.value, 0#64, offset⟩
  | i32 c => ⟨op, 0#32, 0#32, c.value.signExtend 64, offset⟩
  | i64 c => ⟨op, 0#32, 0#32, c.value, offset⟩
  | f64 bits => ⟨op, 0#32, 0#32, bits, offset⟩
  | memory b => ⟨op, 0#32, b.setWidth 32, 0#64, offset⟩
  | init a b => ⟨op, a.value, b.setWidth 32, 0#64, offset⟩
  | f32 bits => ⟨op, 0#32, 0#32, bits.setWidth 64, offset⟩

/-- An opcode: of a byte, or of a prefix and a number. -/
inductive Head where
  | plain (op : BitVec 8)
  | bulk (sub : U32)
  | atomic (sub : U32)

def Head.bytes : Head → List (BitVec 8)
  | plain op => [op]
  | bulk sub => 252#8 :: sub.bytes
  | atomic sub => 254#8 :: sub.bytes

def Head.op : Head → BitVec 32
  | plain op => op.setWidth 32
  | bulk sub => 64512#32 + sub.value
  | atomic sub => 65024#32 + sub.value

def Head.kind : Head → Int
  | plain op => plainKind (op.setWidth 32)
  | bulk sub => if sub.value = 8#32 then 9 else -1
  | atomic sub => if atomicOk sub.value then 3 else -1

/-- An instruction that is admitted. -/
structure Coded where
  head : Head
  imm : Imm
  fits : imm.Fits head.kind

def Coded.bytes (c : Coded) : List (BitVec 8) := c.head.bytes ++ c.imm.bytes

def Coded.instr (c : Coded) (offset : BitVec 32) : Instr := c.imm.instr c.head.op offset

/-- Some locals of one type. -/
structure Group where
  count : U32
  type : BitVec 8
  fits : type ∈ [127#8, 126#8, 125#8, 124#8]

def Group.bytes (g : Group) : List (BitVec 8) := g.count.bytes ++ [g.type]

def Group.locals (g : Group) : Locals := ⟨g.count.value, g.type.setWidth 32⟩

/-- The instructions, each with the place of its first byte. -/
def instrsFrom : Nat → List Coded → List Instr
  | _, [] => []
  | offset, c :: cs => c.instr (BitVec.ofNat 32 offset) :: instrsFrom (offset + c.bytes.length) cs

/-- Local declarations. -/
def declBytes (count : U32) (groups : List Group) : List (BitVec 8) := count.bytes ++ groups.flatMap Group.bytes

/-- A body: its declarations, and its instructions. -/
def bodyBytes (count : U32) (groups : List Group) (code : List Coded) : List (BitVec 8) := declBytes count groups ++ code.flatMap Coded.bytes

def bodyOf (count : U32) (groups : List Group) (code : List Coded) : Body where
  locals := groups.map Group.locals
  code := instrsFrom 0 code
  head := BitVec.ofNat 32 (declBytes count groups).length

/-! ### Bytes -/

variable {mem : BitVec 32 → BitVec 8} {b : Bytes} {short : b.len.toNat < 2 ^ 31} {room q : Nat} {x : BitVec 8}

theorem reads_byte : Reads (input mem b short) room (byte b) q [x] 0 (x.setWidth 32) := by
  intro hs held hroom
  have hlt : q < b.len.toNat := hs.1
  have hpos : (BitVec.ofNat 32 q).toNat = q := toNat_ofNat_of_lt (by omega)
  have hin : b.len.sle (BitVec.ofNat 32 q) = false := by
    rw [← Bool.not_eq_true, Lib.sle_iff short (by omega), hpos]
    omega
  simp only [byte, ideal_bind, ideal, done_bind, hin, Bool.or_self, Bool.false_eq_true, if_false]
  exact reads_read hs held hroom

/-! ### LEB128 -/

/-- **The rounds of a LEB128 reader**, whatever it keeps: one for each byte. -/
theorem rounds_leb {i : Input} {σ ρ : Type} {round : σ → Reading (σ ⊕ ρ)} (st : Nat → Nat → σ) (out : Nat → Nat → BitVec 8 → ρ) {limit : Nat}
    (hlast : ∀ a j x q, x.toNat < 128 → a < 2 ^ (7 * j) → j < limit →
      Reads i room (round (st a j)) q [x] 0 (.inr (out (a + 2 ^ (7 * j) * (x.toNat % 128)) (j + 1) x)))
    (hmore : ∀ a j x q, 128 ≤ x.toNat → a < 2 ^ (7 * j) → j + 1 < limit →
      Reads i room (round (st a j)) q [x] 0 (.inl (st (a + 2 ^ (7 * j) * (x.toNat % 128)) (j + 1)))) {bs : List (BitVec 8)} (hbs : IsLeb bs) :
    ∃ last : BitVec 8, (64 ≤ last.toNat % 128 ↔ negative bs = true) ∧ ∀ a j q, a < 2 ^ (7 * j) → j + bs.length ≤ limit →
      Rounds i room round (st a j) q bs 0 (out (a + 2 ^ (7 * j) * unsigned bs) (j + bs.length) last) := by
  induction hbs with
  | @last x hx =>
    refine ⟨x, by rw [negative, decide_eq_true_iff], fun a j q ha hj => ?_⟩
    rw [unsigned, unsigned, Nat.mul_zero, Nat.add_zero]
    rw [List.length_singleton] at hj ⊢
    exact .last (hlast a j x q hx ha (by omega))
  | @more x bs hx t ih =>
    obtain ⟨last, hneg, hrest⟩ := ih
    have hpos := List.length_pos_iff.mpr t.ne_nil
    refine ⟨last, ?_, fun a j q ha hj => ?_⟩
    · obtain ⟨c, cs, rfl⟩ := List.exists_cons_of_ne_nil t.ne_nil
      exact hneg
    · rw [List.length_cons] at hj
      have hnext : a + 2 ^ (7 * j) * (x.toNat % 128) < 2 ^ (7 * (j + 1)) := by
        have hmul : 2 ^ (7 * j) * (x.toNat % 128) ≤ 2 ^ (7 * j) * 127 := Nat.mul_le_mul_left _ (by omega)
        rw [Nat.mul_succ, pow_add]
        omega
      have hrounds := Rounds.more (List.cons_ne_nil x []) (hmore a j x q hx ha (by omega)) (hrest _ (j + 1) (q + 1) hnext (by omega))
      have hvalue : a + 2 ^ (7 * j) * (x.toNat % 128) + 2 ^ (7 * (j + 1)) * unsigned bs = a + 2 ^ (7 * j) * unsigned (x :: bs) := by
        rw [unsigned, Nat.mul_succ, pow_add]
        ring
      rw [hvalue, Nat.add_right_comm, Nat.add_assoc] at hrounds
      exact hrounds

theorem goes_on : ∀ x : BitVec 8, x.setWidth 32 &&& 128#32 = 0#32 ↔ x.toNat < 128 := by decide

theorem sign_bit : ∀ x : BitVec 8, x.setWidth 32 &&& 64#32 ≠ 0#32 ↔ 64 ≤ x.toNat % 128 := by decide

theorem group_bits : ∀ x : BitVec 8, x.setWidth 32 &&& 127#32 = BitVec.ofNat 32 (x.toNat % 128) := by decide

/-- A group, put above the others. -/
theorem group32 {a j : Nat} (ha : a < 2 ^ (7 * j)) (hj : j ≤ 9) (x : BitVec 8) :
    BitVec.ofNat 32 a ||| ((x.setWidth 32 &&& 127#32) <<< BitVec.ofNat 32 (7 * j)) = BitVec.ofNat 32 (a + 2 ^ (7 * j) * (x.toNat % 128)) := by
  rw [group_bits, BitVec.shiftLeft_eq', toNat_ofNat_of_lt (by omega), or_shift _ ha]

theorem group64 {a j : Nat} (ha : a < 2 ^ (7 * j)) (hj : j ≤ 9) (x : BitVec 8) :
    BitVec.ofNat 64 a ||| ((x.setWidth 32 &&& 127#32).setWidth 64 <<< BitVec.ofNat 64 (7 * j)) = BitVec.ofNat 64 (a + 2 ^ (7 * j) * (x.toNat % 128)) := by
  have hbits : (BitVec.ofNat 32 (x.toNat % 128)).setWidth 64 = BitVec.ofNat 64 (x.toNat % 128) := by
    refine BitVec.eq_of_toNat_eq ?_
    rw [BitVec.toNat_setWidth, toNat_ofNat_of_lt (by omega), BitVec.toNat_ofNat]
  have hshift : (BitVec.ofNat 64 (7 * j)).toNat = 7 * j := by rw [BitVec.toNat_ofNat, Nat.mod_eq_of_lt (by omega)]
  rw [group_bits, hbits, BitVec.shiftLeft_eq', hshift, or_shift _ ha]

theorem next_shift32 {j : Nat} : BitVec.ofNat 32 (7 * j) + 7#32 = BitVec.ofNat 32 (7 * (j + 1)) := by
  rw [Nat.mul_succ, BitVec.ofNat_add]

theorem next_shift64 {j : Nat} : BitVec.ofNat 64 (7 * j) + 7#64 = BitVec.ofNat 64 (7 * (j + 1)) := by
  rw [Nat.mul_succ, BitVec.ofNat_add]

/-- Comparison of numbers that are small for the width. -/
theorem slt_ofNat {w m n : Nat} (hm : 2 * m < 2 ^ w) (hn : 2 * n < 2 ^ w) : (BitVec.ofNat w m).slt (BitVec.ofNat w n) = decide (m < n) := by
  have hval : ∀ m, 2 * m < 2 ^ w → (BitVec.ofNat w m).toInt = m := fun m hm => by
    have hnat : (BitVec.ofNat w m).toNat = m := by rw [BitVec.toNat_ofNat, Nat.mod_eq_of_lt (by omega)]
    rw [BitVec.toInt_eq_toNat_of_lt (by rw [hnat]; exact hm), hnat]
  rw [BitVec.slt, hval m hm, hval n hn]
  exact decide_eq_decide.mpr Int.ofNat_lt

/-- **An unsigned number.** -/
theorem reads_u32 (n : U32) : Reads (input mem b short) room (u32 b) q n.bytes 0 n.value := by
  have hlast : ∀ a j (x : BitVec 8) q, x.toNat < 128 → a < 2 ^ (7 * j) → j < 5 → Reads (input mem b short) room
      (u32Round b (BitVec.ofNat 32 a, BitVec.ofNat 32 (7 * j))) q [x] 0 (.inr (BitVec.ofNat 32 (a + 2 ^ (7 * j) * (x.toNat % 128)))) := by
    intro a j x q hx ha hj
    refine reads_map reads_byte ?_
    rw [group32 ha (by omega), if_pos ((goes_on x).mpr hx)]
    exact reads_pure _
  have hmore : ∀ a j (x : BitVec 8) q, 128 ≤ x.toNat → a < 2 ^ (7 * j) → j + 1 < 5 → Reads (input mem b short) room
      (u32Round b (BitVec.ofNat 32 a, BitVec.ofNat 32 (7 * j))) q [x] 0
        (.inl (BitVec.ofNat 32 (a + 2 ^ (7 * j) * (x.toNat % 128)), BitVec.ofNat 32 (7 * (j + 1)))) := by
    intro a j x q hx ha hj
    refine reads_map reads_byte ?_
    have hshift : (28#32).slt (BitVec.ofNat 32 (7 * (j + 1))) = false := (slt_ofNat (by decide) (by omega)).trans (decide_eq_false (by omega))
    rw [group32 ha (by omega), if_neg (fun h => by have := (goes_on x).mp h; omega), next_shift32]
    dsimp only
    rw [hshift, if_neg Bool.false_ne_true]
    exact reads_pure _
  obtain ⟨last, -, hrounds⟩ := rounds_leb (fun a j => (BitVec.ofNat 32 a, BitVec.ofNat 32 (7 * j))) (fun a _ _ => BitVec.ofNat 32 a)
    hlast hmore n.leb
  have hread := reads_loop (hrounds 0 0 q (by decide) (by have := n.short; omega))
  rw [Nat.mul_zero, pow_zero, Nat.one_mul, Nat.zero_add] at hread
  exact hread

/-- The bits above the last group, of a negative number. -/
theorem neg_shiftLeft (w s : Nat) : -(1#w <<< s) = (-1#w) <<< s := by
  rw [BitVec.shiftLeft_eq_mul_twoPow, BitVec.shiftLeft_eq_mul_twoPow, BitVec.neg_mul]

/-- **A signed number of 32 bits.** -/
theorem reads_s32 (n : S32) : Reads (input mem b short) room (s32 b) q n.bytes 0 n.value := by
  have hlast : ∀ a j (x : BitVec 8) q, x.toNat < 128 → a < 2 ^ (7 * j) → j < 5 → Reads (input mem b short) room
      (s32Round b (BitVec.ofNat 32 a, BitVec.ofNat 32 (7 * j))) q [x] 0
        (.inr (BitVec.ofNat 32 (a + 2 ^ (7 * j) * (x.toNat % 128)), BitVec.ofNat 32 (7 * (j + 1)), x.setWidth 32)) := by
    intro a j x q hx ha hj
    refine reads_map reads_byte ?_
    rw [group32 ha (by omega), next_shift32]
    dsimp only
    rw [if_pos ((goes_on x).mpr hx)]
    exact reads_pure _
  have hmore : ∀ a j (x : BitVec 8) q, 128 ≤ x.toNat → a < 2 ^ (7 * j) → j + 1 < 5 → Reads (input mem b short) room
      (s32Round b (BitVec.ofNat 32 a, BitVec.ofNat 32 (7 * j))) q [x] 0
        (.inl (BitVec.ofNat 32 (a + 2 ^ (7 * j) * (x.toNat % 128)), BitVec.ofNat 32 (7 * (j + 1)))) := by
    intro a j x q hx ha hj
    refine reads_map reads_byte ?_
    have hshift : (28#32).slt (BitVec.ofNat 32 (7 * (j + 1))) = false := (slt_ofNat (by decide) (by omega)).trans (decide_eq_false (by omega))
    rw [group32 ha (by omega), next_shift32]
    dsimp only
    rw [if_neg (fun h => by have := (goes_on x).mp h; omega), hshift, if_neg Bool.false_ne_true]
    exact reads_pure _
  obtain ⟨last, hneg, hrounds⟩ := rounds_leb (fun a j => (BitVec.ofNat 32 a, BitVec.ofNat 32 (7 * j)))
    (fun a j x => (BitVec.ofNat 32 a, BitVec.ofNat 32 (7 * j), x.setWidth 32)) hlast hmore n.leb
  have hshort := n.short
  have hread := reads_loop (hrounds 0 0 q (by decide) (by omega))
  rw [Nat.mul_zero, pow_zero, Nat.one_mul, Nat.zero_add, Nat.zero_add] at hread
  refine reads_map hread ?_
  have hshift : (BitVec.ofNat 32 (7 * n.bytes.length)).slt 32#32 = decide (7 * n.bytes.length < 32) := slt_ofNat (by omega) (by decide)
  have hones : -1#32 <<< BitVec.ofNat 32 (7 * n.bytes.length) = (-1#32) <<< (7 * n.bytes.length) := by
    rw [BitVec.shiftLeft_eq', toNat_ofNat_of_lt (by omega), neg_shiftLeft]
  have hvalue : (if (BitVec.ofNat 32 (7 * n.bytes.length)).slt 32#32 && decide (last.setWidth 32 &&& 64#32 ≠ 0#32) then
      BitVec.ofNat 32 (unsigned n.bytes) ||| (-1#32 <<< BitVec.ofNat 32 (7 * n.bytes.length)) else BitVec.ofNat 32 (unsigned n.bytes)) = n.value := by
    rw [S32.value, ofInt_signed n.leb, hones, hshift]
    simp only [Bool.and_eq_true, decide_eq_true_eq, sign_bit, hneg]
  exact hvalue ▸ reads_pure _

/-- **A signed number of 64 bits.** -/
theorem reads_s64 (n : S64) : Reads (input mem b short) room (s64 b) q n.bytes 0 n.value := by
  have hlast : ∀ a j (x : BitVec 8) q, x.toNat < 128 → a < 2 ^ (7 * j) → j < 10 → Reads (input mem b short) room
      (s64Round b (BitVec.ofNat 64 a, BitVec.ofNat 64 (7 * j))) q [x] 0
        (.inr (BitVec.ofNat 64 (a + 2 ^ (7 * j) * (x.toNat % 128)), BitVec.ofNat 64 (7 * (j + 1)), x.setWidth 32)) := by
    intro a j x q hx ha hj
    refine reads_map reads_byte ?_
    rw [group64 ha (by omega), next_shift64]
    dsimp only
    rw [if_pos ((goes_on x).mpr hx)]
    exact reads_pure _
  have hmore : ∀ a j (x : BitVec 8) q, 128 ≤ x.toNat → a < 2 ^ (7 * j) → j + 1 < 10 → Reads (input mem b short) room
      (s64Round b (BitVec.ofNat 64 a, BitVec.ofNat 64 (7 * j))) q [x] 0
        (.inl (BitVec.ofNat 64 (a + 2 ^ (7 * j) * (x.toNat % 128)), BitVec.ofNat 64 (7 * (j + 1)))) := by
    intro a j x q hx ha hj
    refine reads_map reads_byte ?_
    have hshift : (63#64).slt (BitVec.ofNat 64 (7 * (j + 1))) = false := (slt_ofNat (by decide) (by omega)).trans (decide_eq_false (by omega))
    rw [group64 ha (by omega), next_shift64]
    dsimp only
    rw [if_neg (fun h => by have := (goes_on x).mp h; omega), hshift, if_neg Bool.false_ne_true]
    exact reads_pure _
  obtain ⟨last, hneg, hrounds⟩ := rounds_leb (fun a j => (BitVec.ofNat 64 a, BitVec.ofNat 64 (7 * j)))
    (fun a j x => (BitVec.ofNat 64 a, BitVec.ofNat 64 (7 * j), x.setWidth 32)) hlast hmore n.leb
  have hshort := n.short
  have hread := reads_loop (hrounds 0 0 q (by decide) (by omega))
  rw [Nat.mul_zero, pow_zero, Nat.one_mul, Nat.zero_add, Nat.zero_add] at hread
  refine reads_map hread ?_
  have hshift : (BitVec.ofNat 64 (7 * n.bytes.length)).slt 64#64 = decide (7 * n.bytes.length < 64) := slt_ofNat (by omega) (by decide)
  have hones : -1#64 <<< BitVec.ofNat 64 (7 * n.bytes.length) = (-1#64) <<< (7 * n.bytes.length) := by
    rw [BitVec.shiftLeft_eq', BitVec.toNat_ofNat, Nat.mod_eq_of_lt (by omega), neg_shiftLeft]
  have hvalue : (if (BitVec.ofNat 64 (7 * n.bytes.length)).slt 64#64 && decide (last.setWidth 32 &&& 64#32 ≠ 0#32) then
      BitVec.ofNat 64 (unsigned n.bytes) ||| (-1#64 <<< BitVec.ofNat 64 (7 * n.bytes.length)) else BitVec.ofNat 64 (unsigned n.bytes)) = n.value := by
    rw [S64.value, ofInt_signed n.leb, hones, hshift]
    simp only [Bool.and_eq_true, decide_eq_true_eq, sign_bit, hneg]
  exact hvalue ▸ reads_pure _

/-! ### Floats -/

/-- Little-endian bytes, put above what is there. -/
theorem reads_floatBits' : ∀ (n k a v q : Nat), a < 2 ^ (8 * k) → k + n ≤ 8 → Reads (input mem b short) room (floatBits b n k (BitVec.ofNat 64 a)) q
    (leBytes n v) 0 (BitVec.ofNat 64 (a + 2 ^ (8 * k) * (v % 2 ^ (8 * n))))
  | 0, k, a, v, q, ha, hk => by
      rw [Nat.mul_zero, pow_zero, Nat.mod_one, Nat.mul_zero, Nat.add_zero]
      exact reads_pure _
  | n + 1, k, a, v, q, ha, hk => by
      have hbyte : ((BitVec.ofNat 8 v).setWidth 32).setWidth 64 = BitVec.ofNat 64 (v % 256) := by
        refine BitVec.eq_of_toNat_eq ?_
        simp only [BitVec.toNat_setWidth, BitVec.toNat_ofNat]
        omega
      have hnext : a + 2 ^ (8 * k) * (v % 256) < 2 ^ (8 * (k + 1)) := by
        have hmul : 2 ^ (8 * k) * (v % 256) ≤ 2 ^ (8 * k) * 255 := Nat.mul_le_mul_left _ (by omega)
        rw [Nat.mul_succ, pow_add]
        omega
      have hrest := reads_floatBits' n (k + 1) (a + 2 ^ (8 * k) * (v % 256)) (v / 256) (q + 1) hnext (by omega)
      have hvalue : a + 2 ^ (8 * k) * (v % 256) + 2 ^ (8 * (k + 1)) * (v / 256 % 2 ^ (8 * n)) = a + 2 ^ (8 * k) * (v % 2 ^ (8 * (n + 1))) := by
        have hmod : v % 2 ^ (8 * (n + 1)) = v % 256 + 256 * (v / 256 % 2 ^ (8 * n)) := by
          rw [Nat.mul_succ, Nat.add_comm, pow_add]
          exact Nat.mod_mul
        rw [hmod, Nat.mul_succ, pow_add]
        ring
      rw [hvalue, ← or_shift (w := 64) _ ha, ← hbyte] at hrest
      exact reads_bind (f := fun c : BitVec 32 => floatBits b n (k + 1) (BitVec.ofNat 64 a ||| (c.setWidth 64 <<< (8 * k)))) reads_byte hrest

/-- **The bits of a float.** -/
theorem reads_floatBits {n v : Nat} (hn : n ≤ 8) (hv : v < 2 ^ (8 * n)) :
    Reads (input mem b short) room (floatBits b n 0 0#64) q (leBytes n v) 0 (BitVec.ofNat 64 v) := by
  have hread : Reads (input mem b short) room (floatBits b n 0 0#64) q (leBytes n v) 0 (BitVec.ofNat 64 (0 + 2 ^ (8 * 0) * (v % 2 ^ (8 * n)))) :=
    reads_floatBits' n 0 0 v q (by decide) (by omega)
  rw [Nat.mod_eq_of_lt hv, Nat.mul_zero, pow_zero, Nat.one_mul, Nat.zero_add] at hread
  exact hread

end Aipl.WasmReader
