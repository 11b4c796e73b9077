import Aipl.Lib.Wasm.Runs
import Aipl.Lib.Wasm.Wide
import Aipl.Std.Buf.Decimal

/-! # `$aipl_dec`

The code that writes an `i64` in decimal for the messages of checks: the digits are counted by one loop, and written
from the last to the first by another.

* `countLoop_runs`, `writeLoop_runs` — the two loops.
* `dec_runs` — a call writes the number's numeral.
* `dec_exact` — and `str.parse_i64` reads it back.
-/

namespace Aipl.Compiler.Dec

open Aipl.Lib Aipl.Lib.Wasm Aipl.Lib.Numeral Aipl.StdBuf
open Aipl.Lib.Mem (SameOutside)

/-! ### The code -/

/-- A `-`, and the magnitude, read unsigned. -/
def negateCode : Code WideOp := Code.ofList [.prim (.localGet 0), .prim (.i32Const 45#32), .prim .i32Store8,
  .prim (.localGet 0), .prim (.i32Const 1#32), .prim .i32Add, .prim (.localSet 0),
  .prim (.i64Const 0#64), .prim (.localGet 1), .prim (.long .sub), .prim (.localSet 1)]

/-- A round that counts a digit. -/
def countRound : Code WideOp := Code.ofList [.prim (.localGet 2), .prim (.i64Const 10#64), .prim (.compare .ltU), .brIf 1,
  .prim (.localGet 2), .prim (.i64Const 10#64), .prim (.long .divU), .prim (.localSet 2),
  .prim (.localGet 3), .prim (.i32Const 1#32), .prim .i32Add, .prim (.localSet 3), .br 0]

/-- A round that writes a digit. -/
def writeRound : Code WideOp := Code.ofList [.prim (.localGet 0), .prim (.i32Const 1#32), .prim .i32Sub, .prim (.localTee 0),
  .prim (.localGet 1), .prim (.i64Const 10#64), .prim (.long .remU), .prim .i32WrapI64, .prim (.i32Const 48#32),
  .prim .i32Add, .prim .i32Store8,
  .prim (.localGet 1), .prim (.i64Const 10#64), .prim (.long .divU), .prim (.localTee 1), .prim (.i64Const 0#64),
  .prim (.compare .ne), .brIf 0]

/-- The body of `$aipl_dec`: the parameters `at` and `v` are locals 0 and 1, `t` and `end` are 2 and 3. -/
def decBody : Code WideOp := Code.ofList [.prim (.localGet 1), .prim (.i64Const 0#64), .prim (.compare .ltS),
  .ite 0 negateCode .nop,
  .prim (.localGet 1), .prim (.localSet 2), .prim (.localGet 0), .prim (.i32Const 1#32), .prim .i32Add, .prim (.localSet 3),
  .block 0 (.loop countRound),
  .prim (.localGet 3), .prim (.localSet 0),
  .loop writeRound,
  .prim (.localGet 3)]

/-- The locals that are no parameters start as zero. -/
def decLocals (i : Nat) : Val := if i = 2 then .i64 0#64 else .i32 0#32

/-- A module with the function as its function 0. -/
def env : Env WideOp Mem := ⟨WideOp.sem, fun f => if f = 0 then some (.code 2 1 decLocals decBody) else none⟩

/-! ### The locals -/

def slots (p : BitVec 32) (v t : BitVec 64) (e : BitVec 32) : Nat → Val
  | 0 => .i32 p
  | 1 => .i64 v
  | 2 => .i64 t
  | 3 => .i32 e
  | _ => .i32 0#32

variable {p q e : BitVec 32} {v u t : BitVec 64} {m : Mem} {below : List Val}

@[simp] theorem update_slots_0 : Function.update (slots p v t e) 0 (.i32 q) = slots q v t e := by
  funext i
  match i with
  | 0 | 1 | 2 | 3 | _ + 4 => rfl

@[simp] theorem update_slots_1 : Function.update (slots p v t e) 1 (.i64 u) = slots p u t e := by
  funext i
  match i with
  | 0 | 1 | 2 | 3 | _ + 4 => rfl

@[simp] theorem update_slots_2 : Function.update (slots p v t e) 2 (.i64 u) = slots p v u e := by
  funext i
  match i with
  | 0 | 1 | 2 | 3 | _ + 4 => rfl

@[simp] theorem update_slots_3 : Function.update (slots p v t e) 3 (.i32 q) = slots p v t q := by
  funext i
  match i with
  | 0 | 1 | 2 | 3 | _ + 4 => rfl

theorem callLocals_dec : callLocals [.i64 v, .i32 p] decLocals = slots p v 0#64 0#32 := by
  funext i
  match i with
  | 0 | 1 | 2 | 3 | _ + 4 => rfl

/-- Plain instructions that all go on, before other code. -/
theorem runs_ops (l : List WideOp) {rest : List (Code WideOp)} {σ σ' : State Mem} {o : Out Mem}
    (h : semAll WideOp.sem l σ = .next σ') (hrest : Runs env (Code.ofList rest) σ' o) :
    Runs env (Code.ofList (l.map .prim ++ rest)) σ o :=
  (runs_plain_append h).mpr hrest

/-! ### Counting -/

/-- A number below ten ends the count. -/
theorem countRound_last (ht : t.toNat < 10) :
    Runs env countRound ⟨[], slots p v t e, m⟩ (.br 1 ⟨[], slots p v t e, m⟩) := by
  have hult : t.ult 10#64 = true := by simpa [BitVec.ult] using ht
  have htest : semAll WideOp.sem [.localGet 2, .i64Const 10#64, .compare .ltU] ⟨[], slots p v t e, m⟩ =
      .next ⟨[.i32 1#32], slots p v t e, m⟩ := by
    simp [semAll, WideOp.sem, slots, LongCmp.eval, hult]
  exact runs_ops _ htest (runs_brIf_taken (by decide))

/-- Any other has a digit before its last. -/
theorem countRound_again (ht : 10 ≤ t.toNat) :
    Runs env countRound ⟨[], slots p v t e, m⟩ (.br 0 ⟨[], slots p v (t / 10#64) (e + 1#32), m⟩) := by
  have hult : t.ult 10#64 = false := by simpa [BitVec.ult] using ht
  have htest : semAll WideOp.sem [.localGet 2, .i64Const 10#64, .compare .ltU] ⟨[], slots p v t e, m⟩ =
      .next ⟨[.i32 0#32], slots p v t e, m⟩ := by
    simp [semAll, WideOp.sem, slots, LongCmp.eval, hult]
  have hrest : semAll WideOp.sem [.localGet 2, .i64Const 10#64, .long .divU, .localSet 2, .localGet 3, .i32Const 1#32, .i32Add,
      .localSet 3] ⟨[], slots p v t e, m⟩ = .next ⟨[], slots p v (t / 10#64) (e + 1#32), m⟩ := by
    simp [semAll, WideOp.sem, slots, LongOp.eval]
  refine runs_ops _ htest (runs_brIf_skip.mpr (runs_ops _ hrest ?_))
  exact runs_seq_out (runs_of_exec (fun _ => rfl) fun h => by cases h) fun _ h => by cases h

/-- The number of digits. -/
def digitCount (n : Nat) : Nat := (remainders 10 n).length

theorem digitCount_small {n : Nat} (hn : n < 10) : digitCount n = 1 := by
  rw [digitCount, remainders, Nat.div_eq_of_lt hn, Nat.digits_zero]
  rfl

theorem remainders_step {n : Nat} (hn : 10 ≤ n) : remainders 10 n = n % 10 :: remainders 10 (n / 10) := by
  rw [remainders, remainders_of_pos (by decide) (Nat.div_pos hn (by decide))]

theorem digitCount_step {n : Nat} (hn : 10 ≤ n) : digitCount n = digitCount (n / 10) + 1 := by
  rw [digitCount, remainders_step hn]
  rfl

theorem digitCount_pos (n : Nat) : 0 < digitCount n := Nat.succ_pos _

/-- **The counting loop** leaves `end` past the numeral's last digit. -/
theorem countLoop_runs : ∀ (n : Nat) (t : BitVec 64) (e : BitVec 32), t.toNat = n → ∃ t',
    Runs env (.loop countRound) ⟨[], slots p v t e, m⟩ (.br 0 ⟨[], slots p v t' (e + BitVec.ofNat 32 (digitCount n - 1)), m⟩) := by
  intro n
  induction n using Nat.strongRecOn with
  | ind n ih =>
    rintro t e rfl
    rcases Nat.lt_or_ge t.toNat 10 with hlt | hge
    · refine ⟨t, ?_⟩
      have hne : ∀ σ', Out.br 1 ⟨[], slots p v t e, m⟩ ≠ .br 0 σ' := fun _ h => by cases h
      have hround : Runs env countRound ⟨[], slots p v t e, m⟩ (.br 1 ⟨[], slots p v t e, m⟩) := countRound_last hlt
      have hloop : Runs env (.loop countRound) ⟨[], slots p v t e, m⟩ _ := runs_loop_out hround hne
      rw [digitCount_small hlt]
      simpa [Out.leave] using hloop
    · have hdiv : (t / 10#64).toNat = t.toNat / 10 := BitVec.toNat_udiv
      obtain ⟨t', ht'⟩ := ih (t.toNat / 10) (by omega) (t / 10#64) (e + 1#32) hdiv
      refine ⟨t', (runs_loop_again (countRound_again hge)).mpr ?_⟩
      have hpos := digitCount_pos (t.toNat / 10)
      have hstep : e + BitVec.ofNat 32 (digitCount t.toNat - 1) = e + 1#32 + BitVec.ofNat 32 (digitCount (t.toNat / 10) - 1) := by
        rw [digitCount_step hge, BitVec.add_assoc, ← BitVec.ofNat_add,
          show digitCount (t.toNat / 10) + 1 - 1 = 1 + (digitCount (t.toNat / 10) - 1) by omega]
      rw [hstep]
      exact ht'

/-! ### Writing -/

/-- The character of the last digit. -/
theorem setWidth_lastDigit (v : BitVec 64) :
    ((v % 10#64).setWidth 32 + 48#32).setWidth 8 = digitText false (v.toNat % 10) := by
  have hlt : v.toNat % 10 < 10 := Nat.mod_lt _ (by decide)
  refine BitVec.eq_of_toNat_eq ?_
  rw [digitText, if_pos hlt]
  have hmod : (v % 10#64).toNat = v.toNat % 10 := BitVec.toNat_umod
  simp only [BitVec.toNat_setWidth, BitVec.toNat_add, hmod, BitVec.toNat_ofNat]
  omega

theorem numeral_small {n : Nat} (hn : n < 10) : numeral 10 false n = [digitText false (n % 10)] := by
  rw [numeral_eq (by decide), remainders, Nat.div_eq_of_lt hn, Nat.digits_zero]
  rfl

theorem numeral_step {n : Nat} (hn : 10 ≤ n) : numeral 10 false n = numeral 10 false (n / 10) ++ [digitText false (n % 10)] := by
  rw [numeral_eq (by decide), numeral_eq (by decide), remainders_step hn, List.map_cons, List.reverse_cons]

theorem length_numeral (n : Nat) : (numeral 10 false n).length = digitCount n := by
  rw [numeral_eq (by decide), List.length_reverse, List.length_map, digitCount]

/-- The memory with the last digit at `q`. -/
def withDigit (m : Mem) (q : BitVec 32) (v : BitVec 64) : Mem := m.setByte q.toNat ((v % 10#64).setWidth 32 + 48#32)

/-- The instructions of a round, up to its branch. -/
theorem writeOps_next (hq : p - 1#32 = q) (hroom : q.toNat + 1 ≤ m.size) :
    semAll WideOp.sem [.localGet 0, .i32Const 1#32, .i32Sub, .localTee 0, .localGet 1, .i64Const 10#64, .long .remU,
      .i32WrapI64, .i32Const 48#32, .i32Add, .i32Store8, .localGet 1, .i64Const 10#64, .long .divU, .localTee 1,
      .i64Const 0#64, .compare .ne] ⟨[], slots p v t e, m⟩ =
    .next ⟨[.i32 (if v / 10#64 != 0#64 then 1#32 else 0#32)], slots q (v / 10#64) t e, withDigit m q v⟩ := by
  have hlt : q.toNat < m.size := hroom
  simp [semAll, WideOp.sem, slots, LongOp.eval, LongCmp.eval, withDigit, hq, hlt]

/-- **The writing loop** writes the numeral that ends before `p`, and nothing else. -/
theorem writeLoop_runs : ∀ (n : Nat) (v : BitVec 64) (a : Nat) (m : Mem), v.toNat = n → a + digitCount n ≤ m.size →
    m.size ≤ 2 ^ 32 → ∃ m', Runs env (.loop writeRound) ⟨[], slots (BitVec.ofNat 32 (a + digitCount n)) v t e, m⟩
      (.next ⟨[], slots (BitVec.ofNat 32 a) 0#64 t e, m'⟩) ∧
      m'.bytes a (digitCount n) = numeral 10 false n ∧ SameOutside a (a + digitCount n) m m' := by
  intro n
  induction n using Nat.strongRecOn with
  | ind n ih =>
    rintro v a m rfl hroom hsize
    have hpos := digitCount_pos v.toNat
    have hprev : BitVec.ofNat 32 (a + digitCount v.toNat) - 1#32 = BitVec.ofNat 32 (a + (digitCount v.toNat - 1)) := by
      rw [show a + digitCount v.toNat = a + (digitCount v.toNat - 1) + 1 by omega, BitVec.ofNat_add, BitVec.add_sub_cancel]
    have haddr : (BitVec.ofNat 32 (a + (digitCount v.toNat - 1))).toNat = a + (digitCount v.toNat - 1) := by
      rw [BitVec.toNat_ofNat, Nat.mod_eq_of_lt (by omega)]
    have hops := writeOps_next (v := v) (t := t) (e := e) (m := m) hprev (by rw [haddr]; omega)
    have hdiv : (v / 10#64).toNat = v.toNat / 10 := BitVec.toNat_udiv
    have hbyte : (withDigit m (BitVec.ofNat 32 (a + (digitCount v.toNat - 1))) v).byte (a + (digitCount v.toNat - 1)) =
        digitText false (v.toNat % 10) := by
      rw [withDigit, haddr, Mem.byte_setByte, if_pos rfl, setWidth_lastDigit]
    have hsame : SameOutside a (a + digitCount v.toNat) m (withDigit m (BitVec.ofNat 32 (a + (digitCount v.toNat - 1))) v) := by
      rw [withDigit, haddr]
      exact (SameOutside.refl _ _ m).setByte (Nat.le_add_right _ _) (by omega)
    rcases Nat.lt_or_ge v.toNat 10 with hlt | hge
    · have hzero : v / 10#64 = 0#64 := BitVec.eq_of_toNat_eq (by rw [hdiv, Nat.div_eq_of_lt hlt]; rfl)
      rw [hzero] at hops
      rw [digitCount_small hlt] at hops hbyte hsame ⊢
      have hround : Runs env writeRound ⟨[], slots (BitVec.ofNat 32 (a + 1)) v t e, m⟩
          (.next ⟨[], slots (BitVec.ofNat 32 a) 0#64 t e, withDigit m (BitVec.ofNat 32 a) v⟩) :=
        runs_ops _ hops (runs_brIf_skip.mpr runs_nop)
      have hne : ∀ σ', Out.next ⟨[], slots (BitVec.ofNat 32 a) 0#64 t e, withDigit m (BitVec.ofNat 32 a) v⟩ ≠ .br 0 σ' :=
        fun _ h => by cases h
      refine ⟨_, runs_loop_out hround hne, ?_, hsame⟩
      rw [numeral_small hlt, ← hbyte]
      rfl
    · obtain ⟨m', hrun, hbytes, hsame'⟩ := ih (v.toNat / 10) (by omega) (v / 10#64) a
        (withDigit m (BitVec.ofNat 32 (a + (digitCount v.toNat - 1))) v) hdiv
        (by rw [hsame.size]; have hstep := digitCount_step hge; omega) (by rw [hsame.size]; exact hsize)
      have hpred : digitCount v.toNat - 1 = digitCount (v.toNat / 10) := by rw [digitCount_step hge, Nat.add_sub_cancel]
      have hne : v / 10#64 ≠ 0#64 := fun h => by
        have hzero := congrArg BitVec.toNat h
        rw [hdiv] at hzero
        exact absurd hzero (Nat.div_pos hge (by decide)).ne'
      rw [hpred] at hops hbyte hrun hsame hsame'
      have hbne : (v / 10#64 != 0#64) = true := by simpa using hne
      rw [hbne, if_pos rfl] at hops
      have hround := runs_ops _ hops (show Runs env (Code.ofList [.brIf 0]) _ _ from runs_brIf_taken (by decide))
      refine ⟨m', (runs_loop_again hround).mpr hrun, ?_, hsame.trans (hsame'.mono le_rfl (by rw [digitCount_step hge]; omega))⟩
      rw [digitCount_step hge, Mem.bytes_add, hbytes, numeral_step hge, ← hbyte,
        ← hsame'.byte (a + digitCount (v.toNat / 10)) (.inr le_rfl)]
      rfl

/-! ### The call -/

/-- What follows the test of the sign. -/
def magnitudeCode : List (Code WideOp) := [.prim (.localGet 1), .prim (.localSet 2), .prim (.localGet 0), .prim (.i32Const 1#32),
  .prim .i32Add, .prim (.localSet 3), .block 0 (.loop countRound), .prim (.localGet 3), .prim (.localSet 0), .loop writeRound,
  .prim (.localGet 3)]

/-- The magnitude is written at `a`, and the address after it left. -/
theorem magnitude_runs {a n : Nat} (hv : v.toNat = n) (hroom : a + digitCount n ≤ m.size) (hsize : m.size ≤ 2 ^ 32) :
    ∃ l m', Runs env (Code.ofList magnitudeCode) ⟨[], slots (BitVec.ofNat 32 a) v t e, m⟩
        (.next ⟨[.i32 (BitVec.ofNat 32 (a + digitCount n))], l, m'⟩) ∧
      m'.bytes a (digitCount n) = numeral 10 false n ∧ SameOutside a (a + digitCount n) m m' := by
  have hpos := digitCount_pos n
  obtain ⟨t', hcount⟩ := countLoop_runs (p := BitVec.ofNat 32 a) (v := v) (m := m) n v (BitVec.ofNat 32 a + 1#32) hv
  have hend : BitVec.ofNat 32 a + 1#32 + BitVec.ofNat 32 (digitCount n - 1) = BitVec.ofNat 32 (a + digitCount n) := by
    rw [← BitVec.ofNat_add, ← BitVec.ofNat_add, show a + 1 + (digitCount n - 1) = a + digitCount n by omega]
  rw [hend] at hcount
  obtain ⟨m', hwrite, hbytes, hsame⟩ := writeLoop_runs (t := t') (e := BitVec.ofNat 32 (a + digitCount n)) n v a m hv hroom hsize
  have hblock : Runs env (.block 0 (.loop countRound)) ⟨[], slots (BitVec.ofNat 32 a) v v (BitVec.ofNat 32 a + 1#32), m⟩
      (.next ⟨[], slots (BitVec.ofNat 32 a) v t' (BitVec.ofNat 32 (a + digitCount n)), m⟩) :=
    runs_block.mpr ⟨_, hcount, rfl⟩
  have hstart : semAll WideOp.sem [.localGet 1, .localSet 2, .localGet 0, .i32Const 1#32, .i32Add, .localSet 3]
      ⟨[], slots (BitVec.ofNat 32 a) v t e, m⟩ = .next ⟨[], slots (BitVec.ofNat 32 a) v v (BitVec.ofNat 32 a + 1#32), m⟩ := by
    simp [semAll, WideOp.sem, slots]
  have hagain : semAll WideOp.sem [.localGet 3, .localSet 0]
      ⟨[], slots (BitVec.ofNat 32 a) v t' (BitVec.ofNat 32 (a + digitCount n)), m⟩ =
      .next ⟨[], slots (BitVec.ofNat 32 (a + digitCount n)) v t' (BitVec.ofNat 32 (a + digitCount n)), m⟩ := by
    simp [semAll, WideOp.sem, slots]
  refine ⟨slots (BitVec.ofNat 32 a) 0#64 t' (BitVec.ofNat 32 (a + digitCount n)), m', ?_, hbytes, hsame⟩
  refine runs_ops _ hstart ((runs_seq_next hblock).mpr (runs_ops _ hagain ((runs_seq_next hwrite).mpr ?_)))
  exact runs_ops [.localGet 3] rfl runs_nop

/-- The sign is written before a negative number, whose magnitude is left. -/
theorem negate_runs (hroom : p.toNat + 1 ≤ m.size) : Runs env negateCode ⟨[], slots p v t e, m⟩
    (.next ⟨[], slots (p + 1#32) (0#64 - v) t e, m.setByte p.toNat 45#32⟩) := by
  have hlt : p.toNat < m.size := hroom
  have hops : semAll WideOp.sem [.localGet 0, .i32Const 45#32, .i32Store8, .localGet 0, .i32Const 1#32, .i32Add, .localSet 0,
      .i64Const 0#64, .localGet 1, .long .sub, .localSet 1] ⟨[], slots p v t e, m⟩ =
      .next ⟨[], slots (p + 1#32) (0#64 - v) t e, m.setByte p.toNat 45#32⟩ := by
    simp [semAll, WideOp.sem, slots, LongOp.eval, hlt]
  exact runs_ops _ hops runs_nop

theorem toNat_magnitude (h : v.toInt < 0) : (0#64 - v).toNat = v.toInt.natAbs := by
  rw [BitVec.toInt_eq_toNat_cond] at h ⊢
  rw [BitVec.toNat_sub]
  have hlt := v.isLt
  split at h
  · omega
  · rename_i hge
    rw [if_neg hge]
    simp only [BitVec.toNat_ofNat]
    omega

/-- **The body** writes the numeral of `v` at `p`, and leaves the address after it. -/
theorem decBody_runs (hroom : p.toNat + (decimal v.toInt).length ≤ m.size) (hsize : m.size ≤ 2 ^ 32) :
    ∃ l m', Runs env decBody ⟨[], slots p v 0#64 0#32, m⟩
        (.next ⟨[.i32 (p + BitVec.ofNat 32 (decimal v.toInt).length)], l, m'⟩) ∧
      m'.bytes p.toNat (decimal v.toInt).length = decimal v.toInt ∧
      SameOutside p.toNat (p.toNat + (decimal v.toInt).length) m m' := by
  have hp : p = BitVec.ofNat 32 p.toNat := by simp
  have hslt : v.slt 0#64 = decide (v.toInt < 0) := by rw [BitVec.slt_eq_decide, BitVec.toInt_zero]
  have htest : ∀ c, decide (v.toInt < 0) = c → semAll WideOp.sem [.localGet 1, .i64Const 0#64, .compare .ltS]
      ⟨[], slots p v 0#64 0#32, m⟩ = .next ⟨[.i32 (if c then 1#32 else 0#32)], slots p v 0#64 0#32, m⟩ := by
    rintro c rfl
    rw [← hslt]
    rfl
  by_cases hneg : v.toInt < 0
  · have hdecimal : decimal v.toInt = 45#8 :: numeral 10 false v.toInt.natAbs := if_pos hneg
    rw [hdecimal, List.length_cons, length_numeral] at hroom ⊢
    have htest := htest true (decide_eq_true hneg)
    obtain ⟨l, m', hrun, hbytes, hsame⟩ := magnitude_runs (t := 0#64) (e := 0#32) (m := m.setByte p.toNat 45#32)
      (a := p.toNat + 1) (toNat_magnitude hneg) (by rw [Mem.setByte, Mem.size_write]; omega)
      (by rw [Mem.setByte, Mem.size_write]; exact hsize)
    have hnext : p + 1#32 = BitVec.ofNat 32 (p.toNat + 1) := by rw [BitVec.ofNat_add, ← hp]
    have hend : p + BitVec.ofNat 32 (digitCount v.toInt.natAbs + 1) = BitVec.ofNat 32 (p.toNat + 1 + digitCount v.toInt.natAbs) := by
      rw [BitVec.ofNat_add _ (digitCount v.toInt.natAbs), ← hnext, Nat.add_comm, BitVec.ofNat_add, BitVec.add_assoc]
    rw [← hnext] at hrun
    have hsign := runs_ite_then (k := 0) (b := .nop) (s := []) (show (1#32 : BitVec 32) ≠ 0#32 by decide)
      (negate_runs (v := v) (t := 0#64) (e := 0#32) (show p.toNat + 1 ≤ m.size by omega))
    refine ⟨l, m', ?_, ?_, ?_⟩
    · refine runs_ops _ htest ((runs_seq_next hsign).mpr ?_)
      rw [hend]
      exact hrun
    · rw [Nat.add_comm, Mem.bytes_add, hbytes]
      have hbyte : m'.byte p.toNat = 45#8 := by
        rw [hsame.byte p.toNat (.inl (Nat.lt_succ_self _)), Mem.byte_setByte, if_pos rfl]
        rfl
      rw [Mem.bytes, List.range_one, List.map_singleton, Nat.add_zero, hbyte]
      rfl
    · refine ((SameOutside.refl _ _ m).setByte le_rfl (by omega)).trans (hsame.mono (Nat.le_succ _) (by omega))
  · have hdecimal : decimal v.toInt = numeral 10 false v.toInt.natAbs := if_neg hneg
    have hnat : v.toNat = v.toInt.natAbs := by
      have h := BitVec.toInt_eq_toNat_cond v
      split at h
      · omega
      · have hlt := v.isLt
        omega
    rw [hdecimal, length_numeral] at hroom ⊢
    have htest := htest false (decide_eq_false hneg)
    obtain ⟨l, m', hrun, hbytes, hsame⟩ := magnitude_runs (t := 0#64) (e := 0#32) (m := m) hnat hroom hsize
    refine ⟨l, m', ?_, hbytes, hsame⟩
    refine runs_ops _ htest ((runs_seq_next runs_ite_skip).mpr ?_)
    rw [BitVec.ofNat_add, ← hp] at hrun
    exact hrun

theorem length_decimal_le (v : BitVec 64) : (decimal v.toInt).length ≤ 20 := by
  have hlt : v.toInt.natAbs < 10 ^ (18 + 1) := by
    have h := toInt_inRange v
    simp only [InRange, Nat.add_one_sub_one] at h
    omega
  have hdigits := length_remainders_le (show 1 < 10 by decide) hlt
  rw [decimal]
  split
  · rw [List.length_cons, length_numeral, digitCount]
    omega
  · rw [length_numeral, digitCount]
    omega

/-- **`$aipl_dec`** returns with the numeral of `v` at `at_`, inside the 24 bytes that a message has for a number, and with
the address after it; `str.parse_i64` of the numeral is `v`. -/
theorem dec_exact (at_ : BitVec 32) (v : BitVec 64) (m : Mem) (below : List Val) (locals : Nat → Val)
    (hroom : at_.toNat + 24 ≤ m.size) (hsize : m.pages ≤ 65536) :
    (∃ m', Runs env (.call 0) ⟨.i64 v :: .i32 at_ :: below, locals, m⟩
        (.next ⟨.i32 (at_ + BitVec.ofNat 32 (decimal v.toInt).length) :: below, locals, m'⟩) ∧
      m'.bytes at_.toNat (decimal v.toInt).length = decimal v.toInt ∧
      SameOutside at_.toNat (at_.toNat + (decimal v.toInt).length) m m') ∧
    (decimal v.toInt).length ≤ 24 ∧
    ∀ fuel, 24 < fuel → StdStr.parseI64 StdStr.wrapping fuel (decimal v.toInt) = .done (.ok v) := by
  have hlen := length_decimal_le v
  refine ⟨?_, by omega, fun fuel hfuel => parseI64_decimal v (by omega) (by omega)⟩
  obtain ⟨l, m', hrun, hbytes, hsame⟩ := decBody_runs (p := at_) (v := v) (m := m) (by omega)
    (by rw [m.size_eq, pageSize]; omega)
  rw [← callLocals_dec] at hrun
  refine ⟨m', ?_, hbytes, hsame⟩
  have hfunc : env.funcs 0 = some (.code 2 1 decLocals decBody) := rfl
  have hcall : Runs env (.call 0) ⟨.i64 v :: .i32 at_ :: below, locals, m⟩ _ := runs_call hfunc hrun
  exact hcall

/-- A page, and -307 at 1000 in it. -/
theorem dec_page : ∃ m', Runs env (.call 0) ⟨[.i64 (-307#64), .i32 1000#32], decLocals, Mem.ofPages 1 fun _ => 0#8⟩
      (.next ⟨[.i32 1004#32], decLocals, m'⟩) ∧
    m'.bytes 1000 4 = [45#8, 51#8, 48#8, 55#8] := by
  have hdecimal : decimal (-307#64).toInt = [45#8, 51#8, 48#8, 55#8] := by
    rw [show (-307#64).toInt = -307 from by decide]
    simp [decimal, numeral, digitText]
  obtain ⟨⟨m', hrun, hbytes, -⟩, -⟩ := dec_exact 1000#32 (-307#64) (Mem.ofPages 1 fun _ => 0#8) [] decLocals (by decide) (by decide)
  rw [hdecimal] at hrun hbytes
  exact ⟨m', hrun, hbytes⟩

end Aipl.Compiler.Dec
