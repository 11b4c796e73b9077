import Aipl.Lib.X86
import Aipl.Native.X64.Model

/-! # What the forms append

* `Place`, `made_iff` — the memory operands that `mem` and `mem_index` make.
* `Writes` — a form and the bytes it appends; `writes_rr`, `writes_rm` — register and memory operands.
* `Call` — the forms with their arguments; `Call.run_eq` — the bytes of each.
-/

namespace Aipl.X64Code

open Lib Lib.Outcome Aipl.Std StdBuf Lib.X86

/-! ### Registers and memory operands -/

/-- A register, as the source numbers it. -/
def word (r : Reg) : BitVec 32 := r.setWidth 32

theorem regOk_iff (v : BitVec 32) : regOk v = true ↔ ∃ r, word r = v := by
  constructor
  · intro h
    rw [regOk, Bool.and_eq_true, BitVec.sle_iff_toInt_le, BitVec.sle_iff_toInt_le] at h
    have hhi : (15 : BitVec 32).toInt = 15 := by decide
    have hlt : v.toNat < 16 := by
      have := v.isLt
      rw [BitVec.toInt_zero, hhi, BitVec.toInt_eq_toNat_cond] at h
      split at h <;> omega
    refine ⟨v.setWidth 4, BitVec.eq_of_toNat_eq ?_⟩
    rw [word, BitVec.toNat_setWidth, BitVec.toNat_setWidth]
    omega
  · rintro ⟨r, rfl⟩
    revert r
    decide

theorem regOk_word (r : Reg) : regOk (word r) = true := (regOk_iff _).mpr ⟨r, rfl⟩

/-- A memory operand: a base, an index that is not register 4, and a displacement. -/
structure Place where
  base : Reg
  index : Option Index
  disp : BitVec 32
  index_ne : ∀ i, index = some i → i.reg ≠ 4#4

/-- The record of a memory operand. -/
def Place.record (p : Place) : Mem where
  base := word p.base
  index := match p.index with
    | some i => word i.reg
    | none => -1
  scale := match p.index with
    | some i => 1#32 <<< i.scale.toNat
    | none => 1
  disp := p.disp

/-- The address that a memory operand means. -/
def Place.addr (p : Place) : Addr := .based p.base p.index p.disp

/-- What `mem` and `mem_index` return. -/
def Made (m : Mem) : Prop :=
  (∃ base disp, mem base disp = done m) ∨ ∃ base index scale disp, memIndex base index scale disp = done m

theorem require_eq_done {b : Bool} : require b = done () ↔ b = true := by cases b <;> simp [require]

theorem scale_shift {scale : BitVec 32} (h : (scale == 1 || (scale == 2 || (scale == 4 || scale == 8))) = true) :
    ∃ s : BitVec 2, 1#32 <<< s.toNat = scale := by
  simp only [Bool.or_eq_true, beq_iff_eq] at h
  rcases h with rfl | rfl | rfl | rfl
  · exact ⟨0, rfl⟩
  · exact ⟨1, rfl⟩
  · exact ⟨2, rfl⟩
  · exact ⟨3, rfl⟩

/-- **The operands that are made** are the records of places. -/
theorem made_iff (m : Mem) : Made m ↔ ∃ p : Place, p.record = m := by
  constructor
  · rintro (⟨base, disp, h⟩ | ⟨base, index, scale, disp, h⟩)
    · obtain ⟨_, hbase, h⟩ := bind_eq_done h
      obtain ⟨b, rfl⟩ := (regOk_iff base).mp (require_eq_done.mp hbase)
      cases h
      exact ⟨⟨b, none, disp, fun i hi => by cases hi⟩, rfl⟩
    · obtain ⟨_, hbase, h⟩ := bind_eq_done h
      obtain ⟨_, hindex, h⟩ := bind_eq_done h
      obtain ⟨_, hscale, h⟩ := bind_eq_done h
      obtain ⟨b, rfl⟩ := (regOk_iff base).mp (require_eq_done.mp hbase)
      obtain ⟨hok, hne⟩ := Bool.and_eq_true_iff.mp (require_eq_done.mp hindex)
      obtain ⟨x, rfl⟩ := (regOk_iff index).mp hok
      obtain ⟨s, rfl⟩ := scale_shift (require_eq_done.mp hscale)
      cases h
      refine ⟨⟨b, some ⟨x, s⟩, disp, ?_⟩, rfl⟩
      rintro i hi heq
      cases hi
      dsimp only at heq
      subst heq
      exact absurd hne (by decide)
  · rintro ⟨⟨base, index, disp, hindex⟩, rfl⟩
    have hbase : regOk (word base) = true := regOk_word base
    rw [regOk] at hbase
    cases index with
    | none =>
      refine .inl ⟨word base, disp, ?_⟩
      rw [mem, hbase]
      rfl
    | some i =>
      refine .inr ⟨word base, word i.reg, 1#32 <<< i.scale.toNat, disp, ?_⟩
      have hok : ∀ x : Reg, x ≠ 4#4 → (((0#32).sle (word x) && (word x).sle 15) && word x != 4) = true := by decide
      have hscale : ∀ s : BitVec 2, (1#32 <<< s.toNat == 1 || (1#32 <<< s.toNat == 2 ||
          (1#32 <<< s.toNat == 4 || 1#32 <<< s.toNat == 8))) = true := by decide
      rw [memIndex, hbase, hok i.reg (hindex i rfl), hscale i.scale]
      rfl

/-! ### Bytes -/

/-- A form that appends bytes, whatever the buffer holds. -/
def Writes {σ : Type} (A : Allocator σ) (fuel : Nat) (f : Content σ → Outcome (Content σ)) (l : List Byte) : Prop :=
  ∀ c, f c = pushAll A fuel c l

section Writes

variable {σ : Type} {A : Allocator σ} {fuel : Nat}

theorem Writes.bind {f g : Content σ → Outcome (Content σ)} {l l' : List Byte} (hf : Writes A fuel f l)
    (hg : Writes A fuel g l') : Writes A fuel (fun c => f c >>= g) (l ++ l') := by
  intro c
  have hfun : g = fun c => pushAll A fuel c l' := funext hg
  dsimp only
  rw [hf c, pushAll_append, hfun]

theorem writes_nil : Writes A fuel (fun c => pure c) [] := fun _ => rfl

theorem writes_ite {c : Prop} [Decidable c] {f g : Content σ → Outcome (Content σ)} {l l' : List Byte}
    (hf : c → Writes A fuel f l) (hg : ¬ c → Writes A fuel g l') :
    Writes A fuel (fun o => if c then f o else g o) (if c then l else l') := by
  intro o
  by_cases hc : c
  · simpa only [if_pos hc] using hf hc o
  · simpa only [if_neg hc] using hg hc o

theorem Writes.congr {f : Content σ → Outcome (Content σ)} {l l' : List Byte} (h : Writes A fuel f l) (hl : l = l') :
    Writes A fuel f l' := hl ▸ h

theorem writes_byte (v : BitVec 32) : Writes A fuel (byte A fuel · v) [v.setWidth 8] :=
  fun _ => (pushAll_one (setWidth_and_255 v)).symm

theorem writes_byte_of {v : BitVec 32} {x : Byte} (h : v.setWidth 8 = x) : Writes A fuel (byte A fuel · v) [x] :=
  (writes_byte v).congr (by rw [h])

theorem writes_u32 (v : BitVec 32) : Writes A fuel (u32 A fuel · v) (bytes32 v) :=
  (writes_byte v).bind ((writes_byte (v >>> 8)).bind ((writes_byte (v >>> 16)).bind (writes_byte (v >>> 24)))) |>.congr
    (by rw [BitVec.setWidth_ushiftRight_eq_extractLsb, BitVec.setWidth_ushiftRight_eq_extractLsb,
      BitVec.setWidth_ushiftRight_eq_extractLsb, BitVec.setWidth_eq_extractLsb' (by decide)]; rfl)

theorem writes_u64 (v : BitVec 64) : Writes A fuel (u64 A fuel · v) (bytes64 v) :=
  (writes_u32 (v.setWidth 32)).bind (writes_u32 ((v >>> 32).setWidth 32)) |>.congr
    (by rw [bytes64, BitVec.setWidth_ushiftRight_eq_extractLsb, BitVec.setWidth_eq_extractLsb' (by decide)])

/-- The bits of the prefix, by the high bits of the registers. -/
theorem rexBits_word (w : Bool) (r x b : Reg) : rexBits w (word r) (word x) (word b) =
    (if w then 8#32 else 0#32) ||| ((if r.msb then 1#32 else 0#32) <<< 2 |||
      ((if x.msb then 1#32 else 0#32) <<< 1 ||| if b.msb then 1#32 else 0#32)) := by
  have hbit : ∀ r : Reg, (word r).sshiftRight 3 &&& 1#32 = if r.msb then 1#32 else 0#32 := by decide
  rw [rexBits, hbit, hbit, hbit]

theorem writes_rex (w : Bool) (r x b : Reg) (force : Bool) :
    Writes A fuel (rex A fuel · w (word r) (word x) (word b) force) (rexBytes w r.msb x.msb b.msb force) := by
  have hne : ∀ w r x b : Bool, ((if w then 8#32 else 0#32) ||| ((if r then 1#32 else 0#32) <<< 2 |||
      ((if x then 1#32 else 0#32) <<< 1 ||| if b then 1#32 else 0#32)) ≠ 0) ↔ (w || r || x || b) = true := by decide
  have hbyte : ∀ w r x b : Bool, (64#32 ||| ((if w then 8#32 else 0#32) ||| ((if r then 1#32 else 0#32) <<< 2 |||
      ((if x then 1#32 else 0#32) <<< 1 ||| if b then 1#32 else 0#32)))).setWidth 8 = rexByte w r x b := by decide
  intro c
  dsimp only
  rw [rex, rexBits_word, rexBytes]
  simp only [hne, ← Bool.or_eq_true]
  split
  · exact writes_byte_of (hbyte w r.msb x.msb b.msb) c
  · rfl

/-- The bytes of an opcode. -/
def opBytes (op : BitVec 32) : List Byte := if (255#32).slt op = true then [15, op.setWidth 8] else [op.setWidth 8]

theorem writes_opcode (op : BitVec 32) : Writes A fuel (opcode A fuel · op) (opBytes op) := by
  have hfirst : Writes A fuel (fun c => if (255#32).slt op = true then byte A fuel c 15 else pure c)
      (if (255#32).slt op = true then [15] else []) := writes_ite (fun _ => writes_byte 15) (fun _ => writes_nil)
  refine (hfirst.bind (writes_byte op)).congr ?_
  rw [opBytes]
  split <;> rfl

/-- Whether a byte access needs a prefix. -/
def mid (r : Reg) : Bool := r.extractLsb' 2 2 == 1#2

theorem between47_word : ∀ r : Reg, between47 (word r) = mid r := by decide

/-- The bytes of an operation with two registers. -/
def regBytes (wide : Bool) (op : List Byte) (reg rm : Reg) (force : Bool) : List Byte :=
  rexBytes wide reg.msb false rm.msb force ++ (op ++ [modrm 3 (low reg) (low rm)])

/-- The bytes of an operation with a register and memory. -/
def memBytes (wide : Bool) (op : List Byte) (reg : Reg) (p : Place) (force : Bool) : List Byte :=
  rexBytes wide reg.msb (indexBit p.index) p.base.msb force ++ (op ++ addrBytes (low reg) p.base p.index p.disp)

theorem writes_rr (sz op : BitVec 32) (reg r : Reg) (byteRegs : Bool) :
    Writes A fuel (rr A fuel · sz op (word reg) (word r) byteRegs)
      (regBytes (sz == 64) (opBytes op) reg r (byteRegs && (mid reg || mid r))) := by
  have hbyte : ∀ reg r : Reg, (192#32 ||| ((word reg &&& 7#32) <<< 3 ||| (word r &&& 7#32))).setWidth 8 =
      modrm 3 (low reg) (low r) := by decide
  intro c
  dsimp only
  rw [rr, between47_word, between47_word]
  exact (writes_rex (sz == 64) reg 0 r (byteRegs && (mid reg || mid r))).bind
    ((writes_opcode op).bind (writes_byte_of (hbyte reg r))) c

theorem low_field : ∀ r : Reg, word r &&& 7#32 = (low r).setWidth 32 := by decide

theorem mode_word (p : Place) : (if p.disp = 0 ∧ word p.base &&& 7#32 ≠ 5 then (0 : BitVec 32)
    else if fits8 p.disp then 1 else 2) = (modeOf p.base p.disp).setWidth 32 := by
  have hiff : ∀ r : Reg, word r &&& 7#32 ≠ 5 ↔ low r ≠ 5 := by decide
  rw [modeOf]
  simp only [hiff]
  split
  · rfl
  · have hfits : fits8 p.disp = X86.fits8 p.disp := rfl
    rw [hfits]
    split <;> rfl

theorem writes_modrm {md : BitVec 32} {mode : BitVec 2} (hmd : md = mode.setWidth 32) (reg : Reg) (rm : BitVec 3) :
    Writes A fuel (byte A fuel · (md <<< 6 ||| ((word reg &&& 7#32) <<< 3 ||| rm.setWidth 32))) [modrm mode (low reg) rm] := by
  have hbyte : ∀ (mode : BitVec 2) (reg : BitVec 3) (rm : BitVec 3),
      (mode.setWidth 32 <<< 6 ||| (reg.setWidth 32 <<< 3 ||| rm.setWidth 32)).setWidth 8 = modrm mode reg rm := by decide
  rw [hmd, low_field]
  exact writes_byte_of (hbyte mode (low reg) rm)

/-- ModRM of a base without an index; bases that share a field with register 4 have a SIB byte. -/
theorem writes_base {md : BitVec 32} {mode : BitVec 2} (hmd : md = mode.setWidth 32) (reg base : Reg) :
    Writes A fuel (fun c => if word base &&& 7#32 = 4 then (do
        let c ← byte A fuel c (md <<< 6 ||| ((word reg &&& 7#32) <<< 3 ||| 4#32))
        byte A fuel c 36)
      else byte A fuel c (md <<< 6 ||| ((word reg &&& 7#32) <<< 3 ||| (word base &&& 7#32))))
      (if low base = 4 then [modrm mode (low reg) 4, modrm 0 4 4] else [modrm mode (low reg) (low base)]) := by
  have hfour : ∀ r : Reg, word r &&& 7#32 = 4 ↔ low r = 4 := by decide
  simp only [hfour base]
  refine writes_ite (fun _ => ?_) (fun _ => ?_)
  · exact (writes_modrm hmd reg 4).bind (writes_byte_of (by decide))
  · rw [low_field base]
    exact writes_modrm hmd reg (low base)

/-- The displacement, by its mode. -/
theorem writes_disp {md : BitVec 32} (p : Place) (hmd : md = (modeOf p.base p.disp).setWidth 32) :
    Writes A fuel (fun c => if md = 1 then byte A fuel c p.disp else if md = 2 then u32 A fuel c p.disp else pure c)
      (dispBytes p.base p.disp) := by
  rw [hmd, modeOf, dispBytes]
  split
  · exact writes_nil
  · split
    · exact writes_byte p.disp
    · exact writes_u32 p.disp

theorem index_nonneg (i : Index) : (0#32).sle (word i.reg) = true ∧ (word i.reg).slt 0 = false := by
  have h : ∀ r : Reg, (0#32).sle (word r) = true ∧ (word r).slt 0 = false := by decide
  exact h i.reg

/-- **Memory operands**, in the bytes that are read back. -/
theorem writes_rm (sz op : BitVec 32) (reg : Reg) (p : Place) (byteRegs : Bool) :
    Writes A fuel (rm A fuel · sz op (word reg) p.record byteRegs)
      (memBytes (sz == 64) (opBytes op) reg p (byteRegs && mid reg)) := by
  have hmode := mode_word p
  have hscale : ∀ s : BitVec 2, scaleBits (1#32 <<< s.toNat) = s.setWidth 32 := by decide
  intro c
  dsimp only
  rw [rm, between47_word]
  obtain ⟨base, index, disp, hindex⟩ := p
  cases index with
  | some i =>
    obtain ⟨hpos, hneg⟩ := index_nonneg i
    simp only [Place.record, hpos, hneg, if_true, Bool.false_eq_true, if_false, hscale]
    have hsib : Writes A fuel (byte A fuel · (i.scale.setWidth 32 <<< 6 |||
        ((word i.reg &&& 7#32) <<< 3 ||| (word base &&& 7#32)))) [modrm i.scale (low i.reg) (low base)] := by
      rw [low_field base]
      exact writes_modrm rfl i.reg (low base)
    exact (writes_rex (sz == 64) reg i.reg base (byteRegs && mid reg)).bind ((writes_opcode op).bind
      (((writes_modrm hmode reg 4).bind hsib).bind (writes_disp ⟨base, some i, disp, hindex⟩ hmode))) c
  | none =>
    have hneg : (-1 : BitVec 32).slt 0 = true := by decide
    have hpos : (0#32).sle (-1) = false := by decide
    simp only [Place.record, hpos, hneg, if_true, Bool.false_eq_true, if_false]
    refine ((writes_rex (sz == 64) reg 0 base (byteRegs && mid reg)).bind ((writes_opcode op).bind
      ((writes_base hmode reg base).bind (writes_disp ⟨base, none, disp, hindex⟩ hmode)))).congr ?_ c
    rw [memBytes, addrBytes]
    dsimp only
    split <;> rfl

end Writes

end Aipl.X64Code
