import Aipl.Native.WasmReader.Coding
import Aipl.Native.WasmReader.Steady

/-! # Decoding a wasm module — which byte strings decode, and that a body is read as it was written

* `Decodes` — decoding ends, the section loop only moves forward, every byte read is a byte of the module,
  and every name, body and data segment is a slice of it.
* `WellSized` — read with natural numbers for the cursor and for lengths, no length of a name, a body or a
  data segment ends at `2^31` or beyond, no custom section or subsection ends before what was read of it,
  and no vector outgrows the memory.
* `decodes_exact` — a byte string decodes exactly when it is well sized.
* `reads_readInstr` — an instruction, one case for each kind of immediates; `rounds_code`, `reads_readBody` — a body.
* `readBody_roundTrip` — on the machine.
-/

namespace Aipl.WasmReader

section

open Aipl.Lib Aipl.Lib.Outcome Aipl.Lib.Reading

/-- A byte string in memory. -/
structure Source where
  mem : BitVec 32 → BitVec 8
  bytes : Bytes
  short : bytes.len.toNat < 2 ^ 31

/-- The byte string of a list, at the start of the memory. -/
def Source.ofList (xs : List (BitVec 8)) (short : xs.length < 2 ^ 31) : Source where
  mem a := xs.getD a.toNat 0#8
  bytes := ⟨0#32, BitVec.ofNat 32 xs.length⟩
  short := by
    rw [toNat_ofNat_of_lt (by omega)]
    exact short

/-- What decoding promises. -/
structure Decoded.Sound (b : Bytes) (d : Decoded) : Prop where
  told : d.wasm.ok = true ∨ d.wasm.error ≠ ""
  forward : ∀ old new, .move old new ∈ d.sections → old.toInt ≤ new.toInt
  inside : ∀ place, .read place ∈ d.sections ++ d.bodies → 0 ≤ place.toInt ∧ place.toInt < b.len.toInt
  placed : Placed b d.wasm

/-- Decoding returns, and keeps its promise. -/
def Decodes (s : Source) (room : Nat) : Prop :=
  ∃ fuel d, decode s.mem s.bytes room s.short fuel = done d ∧ d.Sound s.bytes

/-- The ideal refuses nothing. -/
def WellSized (s : Source) (room : Nat) : Prop := decodeIdeal s.mem s.bytes room s.short ≠ stop

instance (s : Source) (room : Nat) : Decidable (WellSized s room) :=
  inferInstanceAs (Decidable (_ ≠ _))

variable {mem : BitVec 32 → BitVec 8} {b : Bytes} {room : Nat} {short : b.len.toNat < 2 ^ 31}

/-! ### Bodies -/

/-- Where a body that is a slice starts, and where it ends. -/
theorem Slice.bounds {s : Bytes} (h : Slice b s) (short : b.len.toNat < 2 ^ 31) :
    (s.addr - b.addr).toNat < 2 ^ 31 ∧ (s.addr - b.addr + s.len).toInt ≤ b.len.toNat := by
  obtain ⟨-, start, haddr, hle⟩ := h
  have hstart : (BitVec.ofNat 32 start).toNat = start := toNat_ofNat_of_lt (by omega)
  have hsub : s.addr - b.addr = BitVec.ofNat 32 start := by
    rw [haddr, BitVec.add_comm, BitVec.add_sub_cancel]
  have hsum : (BitVec.ofNat 32 start + s.len).toNat = start + s.len.toNat := by
    rw [toNat_add_of_lt (by omega), hstart]
  rw [hsub, toInt_eq_toNat (by omega), hsum]
  omega

theorem bytewise_byte : Bytewise (byte b) := by
  simp [byte, fail]

theorem bytewise_u32 : Bytewise (u32 b) := by
  simp [u32, u32Round, fail, bytewise_byte]

theorem bytewise_floatBits : ∀ (n k : Nat) (bits : BitVec 64), Bytewise (floatBits b n k bits)
  | 0, _, _ => trivial
  | n + 1, k, bits => by simp [floatBits, bytewise_byte, bytewise_floatBits n]

theorem bytewise_readInstr (start : BitVec 32) : Bytewise (readInstr b start) := by
  simp [readInstr, opcode, s32, s32Round, s64, s64Round, fail, failOp, bytewise_byte, bytewise_u32,
    bytewise_floatBits]

theorem bytewise_readBody (start end_ : BitVec 32) : Bytewise (readBody b start end_) := by
  simp [readBody, locals, push, valtype, codeRound, fail, failIf, bytewise_byte, bytewise_u32,
    bytewise_readInstr]

/-- The cursor put at the start of a body. -/
theorem near_start {r : Reader} {c : Cursor} {start : BitVec 32} (h : Near room r c) (hstart : start.toNat < 2 ^ 31) :
    Near room { r with pos := start } { c with pos := start.toNat } :=
  ⟨rfl, hstart, h.failed, h.held, h.fits, h.told⟩

theorem readBodies_calm {fuel : Nat} : ∀ (ranges : List Bytes) (r : Reader),
    Returns (fun x => Calm (input mem b short) x.2.2) (readBodies mem b room short fuel ranges r)
  | [], _ => calm_nil
  | range :: rest, r => by
      rw [readBodies]
      split
      · exact calm_nil
      · refine returns_andThen (exec_calm (bytewise_readBody _ _) _) fun body r => ?_
        split
        · exact returns_andThen (readBodies_calm rest _) fun _ _ => calm_nil
        · trivial

/-- The bodies' readers follow their ideals.  They move from body to body, so only the entries held are
compared with what was held before. -/
theorem tracks_readBodies (mem : BitVec 32 → BitVec 8) (short : b.len.toNat < 2 ^ 31) (hroom : room < 2 ^ 31 - 1) :
    ∀ (ranges : List Bytes), (∀ s ∈ ranges, Slice b s) →
    ∀ (r : Reader) (c : Cursor), Near room r c → Tracks (input mem b short) room { c with pos := 0 }
      (fun f _ => readBodies mem b room short f ranges r) (readBodiesIdeal mem b room short ranges c)
  | [], _, r, c, hnear => tracks_done (Nat.zero_le _) le_rfl hnear calm_nil
  | range :: rest, hranges, r, c, hnear => by
      obtain ⟨hrange, hrest⟩ := List.forall_mem_cons.mp hranges
      have hsame := hnear.failed
      by_cases hfailed : c.failed = true
      · simp only [readBodies, readBodiesIdeal, if_pos hfailed, if_pos (hsame.trans hfailed)]
        exact tracks_done (Nat.zero_le _) le_rfl hnear calm_nil
      · simp only [readBodies, readBodiesIdeal, if_neg hfailed, if_neg (hsame ▸ hfailed : ¬ r.failed = true)]
        have hbody := follows (i := input mem b short) hroom
          (readBody b (range.addr - b.addr) (range.addr - b.addr + range.len)) _ _
          (near_start hnear (hrange.bounds short).1)
        have hfrom : Tracks (input mem b short) room { c with pos := 0 } _ _ := hbody.of_le (Nat.zero_le _) le_rfl
        refine tracks_andThen hfrom
          (k := fun f _ body r =>
            if r.held < room then
              Reading.andThen (readBodies mem b room short f rest { r with held := r.held + 1 })
                fun bodies r => done (body :: bodies, r, [])
            else stop)
          (K := fun body c =>
            if c.held < room then
              readBodiesIdeal mem b room short rest { c with held := c.held + 1 } >>= fun y => done (body :: y.1, y.2)
            else stop) fun body r' c' _ _ hheld hnear' => ?_
        have heq := hnear'.held
        by_cases hlt : c'.held < room
        · have hhold := hnear'.hold hlt
          simp only [heq, if_pos hlt] at hhold ⊢
          have hnext := tracks_readBodies mem short hroom rest hrest _ _ hhold
          refine (tracks_andThen hnext (k := fun _ _ bodies r => done (body :: bodies, r, []))
            (K := fun bodies c => done (body :: bodies, c)) fun bodies r c _ hpos hheld hnear =>
              tracks_done hpos hheld hnear calm_nil).of_le le_rfl ?_
          exact hheld.trans (Nat.le_succ _)
        · simp only [heq, if_neg hlt]
          intro f g b r l hdone
          cases hdone

theorem readBodiesIdeal_known (hroom : room < 2 ^ 31 - 1) : ∀ (ranges : List Bytes), (∀ s ∈ ranges, Slice b s) →
    ∀ c, Fit room c → Sat (fun _ => True) (readBodiesIdeal mem b room short ranges c)
  | [], _, _, _ => trivial
  | range :: rest, hranges, c, hc => by
      obtain ⟨hrange, hrest⟩ := List.forall_mem_cons.mp hranges
      obtain ⟨hstart, hend⟩ := hrange.bounds short
      rw [readBodiesIdeal]
      split
      · trivial
      · have hfit : Fit room { c with pos := (range.addr - b.addr).toNat } := ⟨hstart, hc.fits⟩
        refine sat_bind (ideal_known hroom (steady_readBody hroom hend) _ hfit).and_eq ?_
        rintro ⟨body, c'⟩ ⟨-, hdone⟩
        have hc' := (ideal_fits hroom hfit hdone).2
        dsimp only
        split
        · rename_i hlt
          exact sat_bind (readBodiesIdeal_known hroom rest hrest _ ⟨hc'.short, hlt⟩) fun _ _ => trivial
        · trivial

/-! ### The whole decoder -/

theorem near_zero : Near room ⟨0#32, false, "", 0⟩ ⟨0, false, 0⟩ :=
  ⟨rfl, by decide, rfl, rfl, Nat.zero_le _, fun h => by cases h⟩

/-- **Decoding in the ideal ends.** -/
theorem decodeIdeal_known (hroom : room < 2 ^ 31 - 1) :
    Sat (fun _ => True) (decodeIdeal mem b room short) := by
  have hfit : Fit room ⟨0, false, 0⟩ := ⟨by decide, Nat.zero_le _⟩
  refine sat_bind (ideal_known hroom (steady_sections hroom) _ hfit).and_eq ?_
  rintro ⟨w, c⟩ ⟨-, hdone⟩
  have hplaced : Placed b w := gives_sections hroom _ w c hfit hdone
  exact sat_bind (readBodiesIdeal_known hroom _ hplaced.bodies _ (ideal_fits hroom hfit hdone).2) fun _ _ => trivial

/-- What a run of `decode` that returned is made of. -/
theorem decode_eq_done {fuel : Nat} {d : Decoded} (h : decode mem b room short fuel = done d) :
    ∃ w r l code r' l',
      (sections mem b).exec (input mem b short) room fuel ⟨0#32, false, "", 0⟩ = done (w, r, l) ∧
      readBodies mem b room short fuel w.bodies r = done (code, r', l') ∧
      d = ⟨{ w with code, ok := !r'.failed, error := r'.msg }, l, l'⟩ := by
  obtain ⟨⟨w, r, l⟩, hsections, h⟩ := bind_eq_done h
  obtain ⟨⟨code, r', l'⟩, hbodies, h⟩ := bind_eq_done h
  cases h
  exact ⟨w, r, l, code, r', l', hsections, hbodies, rfl⟩

theorem Decoded.Sound.calm {d : Decoded} (h : d.Sound b) : Calm (input mem b short) d.sections := by
  rintro (place | ⟨old, new⟩) he
  · exact h.inside place (List.mem_append_left _ he)
  · exact h.forward old new he

theorem decodes_of_ideal (s : Source) (hroom : room < 2 ^ 31 - 1) {x : Wasm × Cursor}
    (h : decodeIdeal s.mem s.bytes room s.short = done x) : Decodes s room := by
  obtain ⟨⟨w, c⟩, hsections, h⟩ := bind_eq_done h
  obtain ⟨⟨code, c'⟩, hbodies, h⟩ := bind_eq_done h
  have hplaced : Placed s.bytes w := gives_sections hroom _ w c ⟨by decide, Nat.zero_le _⟩ hsections
  have htracks := follows (i := input s.mem s.bytes s.short) hroom (sections s.mem s.bytes) _ _ near_zero
  rw [hsections] at htracks
  obtain ⟨-, -, r, l, hnear, hl, ⟨N, hrun⟩, -⟩ := htracks
  have htracks' := tracks_readBodies s.mem s.short hroom w.bodies hplaced.bodies r c hnear
  rw [hbodies] at htracks'
  obtain ⟨-, -, r', l', hnear', hl', ⟨N', hrun'⟩, -⟩ := htracks'
  refine ⟨max N N', ⟨{ w with code, ok := !r'.failed, error := r'.msg }, l, l'⟩, ?_, ?_, ?_, ?_, ?_⟩
  · have hs := hrun (max N N') (max N N') (le_max_left N N') (le_max_left N N')
    have hb := hrun' (max N N') (max N N') (le_max_right N N') (le_max_right N N')
    dsimp only at hs hb
    rw [decode, hs, done_bind]
    dsimp only
    rw [hb]
    rfl
  · dsimp only
    by_cases hfailed : r'.failed = true
    · exact .inr (hnear'.told hfailed)
    · rw [Bool.not_eq_true] at hfailed
      rw [hfailed]
      exact .inl rfl
  · exact fun old new he => hl _ he
  · intro place he
    rcases List.mem_append.mp he with he | he
    · exact hl _ he
    · exact hl' _ he
  · exact { hplaced with }

theorem not_decodes_of_stop (s : Source) (hroom : room < 2 ^ 31 - 1)
    (h : decodeIdeal s.mem s.bytes room s.short = stop) : ¬ Decodes s room := by
  rintro ⟨fuel, d, hdone, hsound⟩
  have hcalm : Calm (input s.mem s.bytes s.short) d.sections := hsound.calm
  obtain ⟨w, r, l, code, r', l', hsections, hbodies, rfl⟩ := decode_eq_done hdone
  have htracks := follows (i := input s.mem s.bytes s.short) hroom (sections s.mem s.bytes) _ _ near_zero
  rw [decodeIdeal] at h
  rcases hideal : (sections s.mem s.bytes).ideal (input s.mem s.bytes s.short) room ⟨0, false, 0⟩ with ⟨w₀, c⟩ | _ | _
  · have hplaced : Placed s.bytes w₀ := gives_sections hroom _ w₀ c ⟨by decide, Nat.zero_le _⟩ hideal
    rw [hideal] at htracks h
    obtain ⟨-, -, r₀, l₀, hnear, -, -, honly⟩ := htracks
    cases honly fuel fuel _ hsections
    have htracks' := tracks_readBodies s.mem s.short hroom w.bodies hplaced.bodies r c hnear
    rw [done_bind] at h
    dsimp only at h
    rcases hrest : readBodiesIdeal s.mem s.bytes room s.short w.bodies c with ⟨code₀, c'⟩ | _ | _
    · rw [hrest] at h
      cases h
    · rw [hrest] at htracks'
      exact htracks' fuel fuel code r' l' hbodies ((readBodies_calm _ _).of_eq_done hbodies)
    · rw [hrest] at h
      cases h
  · rw [hideal] at htracks
    exact htracks fuel fuel w r l hsections hcalm
  · rw [hideal] at h
    cases h

/-- **Which byte strings decode**: exactly the well sized ones, whatever the memory there is for the vectors
(a vector's length is a signed word). -/
theorem decodes_exact (s : Source) (room : Fin (2 ^ 31 - 1)) : Decodes s room ↔ WellSized s room := by
  have hknown : Sat _ (decodeIdeal s.mem s.bytes room s.short) := decodeIdeal_known room.isLt
  rw [WellSized]
  rcases h : decodeIdeal s.mem s.bytes room s.short with x | _ | _
  · exact ⟨fun _ hstop => (by cases hstop), fun _ => decodes_of_ideal s room.isLt h⟩
  · exact ⟨fun hdecodes => absurd hdecodes (not_decodes_of_stop s room.isLt h), fun hne => absurd rfl hne⟩
  · rw [h] at hknown
    exact hknown.elim

/-- A custom section whose size has the bits of -6 sends the cursor back to the section's own start, for
ever. -/
def restless : Source :=
  .ofList [0x00#8, 0x61#8, 0x73#8, 0x6D#8, 1#8, 0#8, 0#8, 0#8, 0x00#8, 0xFA#8, 0xFF#8, 0xFF#8, 0xFF#8, 0x0F#8, 0x00#8]
    (by decide)

/-- Not every byte string decodes. -/
theorem restless_not_decodes : ¬ ∀ (s : Source) (room : Fin (2 ^ 31 - 1)), Decodes s room := by
  intro h
  have hstop : decodeIdeal restless.mem restless.bytes 1000 restless.short = stop := by decide +kernel
  exact not_decodes_of_stop restless (by decide) hstop (h restless ⟨1000, by decide⟩)

end

/-! ## A function body is read as it was written -/

section

open Aipl.Lib Aipl.Lib.Outcome Aipl.Lib.Reading Aipl.Lib.Leb

theorem toNat_oneByte (n : Fin 128) : (BitVec.ofNat 8 n.val).toNat = n.val := by
  rw [BitVec.toNat_ofNat, Nat.mod_eq_of_lt (by omega)]

theorem leb_oneByte (n : Fin 128) : IsLeb [BitVec.ofNat 8 n.val] :=
  .last (by
    rw [toNat_oneByte]
    exact n.isLt)

theorem length_oneByte (n : Fin 128) : [BitVec.ofNat 8 n.val].length ≤ 5 := Nat.le_of_ble_eq_true rfl

theorem unsigned_oneByte (n : Fin 128) : unsigned [BitVec.ofNat 8 n.val] < 2 ^ 32 := by
  rw [unsigned, unsigned]
  omega

/-- A number in one byte. -/
def small (n : Fin 128) : U32 := ⟨[BitVec.ofNat 8 n.val], leb_oneByte n, length_oneByte n, unsigned_oneByte n⟩

/-- -2, in two bytes. -/
def minusTwo : S32 where
  bytes := [254#8, 127#8]
  leb := .more (by decide) (.last (by decide))
  short := by decide
  fits := by decide

/-- A constant into a local, and the end. -/
def storeCode : List Coded := [⟨.plain 65#8, .i32 minusTwo, rfl⟩, ⟨.plain 33#8, .index (small 0), rfl⟩, ⟨.plain 11#8, .none, rfl⟩]

def storeBody : Source := .ofList (bodyBytes (small 1) [⟨small 1, 127#8, by decide⟩] storeCode) (by decide)

variable {mem : BitVec 32 → BitVec 8} {b : Bytes} {short : b.len.toNat < 2 ^ 31} {room q : Nat}

theorem reads_opcode (h : Head) (hadmitted : h.kind ≠ -1) : Reads (input mem b short) room (opcode b) q h.bytes 0 (h.op, h.kind) := by
  cases h with
  | plain op =>
    have h252 : op.setWidth 32 ≠ 252#32 := fun h => hadmitted (by rw [Head.kind, h]; rfl)
    have h254 : op.setWidth 32 ≠ 254#32 := fun h => hadmitted (by rw [Head.kind, h]; rfl)
    refine reads_map reads_byte ?_
    rw [if_neg h252, if_neg h254]
    exact reads_pure _
  | bulk sub =>
    refine reads_seq reads_byte ?_
    rw [if_pos (by rfl)]
    exact reads_map (reads_u32 sub) (reads_pure _)
  | atomic sub =>
    refine reads_seq reads_byte ?_
    rw [if_neg (by decide), if_pos (by rfl)]
    exact reads_map (reads_u32 sub) (reads_pure _)

theorem block_type : ∀ bt ∈ [64#8, 127#8, 126#8, 125#8, 124#8],
    bt.setWidth 32 = 64#32 ∨ bt.setWidth 32 = 127#32 ∨ bt.setWidth 32 = 126#32 ∨ bt.setWidth 32 = 125#32 ∨ bt.setWidth 32 = 124#32 := by decide

theorem Imm.Fits.ne {imm : Imm} {kind : Int} (h : imm.Fits kind) : kind ≠ -1 := by
  rintro rfl
  cases imm <;> simp [Imm.Fits] at h

/-- **An instruction** of any kind. -/
theorem reads_readInstr (c : Coded) (start offset : Nat) : Reads (input mem b short) room (readInstr b (BitVec.ofNat 32 start)) (start + offset) c.bytes 0
    (c.instr (BitVec.ofNat 32 offset)) := by
  obtain ⟨head, imm, hfits⟩ := c
  have hoffset : BitVec.ofNat 32 (start + offset) - BitVec.ofNat 32 start = BitVec.ofNat 32 offset := by
    rw [BitVec.ofNat_add, BitVec.add_comm, BitVec.add_sub_cancel]
  refine reads_after reads_pos (reads_seq (reads_opcode head hfits.ne) ?_)
  dsimp only
  rw [hoffset]
  cases imm with
  | none =>
    rw [if_pos (show head.kind = 0 from hfits)]
    exact reads_pure _
  | index a =>
    simp only [show head.kind = 1 from hfits, Int.reduceEq, if_false, if_true]
    exact reads_map (reads_u32 a) (reads_pure _)
  | block bt =>
    simp only [show head.kind = 2 from hfits.1, Int.reduceEq, if_false, if_true]
    refine reads_map reads_byte ?_
    rw [if_pos (block_type bt hfits.2)]
    exact reads_pure _
  | pair a n =>
    rcases hfits with hkind | hkind
    · simp only [hkind, Int.reduceEq, true_or, if_false, if_true]
      exact reads_seq (reads_u32 a) (reads_map (reads_u32 n) (reads_pure _))
    · simp only [hkind, Int.reduceEq, or_true, if_false, if_true]
      exact reads_seq (reads_u32 a) (reads_map (reads_u32 n) (reads_pure _))
  | i32 n =>
    simp only [show head.kind = 5 from hfits, Int.reduceEq, or_self, if_false, if_true]
    exact reads_map (reads_s32 n) (reads_pure _)
  | i64 n =>
    simp only [show head.kind = 6 from hfits, Int.reduceEq, or_self, if_false, if_true]
    exact reads_map (reads_s64 n) (reads_pure _)
  | f64 bits =>
    have hbits : BitVec.ofNat 64 bits.toNat = bits := (BitVec.ofNat_toNat 64 bits).trans (BitVec.setWidth_eq bits)
    have hread : Reads (input mem b short) room (floatBits b 8 0 0#64) (start + offset + head.bytes.length) (leBytes 8 bits.toNat) 0
        (BitVec.ofNat 64 bits.toNat) := reads_floatBits (by decide) bits.isLt
    rw [hbits] at hread
    simp only [show head.kind = 7 from hfits, Int.reduceEq, or_self, if_false, if_true]
    exact reads_map hread (reads_pure _)
  | f32 bits =>
    have hread : Reads (input mem b short) room (floatBits b 4 0 0#64) (start + offset + head.bytes.length) (leBytes 4 bits.toNat) 0
        (BitVec.ofNat 64 bits.toNat) := reads_floatBits (by decide) bits.isLt
    rw [BitVec.ofNat_toNat] at hread
    simp only [show head.kind = 10 from hfits, Int.reduceEq, or_self, if_false, if_true]
    exact reads_map hread (reads_pure _)
  | memory m =>
    simp only [show head.kind = 8 from hfits, Int.reduceEq, or_self, if_false, if_true]
    exact reads_map reads_byte (reads_pure _)
  | init a m =>
    simp only [show head.kind = 9 from hfits, Int.reduceEq, or_self, if_false, if_true]
    exact reads_seq (reads_u32 a) (reads_map reads_byte (reads_pure _))

/-! ### Bodies -/

theorem val_type : ∀ t ∈ [127#8, 126#8, 125#8, 124#8], t.setWidth 32 = 127#32 ∨ t.setWidth 32 = 126#32 ∨ t.setWidth 32 = 125#32 ∨ t.setWidth 32 = 124#32 := by
  decide

theorem reads_locals (g : Group) (q : Nat) : Reads (input mem b short) room (locals b) q g.bytes 0 g.locals := by
  have hvaltype : Reads (input mem b short) room (valtype b) (q + g.count.bytes.length) [g.type] 0 (g.type.setWidth 32) := by
    refine reads_map reads_byte ?_
    rw [if_pos (val_type g.type g.fits)]
    exact reads_pure _
  exact reads_seq (reads_u32 g.count) (reads_map hvaltype (reads_pure _))

theorem Head.bytes_ne_nil (h : Head) : h.bytes ≠ [] := by
  cases h <;> exact List.cons_ne_nil _ _

theorem Coded.bytes_ne_nil (c : Coded) : c.bytes ≠ [] := List.append_ne_nil_of_left_ne_nil c.head.bytes_ne_nil _

variable (mem b short room) in
/-- **The instructions**, one a round, up to the end of the body. -/
theorem rounds_code (start : Nat) : ∀ (code : List Coded) (offset : Nat) (acc : List Instr), start + offset + (code.flatMap Coded.bytes).length < 2 ^ 31 →
    Rounds (input mem b short) room (codeRound b (BitVec.ofNat 32 start) (BitVec.ofNat 32 (start + offset + (code.flatMap Coded.bytes).length))) acc
      (start + offset) (code.flatMap Coded.bytes) code.length (acc ++ instrsFrom offset code)
  | [], offset, acc, hend => by
      refine .last (reads_after reads_pos (reads_after reads_failed ?_))
      rw [List.flatMap_nil, List.length_nil, Nat.add_zero, slt_ofNat (by omega) (by omega), decide_eq_false (lt_irrefl _), if_neg (by decide), instrsFrom,
        List.append_nil]
      exact reads_pure _
  | c :: code, offset, acc, hend => by
      have hlength : ((c :: code).flatMap Coded.bytes).length = c.bytes.length + (code.flatMap Coded.bytes).length := by
        rw [List.flatMap_cons, List.length_append]
      have hpos := List.length_pos_iff.mpr c.bytes_ne_nil
      have hrest := rounds_code start code (offset + c.bytes.length) (acc ++ [c.instr (BitVec.ofNat 32 offset)]) (by omega)
      rw [← Nat.add_assoc start, Nat.add_assoc (start + offset), ← hlength, List.append_assoc, List.singleton_append] at hrest
      have hround : Reads (input mem b short) room (codeRound b (BitVec.ofNat 32 start)
          (BitVec.ofNat 32 (start + offset + ((c :: code).flatMap Coded.bytes).length)) acc) (start + offset) c.bytes 1
            (.inl (acc ++ [c.instr (BitVec.ofNat 32 offset)])) := by
        have hbefore : (BitVec.ofNat 32 (start + offset)).slt (BitVec.ofNat 32 (start + offset + ((c :: code).flatMap Coded.bytes).length)) = true :=
          (slt_ofNat (by omega) (by omega)).trans (decide_eq_true (by omega))
        refine reads_after reads_pos (reads_after reads_failed ?_)
        rw [hbefore, if_pos (by decide)]
        exact reads_held (reads_readInstr c start offset) (reads_map reads_hold (reads_pure _))
      have hall := Rounds.more c.bytes_ne_nil hround hrest
      rw [Nat.add_comm 1] at hall
      exact hall

theorem reads_readBody {count : U32} {groups : List Group} {code : List Coded} (hcount : count.value.toInt.toNat = groups.length)
    (hend : q + (bodyBytes count groups code).length < 2 ^ 31) :
    Reads (input mem b short) room (readBody b (BitVec.ofNat 32 q) (BitVec.ofNat 32 (q + (bodyBytes count groups code).length))) q
      (bodyBytes count groups code) (groups.length + code.length) (bodyOf count groups code) := by
  have hlength : (bodyBytes count groups code).length = (declBytes count groups).length + (code.flatMap Coded.bytes).length := List.length_append
  have hdecl : (declBytes count groups).length = count.bytes.length + (groups.flatMap Group.bytes).length := List.length_append
  have hcode := rounds_code mem b short room (q + (declBytes count groups).length) code 0 [] (by omega)
  rw [List.nil_append, Nat.add_zero, Nat.add_assoc, ← hlength] at hcode
  have hpush : Reads (input mem b short) room (push count.value (locals b)) (q + count.bytes.length) (groups.flatMap Group.bytes) groups.length
      (groups.map Group.locals) := reads_map (reads_times reads_locals groups hcount) (reads_pure _)
  have hhead : BitVec.ofNat 32 (q + (declBytes count groups).length) - BitVec.ofNat 32 q = BitVec.ofNat 32 (declBytes count groups).length := by
    rw [BitVec.ofNat_add, BitVec.add_comm, BitVec.add_sub_cancel]
  have hbytes : bodyBytes count groups code = count.bytes ++ (groups.flatMap Group.bytes ++ code.flatMap Coded.bytes) := by
    rw [bodyBytes, declBytes, List.append_assoc]
  have htotal : q + count.bytes.length + (groups.flatMap Group.bytes).length + (code.flatMap Coded.bytes).length = q + (bodyBytes count groups code).length := by
    omega
  generalize (bodyBytes count groups code).length = n at hcode hend htotal ⊢
  rw [hbytes]
  refine reads_seq (reads_u32 count) (reads_bind hpush (reads_after reads_pos ?_))
  rw [Nat.add_assoc q, ← hdecl]
  refine reads_map (reads_loop hcode) (reads_after reads_failed (reads_after reads_pos ?_))
  have hplace : q + (declBytes count groups).length + (code.flatMap Coded.bytes).length = q + n := by omega
  rw [hplace, hhead]
  have hok : failIf ((!false && decide (BitVec.ofNat 32 (q + n) ≠ BitVec.ofNat 32 (q + n))) = true)
      "function body length does not match its instructions" = pure () := by
    rw [failIf, if_neg (by simp)]
  exact reads_after (hok ▸ reads_pure ()) (reads_pure _)

/-- **Decoding inverts encoding**: where the bytes of a body stand, `read_body` gives back its local groups and its
instructions, and reads all of its bytes. -/
theorem readBody_roundTrip (s : Source) (hroom : room < 2 ^ 31 - 1) {count : U32} {groups : List Group} {code : List Coded}
    (hcount : count.value.toNat = groups.length) (hs : Stands (input s.mem s.bytes s.short) q (bodyBytes count groups code)) {r : Reader}
    (hpos : r.pos = BitVec.ofNat 32 q) (hfailed : r.failed = false) (hheld : r.held + (groups.length + code.length) ≤ room) :
    ∃ N, ∀ fuel, N ≤ fuel → ∃ r' l,
      (readBody s.bytes (BitVec.ofNat 32 q) (BitVec.ofNat 32 (q + (bodyBytes count groups code).length))).exec (input s.mem s.bytes s.short) room fuel r =
        done (bodyOf count groups code, r', l) ∧
      r'.pos.toNat = q + (bodyBytes count groups code).length ∧ r'.failed = false ∧ r'.held = r.held + (groups.length + code.length) := by
  have hne : bodyBytes count groups code ≠ [] :=
    List.append_ne_nil_of_left_ne_nil (List.append_ne_nil_of_left_ne_nil count.leb.ne_nil _) _
  have hle : q + (bodyBytes count groups code).length ≤ s.bytes.len.toNat := hs.le hne
  have hshort := s.short
  have hsigned : count.value.toInt.toNat = groups.length := by
    rw [BitVec.toInt_eq_toNat_of_lt (by omega), hcount, Int.toNat_natCast]
  exact (reads_readBody hsigned (by omega)).runs hroom hs hpos (by omega) hfailed hheld

/-- One i32 local, which -2 is stored in. -/
theorem storeBody_read : ∃ N, ∀ fuel, N ≤ fuel → ∃ r' l,
    (readBody storeBody.bytes 0#32 9#32).exec (input storeBody.mem storeBody.bytes storeBody.short) 100 fuel ⟨0#32, false, "", 0⟩ =
      done (⟨[⟨1#32, 127#32⟩], [⟨65#32, 0#32, 0#32, -2#64, 0#32⟩, ⟨33#32, 0#32, 0#32, 0#64, 3#32⟩, ⟨11#32, 0#32, 0#32, 0#64, 5#32⟩], 3#32⟩, r', l) ∧
    r'.pos.toNat = 9 ∧ r'.failed = false ∧ r'.held = 4 := by
  have hstands : Stands (input storeBody.mem storeBody.bytes storeBody.short) 0 (bodyBytes (small 1) [⟨small 1, 127#8, by decide⟩] storeCode) := by decide
  obtain ⟨N, hN⟩ := readBody_roundTrip storeBody (show 100 < 2 ^ 31 - 1 by decide) (by decide) hstands (show (⟨0#32, false, "", 0⟩ : Reader).pos = 0#32 from rfl)
    rfl (by decide)
  exact ⟨N, hN⟩

end

end Aipl.WasmReader
