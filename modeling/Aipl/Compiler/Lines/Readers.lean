import Aipl.Compiler.Lines.Model

/-! # What the readers of the line table read

* `readU_eq`, `readS_eq` — a number.
* `readFiles_eq`, `readEntries_eq`, `readFuncs_eq` — the parts of the table, as they are written.
* `readTable_eq` — all of it.
-/

namespace Aipl.Compiler.Lines

open Aipl.Lib Aipl.Lib.Leb

variable {b t rest enc : Bytes} {p at_ : Nat}

/-- From place `p` on, `b` is `l`. -/
def At (b : Bytes) (p : Nat) (l : Bytes) : Prop := b.drop p = l

theorem At.next {l : Bytes} (h : At b p (l ++ rest)) : At b (p + l.length) rest := by
  rw [At, ← List.drop_drop, h, List.drop_left]

theorem get_eq {l : Bytes} (h : At b p (l ++ rest)) (hp : p ≤ b.length) : get b p (p + l.length) = some l := by
  have hlen := congrArg List.length h
  rw [List.length_drop, List.length_append] at hlen
  rw [get, if_pos (by omega), h, Nat.add_sub_cancel_left, List.take_left]

/-! ### Numbers -/

theorem toNat_and_127 (b : BitVec 8) : (b &&& 0x7f#8).toNat = b.toNat % 128 := by
  rw [BitVec.toNat_and]
  exact Nat.and_two_pow_sub_one_eq_mod b.toNat 7

theorem and_128 : ∀ b : BitVec 8, b &&& 0x80#8 = 0#8 ↔ b.toNat < 128 := by decide

theorem and_64 : ∀ b : BitVec 8, b &&& 0x40#8 ≠ 0#8 ↔ 64 ≤ b.toNat % 128 := by decide

/-- A group, put in its place. -/
theorem or_group {a shift : Nat} (x : BitVec 8) (ha : a < 2 ^ shift) (hshift : shift < 64) :
    BitVec.ofNat 64 a ||| ((x &&& 0x7f#8).setWidth 64 <<< (shift % 64)) = BitVec.ofNat 64 (a + 2 ^ shift * (x.toNat % 128)) := by
  have hgroup : (x &&& 0x7f#8).setWidth 64 = BitVec.ofNat 64 (x.toNat % 128) := by
    refine BitVec.eq_of_toNat_eq ?_
    rw [BitVec.toNat_setWidth, toNat_and_127, BitVec.toNat_ofNat]
  rw [hgroup, Nat.mod_eq_of_lt hshift, or_shift _ ha]

variable (rest) in
/-- **The loop** puts the groups together. -/
theorem lebFrom_eq (limited : Bool) (h : IsLeb enc) : ∀ (a shift : Nat), a < 2 ^ shift → shift + 7 * enc.length ≤ 63 →
    ∃ last, (last &&& 0x40#8 ≠ 0#8 ↔ negative enc = true) ∧
      lebFrom limited (enc ++ rest) (BitVec.ofNat 64 a) shift = some (BitVec.ofNat 64 (a + 2 ^ shift * unsigned enc), last, enc.length) := by
  induction h with
  | @last x hx =>
    intro a shift ha hshort
    rw [List.length_singleton] at hshort
    refine ⟨x, ?_, ?_⟩
    · rw [and_64, negative, decide_eq_true_eq]
    · rw [List.singleton_append, lebFrom]
      dsimp only
      rw [or_group x ha (by omega), if_pos ((and_128 x).mpr hx), unsigned, unsigned, Nat.mul_zero, Nat.add_zero, List.length_singleton]
  | @more x bs hx t ih =>
    intro a shift ha hshort
    rw [List.length_cons] at hshort
    have hlow : x.toNat % 128 < 128 := Nat.mod_lt _ (by decide)
    have hpos := List.length_pos_iff.mpr t.ne_nil
    have ha' : a + 2 ^ shift * (x.toNat % 128) < 2 ^ (shift + 7) := by
      have hmul : 2 ^ shift * (x.toNat % 128) ≤ 2 ^ shift * 127 := Nat.mul_le_mul_left _ (by omega)
      rw [pow_add]
      omega
    obtain ⟨last, hneg, hrest⟩ := ih _ _ ha' (by omega)
    refine ⟨last, ?_, ?_⟩
    · obtain ⟨c, cs, rfl⟩ := List.exists_cons_of_ne_nil t.ne_nil
      exact hneg
    · have hlimit : (limited && decide (63 < shift + 7)) = false := by
        rw [decide_eq_false (by omega), Bool.and_false]
      rw [List.cons_append, lebFrom]
      dsimp only
      rw [or_group x ha (by omega), if_neg (by rw [and_128]; omega), hlimit, if_neg Bool.false_ne_true, hrest, unsigned]
      have hvalue : a + 2 ^ shift * (x.toNat % 128) + 2 ^ (shift + 7) * unsigned bs =
          a + 2 ^ shift * (x.toNat % 128 + 128 * unsigned bs) := by
        rw [pow_add]
        ring
      rw [hvalue]
      rfl

theorem unsigned_lt_of_short (h : enc.length ≤ 9) : unsigned enc < 2 ^ 63 :=
  (unsigned_lt enc).trans_le (Nat.pow_le_pow_right (show 0 < 128 by decide) h)

variable (rest) in
theorem lebFrom_zero (limited : Bool) (henc : IsLeb enc) (hshort : enc.length ≤ 9) : ∃ last, (last &&& 0x40#8 ≠ 0#8 ↔ negative enc = true) ∧
    lebFrom limited (enc ++ rest) 0#64 0 = some (BitVec.ofNat 64 (unsigned enc), last, enc.length) := by
  obtain ⟨last, hneg, hfrom⟩ := lebFrom_eq rest limited henc 0 0 (by decide) (by omega)
  rw [Nat.zero_add, pow_zero, Nat.one_mul] at hfrom
  exact ⟨last, hneg, hfrom⟩

theorem readU_leb (h : At b p (enc ++ rest)) (henc : IsLeb enc) (hshort : enc.length ≤ 9) : readU b p = some (unsigned enc, p + enc.length) := by
  obtain ⟨last, -, hfrom⟩ := lebFrom_zero rest true henc hshort
  have hlt := unsigned_lt_of_short hshort
  rw [readU, h, hfrom]
  show some ((BitVec.ofNat 64 (unsigned enc)).toNat, _) = _
  rw [BitVec.toNat_ofNat, Nat.mod_eq_of_lt (by omega)]

theorem leb_leb (h : At b p (enc ++ rest)) (henc : IsLeb enc) (hshort : enc.length ≤ 9) : leb b p = some (unsigned enc, p + enc.length) := by
  obtain ⟨last, -, hfrom⟩ := lebFrom_zero rest false henc hshort
  have hlt := unsigned_lt_of_short hshort
  rw [leb, h, hfrom]
  show some ((BitVec.ofNat 64 (unsigned enc)).toNat, _) = _
  rw [BitVec.toNat_ofNat, Nat.mod_eq_of_lt (by omega)]

theorem readS_leb (h : At b p (enc ++ rest)) (henc : IsLeb enc) (hshort : enc.length ≤ 9) : readS b p = some (signed enc, p + enc.length) := by
  obtain ⟨last, hneg, hfrom⟩ := lebFrom_zero rest true henc hshort
  have hword := ofInt_signed (w := 64) henc
  have hbounds := signed_bounds henc
  have hpow : 128 ^ enc.length ≤ 128 ^ 9 := Nat.pow_le_pow_right (by decide) hshort
  rw [readS, h, hfrom]
  show some ((if 7 * enc.length < 64 ∧ last &&& 0x40#8 ≠ 0#8 then _ else _ : BitVec 64).toInt, _) = _
  simp only [hneg]
  rw [← hword, BitVec.toInt_ofInt_eq_self (by decide) (by omega) (by omega)]

theorem u_short (v : BitVec 32) : (u v).length ≤ 9 := by
  have hlt := v.isLt
  have hle := length_encodeNat_le 4 v.toNat (by omega)
  rw [u]
  omega

theorem readU_eq {v : BitVec 32} (h : At b p (u v ++ rest)) : readU b p = some (v.toNat, p + (u v).length) := by
  rw [readU_leb h (isLeb_encodeNat _) (u_short v), u, unsigned_encodeNat]

theorem readS_eq {n : Int} (hlo : -(2 ^ 40) ≤ n) (hhi : n < 2 ^ 40) (h : At b p (s n ++ rest)) : readS b p = some (n, p + (s n).length) := by
  have hle := length_encodeInt_le 5 n (by omega) (by omega)
  rw [readS_leb h (isLeb_encodeInt _) (by rw [s]; omega), s, signed_encodeInt]

/-! ### Files -/

variable {lossy : Bytes → String}

theorem fromUtf8Lossy_asBytes (f : String) : fromUtf8Lossy lossy (asBytes f) = f := by
  have hbytes : (⟨((asBytes f).map UInt8.ofBitVec).toArray⟩ : ByteArray) = f.toByteArray := by
    rw [asBytes, List.map_map]
    show (⟨(f.toByteArray.data.toList.map id).toArray⟩ : ByteArray) = _
    rw [List.map_id]
  rw [fromUtf8Lossy, hbytes, String.fromUTF8?, dif_pos f.isValidUTF8]
  rfl

variable (lossy) in
theorem readFiles_eq : ∀ (files acc : List String) (p : Nat), p ≤ t.length → At t p (files.flatMap encodeFile ++ rest) →
    (∀ f ∈ files, (asBytes f).length < 2 ^ 32) →
      readFiles lossy t files.length p acc = some (acc ++ files, p + (files.flatMap encodeFile).length)
  | [], acc, p, _, _, _ => by simp [readFiles]
  | f :: files, acc, p, hp, h, hshort => by
      have hlen : (len32 (asBytes f)).toNat = (asBytes f).length := Nat.mod_eq_of_lt (hshort f List.mem_cons_self)
      rw [List.flatMap_cons, encodeFile, List.append_assoc, List.append_assoc] at h
      have hname := h.next
      have hname' := hname.next
      have htotal := congrArg List.length h
      rw [List.length_drop, List.length_append, List.length_append] at htotal
      have hrest := readFiles_eq files (acc ++ [f]) _ (by omega) hname' fun g hg => hshort g (List.mem_cons_of_mem _ hg)
      rw [List.length_cons, readFiles, readU_eq h, Option.bind_eq_bind, Option.bind_some]
      dsimp only
      rw [hlen, get_eq hname (by omega), Option.bind_eq_bind, Option.bind_some, fromUtf8Lossy_asBytes, hrest, List.append_assoc]
      rw [List.flatMap_cons, encodeFile, List.length_append, List.length_append, List.singleton_append, Nat.add_assoc, Nat.add_assoc, Nat.add_assoc]

/-! ### Functions -/

variable {files : List String}

/-- The entry that is read for a position. -/
def entryOf (files : List String) (e : BitVec 32 × Pos) : LineEntry :=
  (e.1, BitVec.ofNat 32 (files.idxOf e.2.file), e.2.line, e.2.col)

theorem readEntries_eq : ∀ (l : List (BitVec 32 × Pos)) (off line : BitVec 32) (acc : List LineEntry) (p : Nat),
    At t p (encodeEntries files off line l ++ rest) →
      readEntries t l.length p off line.toNat acc = some (acc ++ l.map (entryOf files), p + (encodeEntries files off line l).length)
  | [], _, _, acc, p, _ => by simp [readEntries, encodeEntries]
  | (o, pos) :: l, off, line, acc, p, h => by
      simp only [encodeEntries, List.append_assoc] at h
      have hfile := h.next
      have hdelta := hfile.next
      have hcol := hdelta.next
      have hrest := readEntries_eq l o pos.line (acc ++ [entryOf files (o, pos)]) _ hcol.next
      have hline := pos.line.isLt
      have hline' := line.isLt
      have hsum : (line.toNat : Int) + (pos.line.toNat - line.toNat) = pos.line.toNat := by omega
      have hoff : off + BitVec.ofNat 32 (o - off).toNat = o := by
        rw [BitVec.ofNat_toNat, BitVec.setWidth_eq, BitVec.add_comm, BitVec.sub_add_cancel]
      have hentry : (o, BitVec.ofNat 32 (BitVec.ofNat 32 (files.idxOf pos.file)).toNat, BitVec.ofInt 32 (pos.line.toNat : Int),
          BitVec.ofNat 32 pos.col.toNat) = entryOf files (o, pos) := by
        rw [entryOf, BitVec.ofNat_toNat, BitVec.setWidth_eq, BitVec.ofInt_natCast, BitVec.ofNat_toNat, BitVec.setWidth_eq, BitVec.ofNat_toNat,
          BitVec.setWidth_eq]
      simp only [List.length_cons, readEntries, Option.bind_eq_bind]
      rw [readU_eq h, Option.bind_some]
      dsimp only
      rw [readU_eq hfile, Option.bind_some]
      dsimp only
      rw [readS_eq (by omega) (by omega) hdelta, Option.bind_some]
      dsimp only
      rw [readU_eq hcol, Option.bind_some]
      dsimp only
      rw [hoff, hsum, hentry, hrest, List.append_assoc]
      simp only [encodeEntries, List.length_append, List.map_cons, List.singleton_append, Nat.add_assoc]

/-- The table that is read, function after function. -/
def funcsOf (files : List String) (bodies : List Nat) (imported : BitVec 32) (funcs : BitVec 32 → Option (Nat × List LineEntry))
    (f : FnLines) : BitVec 32 → Option (Nat × List LineEntry) :=
  Function.update funcs f.1 ((bodies[(f.1 - imported).toNat]?).map fun start => (start, f.2.map (entryOf files)))

theorem readFuncs_eq (bodies : List Nat) (imported : BitVec 32) : ∀ (fs : List FnLines) (funcs : BitVec 32 → Option (Nat × List LineEntry))
    (p : Nat), At t p (fs.flatMap (encodeFn files) ++ rest) →
    (∀ f ∈ fs, imported ≤ f.1 ∧ (f.1 - imported).toNat < bodies.length ∧ f.2.length < 2 ^ 32) →
      readFuncs t bodies imported fs.length p funcs = some (fs.foldl (funcsOf files bodies imported) funcs)
  | [], _, _, _, _ => rfl
  | f :: fs, funcs, p, h, hfs => by
      obtain ⟨hle, hlt, hshort⟩ := hfs f List.mem_cons_self
      have hlen : (len32 f.2).toNat = f.2.length := Nat.mod_eq_of_lt hshort
      simp only [List.flatMap_cons, encodeFn, List.append_assoc] at h
      have hcount := h.next
      have hentries := hcount.next
      have hread := readEntries_eq f.2 0#32 0#32 [] _ hentries
      have hrest := readFuncs_eq bodies imported fs (funcsOf files bodies imported funcs f) _ hentries.next fun g hg => hfs g (List.mem_cons_of_mem _ hg)
      have hzero : ((0#32).toNat : Int) = 0 := rfl
      rw [hzero, List.nil_append] at hread
      simp only [List.length_cons, readFuncs, Option.bind_eq_bind]
      rw [readU_eq h, Option.bind_some]
      dsimp only
      rw [BitVec.ofNat_toNat, BitVec.setWidth_eq, checkedSub, if_pos hle, Option.bind_some,
        List.getElem?_eq_getElem hlt, Option.bind_some, readU_eq hcount, Option.bind_some]
      dsimp only
      rw [hlen, hread, Option.bind_some]
      dsimp only
      rw [List.foldl_cons, ← hrest, funcsOf, List.getElem?_eq_getElem hlt, Option.map_some]

/-! ### The table -/

theorem u_pos (v : BitVec 32) : 1 ≤ (u v).length := List.length_pos_iff.mpr (isLeb_encodeNat _).ne_nil

theorem length_le_flatMap {α : Type} {g : α → Bytes} (hg : ∀ x, 1 ≤ (g x).length) : ∀ l : List α, l.length ≤ (l.flatMap g).length
  | [] => Nat.zero_le _
  | x :: l => by
      have hx := hg x
      have hrest := length_le_flatMap hg l
      rw [List.flatMap_cons, List.length_append, List.length_cons]
      omega

theorem length_le_of_mem {α : Type} {g : α → Bytes} {x : α} {l : List α} (h : x ∈ l) : (g x).length ≤ (l.flatMap g).length := by
  obtain ⟨before, after, rfl⟩ := List.append_of_mem h
  rw [List.flatMap_append, List.flatMap_cons, List.length_append, List.length_append]
  omega

theorem length_le_encodeEntries (files : List String) : ∀ (l : List (BitVec 32 × Pos)) (off line : BitVec 32), l.length ≤ (encodeEntries files off line l).length
  | [], _, _ => Nat.zero_le _
  | (o, p) :: l, off, line => by
      have hpos := u_pos (o - off)
      have hrest := length_le_encodeEntries files l o p.line
      simp only [encodeEntries, List.length_append, List.length_cons]
      omega

variable {lines : List FnLines}

/-- What is read of what is written. -/
def tableOf (lines : List FnLines) (bodies : List Nat) (imported : BitVec 32) : LineTable where
  files := fileNames lines
  funcs := (withLines lines).foldl (funcsOf (fileNames lines) bodies imported) fun _ => none

theorem length_fileNames_lt (hlen : (encodeLines lines).length < 2 ^ 32) : (fileNames lines).length < 2 ^ 32 := by
  have hle := length_le_flatMap (g := encodeFile) (fun f => by
    have hpos := u_pos (len32 (asBytes f))
    rw [encodeFile, List.length_append]
    omega) (fileNames lines)
  rw [encodeLines] at hlen
  simp only [List.length_append] at hlen
  omega

/-- **The table** that is read, when its functions are in the module. -/
theorem readTable_eq {wasm : Bytes} {bodies : List Nat} {imported : BitVec 32} (hlen : (encodeLines lines).length < 2 ^ 32)
    (hfs : ∀ f ∈ withLines lines, imported ≤ f.1 ∧ (f.1 - imported).toNat < bodies.length)
    (hsections : readSections wasm (wasm.length + 1) 8 [] none = some (bodies, some (encodeLines lines))) :
    tryRead lossy wasm imported = some (tableOf lines bodies imported) := by
  have hcountFiles : (len32 (fileNames lines)).toNat = (fileNames lines).length := Nat.mod_eq_of_lt (length_fileNames_lt hlen)
  rw [encodeLines] at hlen
  simp only [List.length_append] at hlen
  have hfile : ∀ f ∈ fileNames lines, (asBytes f).length < 2 ^ 32 := fun f hf => by
    have hle := length_le_of_mem (g := encodeFile) hf
    rw [encodeFile, List.length_append] at hle
    omega
  have hcountFns : (len32 (withLines lines)).toNat = (withLines lines).length := by
    have hle := length_le_flatMap (g := encodeFn (fileNames lines)) (fun f => by
      have hpos := u_pos f.1
      rw [encodeFn, List.length_append, List.length_append]
      omega) (withLines lines)
    exact Nat.mod_eq_of_lt (by omega)
  have hfn : ∀ f ∈ withLines lines, f.2.length < 2 ^ 32 := fun f hf => by
    have hle := length_le_of_mem (g := encodeFn (fileNames lines)) hf
    have hentries := length_le_encodeEntries (fileNames lines) f.2 0#32 0#32
    rw [encodeFn, List.length_append, List.length_append] at hle
    omega
  have h : At (encodeLines lines) 0 (u (len32 (fileNames lines)) ++ ((fileNames lines).flatMap encodeFile ++
      (u (len32 (withLines lines)) ++ ((withLines lines).flatMap (encodeFn (fileNames lines)) ++ [])))) := by
    rw [At, List.drop_zero, encodeLines, List.append_nil]
    simp only [List.append_assoc]
  have hfiles := h.next
  have hfns := hfiles.next
  have htotal := congrArg List.length h
  rw [List.length_drop, List.length_append] at htotal
  have hreadFiles := readFiles_eq lossy (fileNames lines) [] _ (by omega) hfiles hfile
  have hreadFns := readFuncs_eq bodies imported (withLines lines) (fun _ => none) _ hfns.next
    fun f hf => ⟨(hfs f hf).1, (hfs f hf).2, hfn f hf⟩
  simp only [tryRead, Option.bind_eq_bind]
  rw [hsections, Option.bind_some]
  dsimp only
  rw [Option.bind_some, readU_eq h, Option.bind_some]
  dsimp only
  rw [hcountFiles, hreadFiles, Option.bind_some]
  dsimp only
  rw [readU_eq hfns, Option.bind_some]
  dsimp only
  rw [hcountFns, hreadFns]
  rfl

end Aipl.Compiler.Lines
