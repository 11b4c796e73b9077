import Aipl.Std.Hash.Model

/-! # The block functions

Each of them, in range of its arrays, works a block through as its standard says.

* `be32_eq`, `le32_eq`, `be64_eq` — the words of a block.
* `foldAll_fill` — a loop that fills an array.
* `State`, `compress_ends` — what a hasher's arrays say of the chaining value, and what a block makes of it.
-/

namespace Aipl.StdHash

open Aipl.Lib Aipl.Lib.Outcome Aipl.Lib.Digests Aipl.Std

/-! ### Arrays -/

section

variable {T S : Type} {xs : List T} {i : Nat} {y : T}

theorem getAt_eq (h : xs[i]? = some y) : getAt xs i = done y := by
  rw [getAt, h]
  rfl

theorem setAt_eq (h : i < xs.length) : setAt xs i y = done (xs.set i y) := if_pos h

theorem foldAll_done {f : S → T → Outcome S} {g : S → T → S} {l : List T} (h : ∀ s, ∀ t ∈ l, f s t = done (g s t)) (s : S) :
    foldAll f s l = done (l.foldl g s) := by
  induction l generalizing s with
  | nil => rfl
  | cons t l ih =>
    rw [foldAll, h s t (by simp), done_bind]
    exact ih (fun s t ht => h s t (by simp [ht])) _

/-- The array holds `g` at its first `n` places. -/
def Filled (g : Nat → T) (n : Nat) (xs : List T) : Prop := ∀ i < n, xs[i]? = some (g i)

theorem Filled.getAt {g : Nat → T} {n : Nat} (h : Filled g n xs) (hi : i < n) : getAt xs i = done (g i) := getAt_eq (h i hi)

/-- **A loop that fills an array**, each place from those before it. -/
theorem foldAll_fill {f : List T → Nat → Outcome (List T)} {g : Nat → T} (lo n : Nat) (hlen : lo + n ≤ xs.length)
    (hlo : Filled g lo xs)
    (hf : ∀ ys t, lo ≤ t → t < lo + n → Filled g t ys → f ys t = setAt ys t (g t)) :
    ∃ ys, foldAll f xs (List.range' lo n) = done ys ∧ ys.length = xs.length ∧ Filled g (lo + n) ys := by
  refine Ends.exists (foldAll_range'_ends (fun t ys => ys.length = xs.length ∧ Filled g t ys) lo ⟨rfl, hlo⟩ n ?_)
  rintro t ys hle hlt ⟨hys, hfilled⟩
  rw [hf ys t hle hlt hfilled, setAt_eq (by omega)]
  refine ⟨by rw [List.length_set, hys], fun i hi => ?_⟩
  rw [List.getElem?_set]
  by_cases hit : t = i
  · subst hit
    rw [if_pos rfl, if_pos (by omega)]
  · rw [if_neg hit]
    exact hfilled i (by omega)

theorem setAll_eq {l rest : List T} (hlen : xs.length = l.length + rest.length) (hrest : xs.drop l.length = rest) :
    setAll xs l = done (l ++ rest) := by
  have hgen : ∀ (m : List T) (k : Nat) (pre : List T), pre.length = k → m.length + k ≤ (pre ++ xs.drop k).length →
      foldAll (fun ys (p : T × Nat) => setAt ys p.2 p.1) (pre ++ xs.drop k) (m.zipIdx k) =
        done (pre ++ m ++ xs.drop (k + m.length)) := by
    intro m
    induction m with
    | nil =>
      intro k pre _ _
      simp [foldAll]
    | cons a m ih =>
      intro k pre hpre hle
      have hk : k < xs.length := by
        simp only [List.length_append, List.length_drop, List.length_cons] at hle
        omega
      have hset : (pre ++ xs.drop k).set k a = pre ++ [a] ++ xs.drop (k + 1) := by
        rw [List.set_append_right k a hpre.le, hpre, Nat.sub_self, List.drop_eq_getElem_cons hk, List.set_cons_zero,
          List.append_assoc]
        rfl
      rw [List.zipIdx_cons, foldAll, setAt_eq (by simp only [List.length_append, List.length_drop]; omega), done_bind,
        hset, ih (k + 1) (pre ++ [a]) (by simp [hpre])]
      · rw [List.append_assoc pre, List.singleton_append, List.length_cons, Nat.add_assoc, Nat.add_comm 1]
      · simp only [List.length_append, List.length_drop, List.length_cons, List.length_nil] at hle ⊢
        omega
  have hall := hgen l 0 [] rfl (by simp [hlen])
  simpa [setAll, hrest] using hall

end

/-! ### Words -/

theorem rotated_eq {w n : Nat} {v : BitVec w} (h0 : 0 < n) (hn : n < w) : rotated v n = v.rotateRight n := by
  rw [rotated, BitVec.rotateRight_def, Nat.mod_eq_of_lt (show w - n < w by omega), Nat.mod_eq_of_lt hn]

theorem rotl_eq {n : Nat} {v : BitVec 32} (h0 : 0 < n) (hn : n < 32) : rotl v n = v.rotateLeft n := by
  rw [rotl, BitVec.rotateLeft_def, Nat.mod_eq_of_lt (show 32 - n < 32 by omega), Nat.mod_eq_of_lt hn]

/-- A byte, as the arrays hold it. -/
def ext (b : Byte) : BitVec 32 := b.setWidth 32

theorem beWord_append {w : Nat} (l l' : List Byte) (hw : 8 * (l.length + l'.length) = w) :
    beWord w (l ++ l') =
      ((beWord (8 * l.length) l).setWidth w <<< (8 * l'.length)) ||| (beWord (8 * l'.length) l').setWidth w := by
  subst hw
  have hlt : ∀ m : List Byte, Numeral.number 256 (m.map BitVec.toNat) < 2 ^ (8 * m.length) := fun m => by
    have hm : Numeral.number 256 (m.map BitVec.toNat) < _ := Numeral.number_lt fun d hd => by
      obtain ⟨b, -, rfl⟩ := List.mem_map.mp hd
      exact b.isLt
    rwa [List.length_map, show (256 : Nat) = 2 ^ 8 from rfl, ← pow_mul] at hm
  apply BitVec.eq_of_toNat_eq
  have hl := hlt l
  have hl' := hlt l'
  have hboth := hlt (l ++ l')
  rw [List.length_append] at hboth
  have hpow : (2 : Nat) ^ (8 * l'.length) ≤ 2 ^ (8 * (l.length + l'.length)) := Nat.pow_le_pow_right (by decide) (by omega)
  have hpow' : (2 : Nat) ^ (8 * l.length) ≤ 2 ^ (8 * (l.length + l'.length)) := Nat.pow_le_pow_right (by decide) (by omega)
  have hnum : Numeral.number 256 ((l ++ l').map BitVec.toNat) =
      Numeral.number 256 (l.map BitVec.toNat) <<< (8 * l'.length) + Numeral.number 256 (l'.map BitVec.toNat) := by
    rw [List.map_append, Numeral.number_append, List.length_map, Nat.shiftLeft_eq, pow_mul, show (2 : Nat) ^ 8 = 256 from rfl]
  have hshift : Numeral.number 256 (l.map BitVec.toNat) <<< (8 * l'.length) < 2 ^ (8 * (l.length + l'.length)) := by omega
  rw [BitVec.toNat_or, BitVec.toNat_shiftLeft, BitVec.toNat_setWidth, BitVec.toNat_setWidth, beWord, beWord, beWord,
    BitVec.toNat_ofNat, BitVec.toNat_ofNat, BitVec.toNat_ofNat, Nat.mod_eq_of_lt hboth, Nat.mod_eq_of_lt hl,
    Nat.mod_eq_of_lt hl', Nat.mod_eq_of_lt (hl.trans_le hpow'), Nat.mod_eq_of_lt (hl'.trans_le hpow),
    Nat.mod_eq_of_lt hshift, hnum, Nat.shiftLeft_add_eq_or_of_lt hl']

theorem beWord_one (b : Byte) : beWord 8 [b] = b := by
  simp [beWord, Numeral.number]

/-- **Four bytes** make a word. -/
theorem word_or (b₀ b₁ b₂ b₃ : Byte) :
    (ext b₀ <<< 24 ||| ext b₁ <<< 16) ||| (ext b₂ <<< 8 ||| ext b₃) = beWord 32 [b₀, b₁, b₂, b₃] := by
  have h₂ : beWord 16 [b₀, b₁] = _ := beWord_append [b₀] [b₁] rfl
  have h₂' : beWord 16 [b₂, b₃] = _ := beWord_append [b₂] [b₃] rfl
  have h₄ : beWord 32 [b₀, b₁, b₂, b₃] = _ := beWord_append [b₀, b₁] [b₂, b₃] rfl
  simp only [List.length_cons, List.length_nil, Nat.zero_add, Nat.reduceAdd, Nat.reduceMul, beWord_one] at h₂ h₂' h₄
  rw [h₄, h₂, h₂']
  ext i hi
  simp only [ext, BitVec.getElem_or, BitVec.getElem_shiftLeft, BitVec.getElem_setWidth, BitVec.getLsbD_or,
    BitVec.getLsbD_shiftLeft, BitVec.getLsbD_setWidth]
  grind

/-! ### The words of a block -/

/-- The first places of the array hold the bytes of the block. -/
def HoldsBlock (xs : List (BitVec 32)) (blk : List Byte) : Prop := xs.take blk.length = blk.map ext

section

variable {xs : List (BitVec 32)} {blk : List Byte} {n j : Nat}

theorem HoldsBlock.getAt (h : HoldsBlock xs blk) {i : Nat} {b : Byte} (hb : blk[i]? = some b) : getAt xs i = done (ext b) := by
  obtain ⟨hi, rfl⟩ := List.getElem?_eq_some_iff.mp hb
  apply getAt_eq
  rw [← List.getElem?_take_of_lt hi, h, List.getElem?_map, hb]
  rfl

/-- Four bytes of a block. -/
theorem exists_four (h : n + 4 ≤ blk.length) : ∃ b₀ b₁ b₂ b₃, (blk.drop n).take 4 = [b₀, b₁, b₂, b₃] ∧
    blk[n]? = some b₀ ∧ blk[n + 1]? = some b₁ ∧ blk[n + 2]? = some b₂ ∧ blk[n + 3]? = some b₃ := by
  refine ⟨_, _, _, _, ?_, List.getElem?_eq_getElem (by omega), List.getElem?_eq_getElem (by omega),
    List.getElem?_eq_getElem (by omega), List.getElem?_eq_getElem (by omega)⟩
  rw [List.drop_eq_getElem_cons (by omega), List.drop_eq_getElem_cons (by omega), List.drop_eq_getElem_cons (by omega),
    List.drop_eq_getElem_cons (by omega)]
  rfl

/-- **A big-endian word.** -/
theorem be32_eq (h : HoldsBlock xs blk) (hn : n + 4 ≤ blk.length) : be32 xs n = done (beWord 32 ((blk.drop n).take 4)) := by
  obtain ⟨b₀, b₁, b₂, b₃, htake, h₀, h₁, h₂, h₃⟩ := exists_four hn
  rw [be32, h.getAt h₀, h.getAt h₁, h.getAt h₂, h.getAt h₃, htake, ← word_or]
  rfl

/-- **A little-endian word.** -/
theorem le32_eq (h : HoldsBlock xs blk) (hn : n + 4 ≤ blk.length) :
    le32 xs n = done (beWord 32 ((blk.drop n).take 4).reverse) := by
  obtain ⟨b₀, b₁, b₂, b₃, htake, h₀, h₁, h₂, h₃⟩ := exists_four hn
  have hor : (ext b₀ ||| ext b₁ <<< 8) ||| (ext b₂ <<< 16 ||| ext b₃ <<< 24) = beWord 32 [b₃, b₂, b₁, b₀] := by
    rw [← word_or, BitVec.or_comm (ext b₃ <<< 24 ||| _), BitVec.or_comm (ext b₁ <<< 8), BitVec.or_comm (ext b₃ <<< 24)]
  rw [le32, h.getAt h₀, h.getAt h₁, h.getAt h₂, h.getAt h₃, htake, List.reverse_cons, List.reverse_cons, List.reverse_cons,
    List.reverse_singleton]
  simp only [List.cons_append, List.nil_append]
  rw [← hor]
  rfl

/-- **A word of eight bytes.** -/
theorem be64_eq (h : HoldsBlock xs blk) (hn : n + 8 ≤ blk.length) : be64 xs n = done (beWord 64 ((blk.drop n).take 8)) := by
  have hlen : ((blk.drop n).take 4).length = 4 := by
    rw [List.length_take, List.length_drop]
    omega
  have hlen' : ((blk.drop (n + 4)).take 4).length = 4 := by
    rw [List.length_take, List.length_drop]
    omega
  have hword := beWord_append (w := 64) ((blk.drop n).take 4) ((blk.drop (n + 4)).take 4) (by rw [hlen, hlen'])
  rw [hlen, hlen'] at hword
  rw [be64, be32_eq h (by omega), be32_eq h (by omega), done_bind, done_bind, show 8 = 4 + 4 from rfl, List.take_add,
    List.drop_drop, hword]
  rfl

/-- **The words are loaded**, and those behind them computed. -/
theorem load_words {w : Nat} {load : List (BitVec 32) → Nat → Outcome (BitVec w)} {size : Nat} (ws : List (BitVec w))
    (g : Nat → BitVec w) (hlen : 16 ≤ ws.length) (hload : ∀ t < 16, load xs (size * t) = done (g t)) :
    ∃ ys, foldAll (fun ws t => do setAt ws t (← load xs (size * t))) ws (List.range 16) = done ys ∧
      ys.length = ws.length ∧ Filled g 16 ys := by
  have hfill := @foldAll_fill _ ws (fun ws t => do setAt ws t (← load xs (size * t))) g 0 16 (by omega)
    (fun i hi => absurd hi (Nat.not_lt_zero i)) fun ys t _ ht _ => by
      rw [hload t (by omega), done_bind]
  rwa [← List.range_eq_range', Nat.zero_add] at hfill

end

/-! ### MD5 -/

theorem xor_neg_one {w : Nat} (x : BitVec w) : x ^^^ BitVec.allOnes w = ~~~x := by
  rw [BitVec.xor_comm, BitVec.allOnes_xor]

theorem neg_one_eq : (-1#32 : BitVec 32) = BitVec.allOnes 32 := by decide

theorem md5Mix_eq {s : Four} {i : Nat} (hi : i < 64) : md5Mix s i = (Md5.mix i s.b s.c s.d, Md5.place i) := by
  have hcases : i / 16 = 0 ∧ i < 16 ∨ i / 16 = 1 ∧ 16 ≤ i ∧ i < 32 ∨ i / 16 = 2 ∧ 32 ≤ i ∧ i < 48 ∨
      i / 16 = 3 ∧ 48 ≤ i := by omega
  simp only [md5Mix, Md5.mix, Md5.place, neg_one_eq, xor_neg_one]
  rcases hcases with ⟨h, hi⟩ | ⟨h, hlo, hi⟩ | ⟨h, hlo, hi⟩ | ⟨h, hlo⟩
  · simp [h, hi]
  · rw [if_neg (by omega), if_pos hi, h]
    congr 1
    ac_rfl
  · rw [if_neg (by omega), if_neg (by omega), if_pos hi, h]
    rfl
  · rw [if_neg (by omega), if_neg (by omega), if_neg (by omega), h]
    rfl

theorem md5Shift_eq : ∀ i < 64, md5Shift i = Md5.rotation i ∧ 0 < md5Shift i ∧ md5Shift i < 32 := by decide

theorem md5Constants_eq : md5Constants = Md5.table := by decide +kernel

theorem place_lt {i : Nat} (hi : i < 64) : Md5.place i < 16 := by
  have hcases : i / 16 = 0 ∨ i / 16 = 1 ∨ i / 16 = 2 ∨ i / 16 = 3 := by omega
  rcases hcases with h | h | h | h <;> simp only [Md5.place, h] <;> omega

theorem md5Round_eq {k m : List (BitVec 32)} {X : Nat → BitVec 32} (hk : k = Md5.table) (hm : Filled X 16 m) (s : Four)
    {i : Nat} (hi : i < 64) : md5Round k m s i = done (Md5.round X s i) := by
  obtain ⟨hshift, hpos, hlt⟩ := md5Shift_eq i hi
  have hlen : Md5.table.length = 64 := rfl
  have hki : getAt k i = done (Md5.table.getD i 0#32) := by
    apply getAt_eq
    rw [hk, List.getD_eq_getElem?_getD, List.getElem?_eq_getElem (by omega)]
    rfl
  rw [md5Round, md5Mix_eq hi, hki]
  dsimp only
  rw [hm.getAt (place_lt hi), done_bind, done_bind, rotl_eq hpos hlt, hshift, Md5.round]
  have hsum : Md5.mix i s.b s.c s.d + s.a + (Md5.table.getD i 0#32 + X (Md5.place i)) =
      s.a + Md5.mix i s.b s.c s.d + X (Md5.place i) + Md5.table.getD i 0#32 := by ac_rfl
  rw [hsum]
  rfl

/-! ### What a block makes of a hasher -/

theorem addAt_eq {w : Nat} {h : List (BitVec w)} {i : Nat} {y v : BitVec w} (hy : h[i]? = some y) :
    addAt h i v = done (h.set i (y + v)) := by
  rw [addAt, getAt_eq hy, done_bind, setAt_eq (List.getElem?_eq_some_iff.mp hy).1]

/-- What a block leaves as it is. -/
structure Kept (x x' : Hasher) : Prop where
  alg : x'.alg = x.alg
  block : x'.block = x.block
  fill : x'.fill = x.fill
  total : x'.total = x.total
  done : x'.done = x.done

/-- The chaining value of a hasher for MD5. -/
structure Md5State (x : Hasher) (v : Four) : Prop where
  value : ∃ rest, x.h32 = v.a :: v.b :: v.c :: v.d :: rest
  constants : x.k32 = md5Constants
  words : x.w32.length = 80

variable {x : Hasher} {blk : List Byte}

theorem md5Block_ends {v : Four} (h : Md5State x v) (hblk : HoldsBlock x.block blk) (hlen : blk.length = 64) :
    Ends (fun x' => Md5State x' (Md5.step v blk) ∧ Kept x x') (md5Block x) := by
  obtain ⟨⟨rest, hvalue⟩, hk, hw⟩ := h
  obtain ⟨m, hm, hmlen, hfilled⟩ := load_words x.w32 (leAt 32 blk) (by omega) fun t ht =>
    le32_eq (n := 4 * t) hblk (by omega)
  have hrounds : foldAll (md5Round x.k32 m) ⟨v.a, v.b, v.c, v.d⟩ (List.range 64) =
      done ((List.range 64).foldl (Md5.round (leAt 32 blk)) v) :=
    foldAll_done (fun s t ht => md5Round_eq (hk.trans md5Constants_eq) hfilled s (List.mem_range.mp ht)) _
  rw [md5Block, hm, hvalue, getAt_eq rfl, getAt_eq rfl, getAt_eq rfl, getAt_eq rfl]
  simp only [done_bind, hrounds]
  rw [addAt_eq rfl, done_bind, addAt_eq rfl, done_bind, addAt_eq rfl, done_bind, addAt_eq rfl]
  exact ⟨⟨⟨rest, rfl⟩, hk, hmlen.trans hw⟩, rfl, rfl, rfl, rfl, rfl⟩

/-! ### SHA-1 -/

theorem ch_or {w : Nat} (x y z : BitVec w) : (x &&& y ||| ~~~x &&& z) = ch x y z := by
  ext i hi
  simp only [ch, BitVec.getElem_or, BitVec.getElem_and, BitVec.getElem_not, BitVec.getElem_xor]
  cases x[i] <;> simp

theorem maj_or {w : Nat} (x y z : BitVec w) : (x &&& y ||| x &&& z ||| y &&& z) = maj x y z := by
  ext i hi
  simp only [maj, BitVec.getElem_or, BitVec.getElem_and, BitVec.getElem_xor]
  cases x[i] <;> cases y[i] <;> simp

theorem sha1Mix_eq {s : Five} {t : Nat} (ht : t < 80) : sha1Mix s t = (Sha1.mix t s.b s.c s.d, Sha1.constant t) := by
  have hcases : t / 20 = 0 ∧ t < 20 ∨ t / 20 = 1 ∧ 20 ≤ t ∧ t < 40 ∨ t / 20 = 2 ∧ 40 ≤ t ∧ t < 60 ∨
      t / 20 = 3 ∧ 60 ≤ t := by omega
  simp only [sha1Mix, Sha1.mix, Sha1.constant, neg_one_eq, xor_neg_one, ch_or, maj_or]
  rcases hcases with ⟨h, hi⟩ | ⟨h, hlo, hi⟩ | ⟨h, hlo, hi⟩ | ⟨h, hlo⟩
  · rw [if_pos hi, h]
    rfl
  · rw [if_neg (by omega), if_pos hi, h]
    rfl
  · rw [if_neg (by omega), if_neg (by omega), if_pos hi, h]
    rfl
  · rw [if_neg (by omega), if_neg (by omega), if_neg (by omega), h]
    rfl

theorem sha1Round_eq {w : List (BitVec 32)} {W : Nat → BitVec 32} (hw : Filled W 80 w) (s : Five) {t : Nat} (ht : t < 80) :
    sha1Round w s t = done (Sha1.round W s t) := by
  rw [sha1Round, sha1Mix_eq ht]
  dsimp only
  rw [hw.getAt ht, done_bind, rotl_eq (by decide) (by decide), rotl_eq (by decide) (by decide), Sha1.round]
  have hsum : s.a.rotateLeft 5 + Sha1.mix t s.b s.c s.d + (s.e + Sha1.constant t + W t) =
      s.a.rotateLeft 5 + Sha1.mix t s.b s.c s.d + s.e + Sha1.constant t + W t := by
    rw [← BitVec.add_assoc, ← BitVec.add_assoc]
  rw [hsum]
  rfl

/-- **The schedule** of SHA-1. -/
theorem sha1Schedule_fills {ws : List (BitVec 32)} {M : Nat → BitVec 32} (hlen : ws.length = 80) (h : Filled M 16 ws) :
    ∃ ys, foldAll sha1Schedule ws (List.range' 16 64) = done ys ∧ ys.length = ws.length ∧ Filled (Sha1.schedule M) 80 ys := by
  refine foldAll_fill 16 64 hlen.ge (fun i hi => ?_) fun ys t hlo ht hys => ?_
  · rw [h i hi, Sha1.schedule, if_pos hi]
  · rw [sha1Schedule, hys.getAt (by omega), hys.getAt (by omega), hys.getAt (by omega), hys.getAt (by omega)]
    simp only [done_bind]
    rw [rotl_eq (by decide) (by decide), Sha1.schedule.eq_1 M t, if_neg (by omega), ← BitVec.xor_assoc]

/-- The chaining value of a hasher for SHA-1. -/
structure Sha1State (x : Hasher) (v : Five) : Prop where
  value : ∃ rest, x.h32 = v.a :: v.b :: v.c :: v.d :: v.e :: rest
  words : x.w32.length = 80

theorem sha1Block_ends {v : Five} (h : Sha1State x v) (hblk : HoldsBlock x.block blk) (hlen : blk.length = 64) :
    Ends (fun x' => Sha1State x' (Sha1.step v blk) ∧ Kept x x') (sha1Block x) := by
  obtain ⟨⟨rest, hvalue⟩, hw⟩ := h
  obtain ⟨m, hm, hmlen, hloaded⟩ := load_words x.w32 (beAt 32 blk) (by omega) fun t ht =>
    be32_eq (n := 4 * t) hblk (by omega)
  obtain ⟨ws, hws, hwslen, hfilled⟩ := sha1Schedule_fills (hmlen.trans hw) hloaded
  have hrounds : foldAll (sha1Round ws) ⟨v.a, v.b, v.c, v.d, v.e⟩ (List.range 80) =
      done ((List.range 80).foldl (Sha1.round (Sha1.schedule (beAt 32 blk))) v) :=
    foldAll_done (fun s t ht => sha1Round_eq hfilled s (List.mem_range.mp ht)) _
  rw [sha1Block, hm, done_bind, hws, hvalue, getAt_eq rfl, getAt_eq rfl, getAt_eq rfl, getAt_eq rfl, getAt_eq rfl]
  simp only [done_bind, hrounds]
  rw [addAt_eq rfl, done_bind, addAt_eq rfl, done_bind, addAt_eq rfl, done_bind, addAt_eq rfl, done_bind, addAt_eq rfl]
  exact ⟨⟨⟨rest, rfl⟩, hwslen.trans (hmlen.trans hw)⟩, rfl, rfl, rfl, rfl, rfl⟩

/-! ### SHA-2 -/

/-- The amounts of a block function are those of a standard. -/
structure Agrees {w : Nat} (p : Sha2 w) (q : Sha2.Amounts) : Prop where
  s0 : p.s0 = q.small0
  s1 : p.s1 = q.small1
  big0 : p.big0 = q.big0
  big1 : p.big1 = q.big1
  rounds : p.rounds = q.rounds
  /-- Each is one that a word can be rotated by. -/
  range : ∀ r ∈ [q.big0.1, q.big0.2.1, q.big0.2.2, q.big1.1, q.big1.2.1, q.big1.2.2, q.small0.1, q.small0.2.1, q.small1.1,
    q.small1.2.1], 0 < r ∧ r < w

section

variable {w : Nat} {p : Sha2 w} {q : Sha2.Amounts}

theorem Agrees.rotated (h : Agrees p q) {r : Nat} (hr : r ∈ [q.big0.1, q.big0.2.1, q.big0.2.2, q.big1.1, q.big1.2.1,
    q.big1.2.2, q.small0.1, q.small0.2.1, q.small1.1, q.small1.2.1]) (v : BitVec w) : rotated v r = v.rotateRight r :=
  rotated_eq (h.range r hr).1 (h.range r hr).2

theorem sha2Schedule_fills (h : Agrees p q) {ws : List (BitVec w)} {M : Nat → BitVec w} (hlo : 16 ≤ q.rounds)
    (hlen : q.rounds ≤ ws.length) (hload : Filled M 16 ws) :
    ∃ ys, foldAll (sha2Schedule p) ws (List.range' 16 (p.rounds - 16)) = done ys ∧ ys.length = ws.length ∧
      Filled (Sha2.schedule q M) q.rounds ys := by
  have hfill := @foldAll_fill _ ws (sha2Schedule p) (Sha2.schedule q M) 16 (q.rounds - 16) (by omega)
    (fun i hi => by rw [hload i hi, Sha2.schedule, if_pos hi]) fun ys t hle ht hys => by
      rw [sha2Schedule, hys.getAt (by omega), hys.getAt (by omega), hys.getAt (by omega), hys.getAt (by omega)]
      simp only [done_bind]
      rw [h.s0, h.s1, h.rotated (by simp), h.rotated (by simp), h.rotated (by simp), h.rotated (by simp),
        Sha2.schedule.eq_1 q M t, if_neg (by omega), Sha2.small, Sha2.small]
      congr 1
      ac_rfl
  rw [h.rounds]
  rwa [show 16 + (q.rounds - 16) = q.rounds by omega] at hfill

theorem sha2Round_eq (h : Agrees p q) {k ws : List (BitVec w)} {W : Nat → BitVec w} (hk : Filled (Sha2.cubeRoot w) q.rounds k)
    (hw : Filled W q.rounds ws) (s : Eight w) {t : Nat} (ht : t < q.rounds) :
    sha2Round p k ws s t = done (Sha2.round q W s t) := by
  rw [sha2Round, hk.getAt ht, hw.getAt ht]
  simp only [done_bind, pure_eq, xor_neg_one]
  rw [h.big0, h.big1, h.rotated (by simp), h.rotated (by simp), h.rotated (by simp), h.rotated (by simp),
    h.rotated (by simp), h.rotated (by simp), Sha2.round]
  have hsum : s.h + Sha2.big q.big1 s.e + (ch s.e s.f s.g + (Sha2.cubeRoot w t + W t)) =
      s.h + Sha2.big q.big1 s.e + ch s.e s.f s.g + Sha2.cubeRoot w t + W t := by
    rw [← BitVec.add_assoc, ← BitVec.add_assoc]
  rw [← hsum]
  rfl

/-- The words of a chaining value. -/
def words (v : Eight w) : List (BitVec w) := [v.a, v.b, v.c, v.d, v.e, v.f, v.g, v.h]

theorem sha2Block_eq (h : Agrees p q) {v : Eight w} {k ws : List (BitVec w)} {xs : List (BitVec 32)} {blk : List Byte}
    (hk : Filled (Sha2.cubeRoot w) q.rounds k) (hlo : 16 ≤ q.rounds) (hlen : q.rounds ≤ ws.length)
    (hload : ∀ t < 16, p.load xs (p.size * t) = done (beAt w blk t)) :
    ∃ ws', sha2Block p (words v) k ws xs = done (words (Sha2.step q v blk), ws') ∧ ws'.length = ws.length := by
  obtain ⟨m, hm, hmlen, hloaded⟩ := load_words ws _ (hlo.trans hlen) hload
  obtain ⟨ws', hws, hwslen, hfilled⟩ := sha2Schedule_fills h hlo (hlen.trans hmlen.ge) hloaded
  have hrounds : foldAll (sha2Round p k ws') ⟨v.a, v.b, v.c, v.d, v.e, v.f, v.g, v.h⟩ (List.range p.rounds) =
      done ((List.range q.rounds).foldl (Sha2.round q (Sha2.schedule q (beAt w blk))) v) := by
    rw [h.rounds]
    exact foldAll_done (fun s t ht => sha2Round_eq h hk hfilled s (List.mem_range.mp ht)) _
  refine ⟨ws', ?_, hwslen.trans hmlen⟩
  rw [sha2Block, hm, done_bind, hws, words, getAt_eq rfl, getAt_eq rfl, getAt_eq rfl, getAt_eq rfl, getAt_eq rfl,
    getAt_eq rfl, getAt_eq rfl, getAt_eq rfl]
  simp only [done_bind, hrounds]
  rw [addAt_eq rfl, done_bind, addAt_eq rfl, done_bind, addAt_eq rfl, done_bind, addAt_eq rfl, done_bind, addAt_eq rfl,
    done_bind, addAt_eq rfl, done_bind, addAt_eq rfl, done_bind, addAt_eq rfl]
  rfl

end

theorem agrees256 : Agrees amounts256 Sha2.amounts256 := ⟨rfl, rfl, rfl, rfl, rfl, by decide⟩

theorem agrees512 : Agrees amounts512 Sha2.amounts512 := ⟨rfl, rfl, rfl, rfl, rfl, by decide⟩

theorem cubeRoot_eq (w : Nat) : Sha2.cubeRoot w = fun t => BitVec.ofNat w (Nat.nthRoot 3 (Sha2.primes.getD t 0 * 2 ^ (3 * w))) := rfl

/-- **The constants are roots of primes.** -/
theorem sha256Constants_eq : sha256Constants = (List.range 64).map (Sha2.cubeRoot 32) := by
  rw [cubeRoot_eq, Sha2.primes_eq]
  decide +kernel

theorem sha512Constants_eq : sha512Constants = (List.range 80).map (Sha2.cubeRoot 64) := by
  rw [cubeRoot_eq, Sha2.primes_eq]
  decide +kernel

theorem sha256Start_eq : sha256Start = words (Sha2.start 32) := by
  simp only [Sha2.start, Sha2.squareRoot, Sha2.primes_eq]
  decide +kernel

theorem sha512Start_eq : sha512Start = words (Sha2.start 64) := by
  simp only [Sha2.start, Sha2.squareRoot, Sha2.primes_eq]
  decide +kernel

theorem filled_map {T : Type} (g : Nat → T) (n : Nat) : Filled g n ((List.range n).map g) := fun i hi => by
  rw [List.getElem?_map, List.getElem?_range hi]
  rfl

/-- The chaining value of a hasher for SHA-256. -/
structure Sha256State (x : Hasher) (v : Eight 32) : Prop where
  value : x.h32 = words v
  constants : x.k32 = sha256Constants
  schedule : x.w32.length = 80

/-- The chaining value of a hasher for SHA-512. -/
structure Sha512State (x : Hasher) (v : Eight 64) : Prop where
  value : x.h64 = words v
  constants : x.k64 = sha512Constants
  schedule : x.w64.length = 80

theorem sha256Block_ends {v : Eight 32} (h : Sha256State x v) (hblk : HoldsBlock x.block blk) (hlen : blk.length = 64) :
    Ends (fun x' => Sha256State x' (Sha2.step Sha2.amounts256 v blk) ∧ Kept x x') (sha256Block x) := by
  obtain ⟨ws, hblock, hws⟩ := @sha2Block_eq 32 _ _ agrees256 v x.k32 x.w32 x.block blk
    (by rw [h.constants, sha256Constants_eq]; exact filled_map _ _) (by decide) (by rw [h.schedule]; decide)
    fun t ht => be32_eq (n := 4 * t) hblk (by omega)
  rw [sha256Block, h.value, hblock]
  exact ⟨⟨rfl, h.constants, hws.trans h.schedule⟩, rfl, rfl, rfl, rfl, rfl⟩

theorem sha512Block_ends {v : Eight 64} (h : Sha512State x v) (hblk : HoldsBlock x.block blk) (hlen : blk.length = 128) :
    Ends (fun x' => Sha512State x' (Sha2.step Sha2.amounts512 v blk) ∧ Kept x x') (sha512Block x) := by
  obtain ⟨ws, hblock, hws⟩ := @sha2Block_eq 64 _ _ agrees512 v x.k64 x.w64 x.block blk
    (by rw [h.constants, sha512Constants_eq]; exact filled_map _ _) (by decide) (by rw [h.schedule]; decide)
    fun t ht => be64_eq (n := 8 * t) hblk (by omega)
  rw [sha512Block, h.value, hblock]
  exact ⟨⟨rfl, h.constants, hws.trans h.schedule⟩, rfl, rfl, rfl, rfl, rfl⟩

end Aipl.StdHash
