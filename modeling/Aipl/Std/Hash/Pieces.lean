import Aipl.Std.Hash.Blocks

/-! # Hashing in pieces

* `Holds` — what a hasher holds of the bytes it was given; `absorb_ends`, `update_ends` — one more byte, and a piece.
* `finishBlocks_ends` — the padding of the standard, whatever came before.
* `hashed` — pieces are hashed as what they come to, by the standard's function.
* `hmac_hashed` — and so is a keyed message.
-/

namespace Aipl.StdHash

open Aipl.Lib Aipl.Lib.Outcome Aipl.Lib.Digests Aipl.Std Aipl.StdBytes
open Aipl.StdBuf (Content)

/-- The function that a hasher is to compute. -/
def standard : Algorithm → Hash
  | .md5 => Digests.md5
  | .sha1 => Digests.sha1
  | .sha256 => Digests.sha256
  | .sha512 => Digests.sha512

/-- The chaining value of a hasher. -/
def State : (alg : Algorithm) → Hasher → (standard alg).Value → Prop
  | .md5, x, v => Md5State x v
  | .sha1, x, v => Sha1State x v
  | .sha256, x, v => Sha256State x v
  | .sha512, x, v => Sha512State x v

variable {alg : Algorithm} {x : Hasher} {b : Byte}

theorem blockSize_eq (alg : Algorithm) : blockSize alg = (standard alg).block := by cases alg <;> rfl

theorem block_le (alg : Algorithm) : (standard alg).block ≤ 128 := by cases alg <;> decide

/-- The chaining value is not in the block, nor in what is counted. -/
theorem State.block {v : (standard alg).Value} (h : State alg x v) (block : List (BitVec 32)) (fill : Nat) (total : BitVec 64)
    (done : Bool) : State alg { x with block, fill, total, done } v := by
  cases alg with
  | md5 => exact ⟨h.value, h.constants, h.words⟩
  | sha1 => exact ⟨h.value, h.words⟩
  | sha256 => exact ⟨h.value, h.constants, h.schedule⟩
  | sha512 => exact ⟨h.value, h.constants, h.schedule⟩

/-- **A block is worked through** as the standard says. -/
theorem compress_ends {v : (standard alg).Value} {blk : List Byte} (halg : x.alg = alg) (h : State alg x v)
    (hblk : HoldsBlock x.block blk) (hlen : blk.length = (standard alg).block) :
    Ends (fun x' => State alg x' ((standard alg).step v blk) ∧ Kept x x') (compress x) := by
  cases alg with
  | md5 =>
    rw [compress, halg]
    exact md5Block_ends h hblk hlen
  | sha1 =>
    rw [compress, halg]
    exact sha1Block_ends h hblk hlen
  | sha256 =>
    rw [compress, halg]
    exact sha256Block_ends h hblk hlen
  | sha512 =>
    rw [compress, halg]
    exact sha512Block_ends h hblk hlen

/-! ### Bytes -/

abbrev Given (alg : Algorithm) := Partial (standard alg).Value Byte

/-- What a hasher holds: a chaining value, and the bytes of the block that is not full. -/
structure Holds (alg : Algorithm) (x : Hasher) (p : Given alg) : Prop where
  runs : x.alg = alg
  state : State alg x p.value
  block : x.block.length = 128
  fill : x.fill = p.pending.length
  lt : p.pending.length < (standard alg).block
  pending : HoldsBlock x.block p.pending

/-- The block with one more byte. -/
abbrev give (alg : Algorithm) (p : Given alg) (b : Byte) : Given alg := Digests.absorb (standard alg).step (standard alg).block p b

theorem HoldsBlock.concat {xs : List (BitVec 32)} {blk : List Byte} (h : HoldsBlock xs blk) (hlt : blk.length < xs.length) (b : Byte) :
    HoldsBlock (xs.set blk.length (ext b)) (blk ++ [b]) := by
  rw [HoldsBlock, List.length_append, List.length_singleton, List.map_append, ← h,
    List.take_succ_eq_append_getElem (by rwa [List.length_set]), List.take_set_of_le le_rfl, List.getElem_set_self]
  rfl

/-- What a byte leaves as it is. -/
def Steady (x x' : Hasher) : Prop := x'.total = x.total ∧ x'.done = x.done

/-- **One more byte.** -/
theorem absorb_ends {p : Given alg} (h : Holds alg x p) (b : Byte) :
    Ends (fun x' => Holds alg x' (give alg p b) ∧ Steady x x') (absorb x (ext b)) := by
  have hle := block_le alg
  have hlt := h.lt
  have hblk := h.pending.concat (by rw [h.block]; omega) b
  have hsize : blockSize x.alg = (standard alg).block := by rw [h.runs, blockSize_eq]
  rw [absorb, h.fill, setAt_eq (by rw [h.block]; omega), done_bind, hsize, give, Digests.absorb]
  dsimp only
  split
  · next hfull =>
    let y : Hasher := { x with block := x.block.set p.pending.length (ext b), fill := p.pending.length }
    have hstate : State alg y p.value := h.state.block _ _ x.total x.done
    have hlen : (p.pending ++ [b]).length = (standard alg).block := by
      rw [List.length_append, List.length_singleton, hfull]
    refine ends_bind (compress_ends (x := y) h.runs hstate hblk hlen) ?_
    rintro x' ⟨hstate', hkept⟩
    have hblock : x'.block.length = 128 := by
      rw [hkept.block, List.length_set]
      exact h.block
    exact ⟨⟨hkept.alg.trans h.runs, hstate'.block x'.block 0 x'.total x'.done, hblock, rfl, (standard alg).block_pos, rfl⟩,
      hkept.total, hkept.done⟩
  · refine ⟨⟨h.runs, h.state.block _ _ _ _, ?_, by simp, ?_, hblk⟩, rfl, rfl⟩
    · dsimp only
      rw [List.length_set, h.block]
    · rw [List.length_append, List.length_singleton]
      omega

/-- Bytes, one after another. -/
theorem absorbAll_ends {T : Type} {f : Hasher → T → Outcome Hasher} {g : T → Byte} :
    ∀ (l : List T) {x : Hasher} {p : Given alg}, Holds alg x p → (∀ x, ∀ t ∈ l, f x t = absorb x (ext (g t))) →
      Ends (fun x' => Holds alg x' ((l.map g).foldl (give alg) p) ∧ Steady x x') (foldAll f x l)
  | [], x, p, h, _ => ⟨h, rfl, rfl⟩
  | t :: l, x, p, h, hf => by
    rw [foldAll, hf x t (by simp)]
    refine ends_bind (absorb_ends h (g t)) ?_
    rintro x' ⟨h', htotal, hdone⟩
    refine (absorbAll_ends l h' fun x t ht => hf x t (by simp [ht])).mono ?_
    rintro x'' ⟨h'', htotal', hdone'⟩
    exact ⟨h'', htotal'.trans htotal, hdone'.trans hdone⟩

theorem ext_eq (b : Byte) : ext b = BitVec.ofNat 32 b.toNat := (BitVec.ofNat_toNat 32 b).symm

theorem map_getElem_range (l : List Byte) : (List.range l.length).map (fun i => l.getD i 0#8) = l := by
  apply List.ext_getElem
  · simp
  · intro i hi hi'
    simp [List.getD_eq_getElem?_getD, List.getElem?_eq_getElem hi']

/-- **A piece.** -/
theorem update_ends {p : Given alg} (h : Holds alg x p) (hdone : x.done = false) (l : List Byte) :
    Ends (fun x' => Holds alg x' (l.foldl (give alg) p) ∧ x'.done = false ∧ x'.total = x.total + (arrLen l).setWidth 64)
      (update x l) := by
  rw [update, hdone, Bool.not_false, require, if_pos rfl, done_bind]
  have hall := absorbAll_ends (f := fun x i => do absorb x (BitVec.ofNat 32 (← byteAt l i))) (g := fun i => l.getD i 0#8)
    (List.range l.length) h fun x i hi => by
      have hi' := List.mem_range.mp hi
      rw [byteAt_eq (List.getElem?_eq_getElem hi'), done_bind, ext_eq, List.getD_eq_getElem?_getD,
        List.getElem?_eq_getElem hi']
      rfl
  rw [map_getElem_range] at hall
  refine ends_bind hall ?_
  rintro x' ⟨h', htotal, hdone'⟩
  refine ⟨⟨h'.runs, h'.state.block _ _ _ _, h'.block, h'.fill, h'.lt, h'.pending⟩, hdone'.trans hdone, ?_⟩
  dsimp only
  rw [htotal]

/-! ### Making a hasher -/

/-- A hasher that was given the bytes `m`. -/
abbrev given (alg : Algorithm) (m : List Byte) : Given alg := m.foldl (give alg) ⟨(standard alg).start, []⟩

theorem given_append (alg : Algorithm) (m l : List Byte) : given alg (m ++ l) = l.foldl (give alg) (given alg m) :=
  List.foldl_append

theorem given_concat (alg : Algorithm) (m : List Byte) (b : Byte) : give alg (given alg m) b = given alg (m ++ [b]) :=
  (given_append alg m [b]).symm

section

variable {σ : Type} {A D : Allocator σ} {C : Prop} {fuel : Nat}

theorem array_small {T : Type} {t : ElemType T} {heap : σ} {n : BitVec 32} (hn : n.toNat ≤ 128)
    (ht : t.size.toNat ≤ 8) (hmem : C ∨ Plentiful D) :
    EndsOr C (fun r => r.1 = List.replicate n.toNat t.zero) (array D t heap n) := by
  have hn' := toInt_eq_toNat (show n.toNat < 2 ^ 31 by omega)
  have ht' := toInt_eq_toNat (show t.size.toNat < 2 ^ 31 by omega)
  have hprod : n.toNat * t.size.toNat ≤ 128 * 8 := Nat.mul_le_mul hn ht
  refine (array_endsOr (hmem.imp_right fun h => ⟨h, by omega, by omega, ?_⟩)).mono fun r hr => hr.1
  rw [hn', ht']
  omega

theorem md5Tables_eq : md5Tables (List.replicate 8 0#32) (List.replicate 64 0#32) =
    done ([0x67452301#32, 0xefcdab89#32, 0x98badcfe#32, 0x10325476#32] ++ List.replicate 4 0#32, md5Constants) := by
  have hh : setAll (List.replicate 8 0#32) md5Start = done (md5Start ++ List.replicate 4 0#32) := setAll_eq rfl rfl
  have hk : setAll (List.replicate 64 0#32) md5Constants = done (md5Constants ++ []) := setAll_eq rfl rfl
  have hstart : md5Start = [0x67452301#32, 0xefcdab89#32, 0x98badcfe#32, 0x10325476#32] := by decide
  rw [md5Tables, hh, done_bind, hk, hstart, List.append_nil]
  rfl

theorem sha1Tables_eq : sha1Tables (List.replicate 8 0#32) =
    done ([0x67452301#32, 0xefcdab89#32, 0x98badcfe#32, 0x10325476#32, 0xc3d2e1f0#32] ++ List.replicate 3 0#32) := by
  have hh : setAll (List.replicate 8 0#32) sha1Start = done (sha1Start ++ List.replicate 3 0#32) := setAll_eq rfl rfl
  have hstart : sha1Start = [0x67452301#32, 0xefcdab89#32, 0x98badcfe#32, 0x10325476#32, 0xc3d2e1f0#32] := by decide
  rw [sha1Tables, hh, hstart]

theorem sha256Tables_eq : sha256Tables (List.replicate 8 0#32) (List.replicate 64 0#32) =
    done (words (Sha2.start 32), sha256Constants) := by
  have hh : setAll (List.replicate 8 0#32) sha256Start = done (sha256Start ++ []) := setAll_eq rfl rfl
  have hk : setAll (List.replicate 64 0#32) sha256Constants = done (sha256Constants ++ []) := setAll_eq rfl rfl
  rw [sha256Tables, hh, done_bind, hk, List.append_nil, List.append_nil, sha256Start_eq]
  rfl

theorem sha512Tables_eq : sha512Tables (List.replicate 8 0#64) (List.replicate 80 0#64) =
    done (words (Sha2.start 64), sha512Constants) := by
  have hh : setAll (List.replicate 8 0#64) sha512Start = done (sha512Start ++ []) := setAll_eq rfl rfl
  have hk : setAll (List.replicate 80 0#64) sha512Constants = done (sha512Constants ++ []) := setAll_eq rfl rfl
  rw [sha512Tables, hh, done_bind, hk, List.append_nil, List.append_nil, sha512Start_eq]
  rfl

/-- **A new hasher** was given nothing. -/
theorem make_endsOr {heap : σ} (alg : Algorithm) (hmem : C ∨ Plentiful D) :
    EndsOr C (fun r => Holds alg r.1 (given alg []) ∧ r.1.total = 0#64 ∧ r.1.done = false) (make D heap alg) := by
  rw [make]
  refine endsOr_bind (create_endsOr (by decide) hmem) fun heap _ => ?_
  have hsmall : ∀ (n m : BitVec 32), n.toNat ≤ 128 → m.toNat ≤ 128 → (if alg = .sha512 then n else m).toNat ≤ 128 := by
    intro n m hn hm
    split <;> assumption
  refine endsOr_bind (array_small (hsmall 0#32 8#32 (by decide) (by decide)) (by decide) hmem) ?_
  rintro ⟨h32, heap⟩ hh32
  refine endsOr_bind (array_small (hsmall 8#32 0#32 (by decide) (by decide)) (by decide) hmem) ?_
  rintro ⟨h64, heap⟩ hh64
  refine endsOr_bind (array_small (hsmall 0#32 64#32 (by decide) (by decide)) (by decide) hmem) ?_
  rintro ⟨k32, heap⟩ hk32
  refine endsOr_bind (array_small (hsmall 80#32 0#32 (by decide) (by decide)) (by decide) hmem) ?_
  rintro ⟨k64, heap⟩ hk64
  refine endsOr_bind (array_small (hsmall 0#32 80#32 (by decide) (by decide)) (by decide) hmem) ?_
  rintro ⟨w32, heap⟩ hw32
  refine endsOr_bind (array_small (hsmall 80#32 0#32 (by decide) (by decide)) (by decide) hmem) ?_
  rintro ⟨w64, heap⟩ hw64
  refine endsOr_bind (array_small (n := 128#32) (by decide) (by decide) hmem) ?_
  rintro ⟨block, heap⟩ hblock
  dsimp only at *
  have hlen : block.length = 128 := by
    rw [hblock, List.length_replicate]
    rfl
  subst hh32 hh64 hk32 hk64 hw32 hw64
  cases alg with
  | md5 =>
    change EndsOr C _ (md5Tables (List.replicate 8 0#32) (List.replicate 64 0#32) >>= _)
    rw [md5Tables_eq, done_bind]
    exact ⟨⟨rfl, ⟨⟨List.replicate 4 0#32, rfl⟩, rfl, rfl⟩, hlen, rfl, (standard .md5).block_pos, rfl⟩, rfl, rfl⟩
  | sha1 =>
    change EndsOr C _ (sha1Tables (List.replicate 8 0#32) >>= _)
    rw [sha1Tables_eq, done_bind]
    exact ⟨⟨rfl, ⟨⟨List.replicate 3 0#32, rfl⟩, rfl⟩, hlen, rfl, (standard .sha1).block_pos, rfl⟩, rfl, rfl⟩
  | sha256 =>
    change EndsOr C _ (sha256Tables (List.replicate 8 0#32) (List.replicate 64 0#32) >>= _)
    rw [sha256Tables_eq, done_bind]
    exact ⟨⟨rfl, ⟨rfl, rfl, rfl⟩, hlen, rfl, (standard .sha256).block_pos, rfl⟩, rfl, rfl⟩
  | sha512 =>
    change EndsOr C _ (sha512Tables (List.replicate 8 0#64) (List.replicate 80 0#64) >>= _)
    rw [sha512Tables_eq, done_bind]
    exact ⟨⟨rfl, ⟨rfl, rfl, rfl⟩, hlen, rfl, (standard .sha512).block_pos, rfl⟩, rfl, rfl⟩

end

/-! ### Finishing -/

theorem pending_length (alg : Algorithm) (m : List Byte) : (given alg m).pending.length = m.length % (standard alg).block := by
  have hnone : (⟨(standard alg).start, []⟩ : Given alg).pending.length < (standard alg).block := (standard alg).block_pos
  rw [given, absorbAll_eq (standard alg).block_pos _ hnone, List.nil_append, List.length_drop]
  have := Nat.mod_add_div m.length (standard alg).block
  omega

/-- The room of the length, and the length. -/
def room (alg : Algorithm) : Nat := if alg = .sha512 then 16 else 8

def lengthBytes (alg : Algorithm) (len : Nat) : List Byte :=
  match alg with
  | .md5 => leBytes 8 (8 * len)
  | .sha512 => beBytes 16 (8 * len)
  | .sha1 | .sha256 => beBytes 8 (8 * len)

theorem padding_eq (alg : Algorithm) (len : Nat) :
    (standard alg).padding len = pad (standard alg).block (room alg) (lengthBytes alg) len := by cases alg <;> rfl

theorem room_lt (alg : Algorithm) : 0 < room alg ∧ room alg < (standard alg).block := by cases alg <;> decide

/-- **The zeros**: as many as are missing. -/
theorem zeros_end : ∀ (z : Nat) {fuel : Nat} {x : Hasher} {m : List Byte}, Holds alg x (given alg m) →
    (∀ i < z, (m.length + i) % (standard alg).block ≠ (standard alg).block - room alg) →
    (m.length + z) % (standard alg).block = (standard alg).block - room alg → z < fuel →
    Ends (fun x' => Holds alg x' (given alg (m ++ List.replicate z 0#8)))
      (iterate (zeroRound (blockSize alg) (room alg)) fuel x)
  | z, 0, _, _, _, _, _, hfuel => absurd hfuel (Nat.not_lt_zero z)
  | 0, fuel + 1, x, m, h, _, hlast, _ => by
    have hfill : ¬ x.fill ≠ blockSize alg - room alg := by
      rw [h.fill, pending_length, blockSize_eq, not_not]
      exact hlast
    rw [iterate, zeroRound, if_neg hfill, List.replicate_zero, List.append_nil]
    exact h
  | z + 1, fuel + 1, x, m, h, hbefore, hlast, hfuel => by
    have hfill : x.fill ≠ blockSize alg - room alg := by
      rw [h.fill, pending_length, blockSize_eq]
      exact hbefore 0 (Nat.succ_pos z)
    obtain ⟨x', habsorb, hx', -⟩ := (absorb_ends h 0#8).exists
    have hround : absorb x 0#32 = done x' := habsorb
    rw [iterate, zeroRound, if_pos hfill, hround, List.replicate_succ, List.append_cons]
    rw [given_concat] at hx'
    refine zeros_end z hx' (fun i hi => ?_) ?_ (by omega)
    · rw [List.length_append, List.length_singleton, Nat.add_assoc, Nat.add_comm 1]
      exact hbefore (i + 1) (by omega)
    · rw [List.length_append, List.length_singleton, Nat.add_assoc, Nat.add_comm 1]
      exact hlast

/-! ### The length -/

theorem byteOf_eq {w : Nat} (hw : 8 ≤ w) (v : BitVec w) (s : Nat) : byteOf v s = ext (BitVec.ofNat 8 (v.toNat / 2 ^ s)) := by
  apply BitVec.eq_of_toNat_eq
  have h255 : 255 % 2 ^ w = 2 ^ 8 - 1 := Nat.mod_eq_of_lt (by
    have : 2 ^ 8 ≤ 2 ^ w := Nat.pow_le_pow_right (by decide) hw
    omega)
  rw [byteOf, ext, BitVec.toNat_setWidth, BitVec.toNat_setWidth, BitVec.toNat_and, BitVec.toNat_ofNat, BitVec.toNat_ofNat,
    h255, Nat.and_two_pow_sub_one_eq_mod, BitVec.toNat_ushiftRight, Nat.shiftRight_eq_div_pow]

/-- A byte of a number, of which the low 64 bits are kept. -/
theorem byte_of_low (n : Nat) {k : Nat} (hk : k < 8) :
    BitVec.ofNat 8 (n % 2 ^ 64 / 2 ^ (8 * k)) = BitVec.ofNat 8 (n / 256 ^ k) := by
  have hsplit : (2 : Nat) ^ 64 = 2 ^ (8 * k) * 2 ^ (64 - 8 * k) := by
    rw [← pow_add]
    congr 1
    omega
  apply BitVec.eq_of_toNat_eq
  rw [BitVec.toNat_ofNat, BitVec.toNat_ofNat, hsplit, Nat.mod_mul_right_div_self,
    Nat.mod_mod_of_dvd _ (Nat.pow_dvd_pow 2 (by omega)), show (256 : Nat) = 2 ^ 8 from rfl, pow_mul]

theorem toNat_bits (len : Nat) : (BitVec.ofNat 64 len <<< 3).toNat = 8 * len % 2 ^ 64 := by
  rw [BitVec.toNat_shiftLeft, BitVec.toNat_ofNat, Nat.shiftLeft_eq, Nat.mod_mul_mod, Nat.mul_comm]

theorem beBytes_add (n m v : Nat) : beBytes (n + m) v = beBytes n (v / 256 ^ m) ++ beBytes m v := by
  rw [beBytes, List.range_add, List.map_append, List.map_map]
  congr 1
  · refine List.map_congr_left fun k hk => ?_
    have := List.mem_range.mp hk
    rw [Nat.div_div_eq_div_mul, ← pow_add, show n + m - 1 - k = m + (n - 1 - k) by omega]
  · refine List.map_congr_left fun k hk => ?_
    have := List.mem_range.mp hk
    rw [Function.comp_apply, show n + m - 1 - (n + k) = m - 1 - k by omega]

/-- **The length** is absorbed as the standard writes it. -/
theorem length_ends {p : Given alg} {len : Nat} (h : Holds alg x p) (hfits : alg = .sha512 → len < 2 ^ 64) :
    Ends (fun x' => Holds alg x' ((lengthBytes alg len).foldl (give alg) p))
      (if x.alg = .md5 then foldAll (fun x k => absorb x (byteOf (BitVec.ofNat 64 len <<< 3) (8 * k))) x (List.range 8)
      else do
        let x ← (if x.alg = .sha512 then
            foldAll (fun x k => absorb x (byteOf (BitVec.ofNat 64 len >>> 61) (8 * (7 - k)))) x (List.range 8)
          else pure x : Outcome Hasher)
        foldAll (fun x k => absorb x (byteOf (BitVec.ofNat 64 len <<< 3) (8 * (7 - k)))) x (List.range 8)) := by
  have hlow : ∀ {x : Hasher} {p : Given alg}, Holds alg x p →
      Ends (fun x' => Holds alg x' ((beBytes 8 (8 * len)).foldl (give alg) p))
        (foldAll (fun x k => absorb x (byteOf (BitVec.ofNat 64 len <<< 3) (8 * (7 - k)))) x (List.range 8)) := by
    intro x p h
    refine (absorbAll_ends _ h fun x k hk => ?_).mono fun x' hx' => hx'.1
    rw [byteOf_eq (by decide), toNat_bits, byte_of_low _ (by have := List.mem_range.mp hk; omega)]
  by_cases hmd5 : alg = .md5
  · -- the lowest byte first
    subst hmd5
    rw [if_pos h.runs]
    refine (absorbAll_ends (g := fun k => BitVec.ofNat 8 (8 * len / 256 ^ k)) _ h fun x k hk => ?_).mono fun x' hx' => hx'.1
    rw [byteOf_eq (by decide), toNat_bits, byte_of_low _ (List.mem_range.mp hk)]
  · rw [if_neg (by rw [h.runs]; exact hmd5)]
    by_cases hwide : alg = .sha512
    · -- the length has 16 bytes, and the shift by 61 is the high 8
      subst hwide
      have hlt := hfits rfl
      have hbytes : lengthBytes .sha512 len = beBytes 8 (8 * len / 256 ^ 8) ++ beBytes 8 (8 * len) := beBytes_add 8 8 _
      rw [if_pos h.runs, hbytes, List.foldl_append]
      refine ends_bind ((absorbAll_ends (g := fun k => BitVec.ofNat 8 (8 * len / 256 ^ 8 / 256 ^ (8 - 1 - k))) _ h
        fun x k hk => ?_).mono fun x' hx' => hx'.1) fun x' hx' => hlow hx'
      have hhigh : (BitVec.ofNat 64 len >>> 61).toNat = 8 * len / 256 ^ 8 := by
        rw [BitVec.toNat_ushiftRight, BitVec.toNat_ofNat, Nat.mod_eq_of_lt hlt, Nat.shiftRight_eq_div_pow]
        omega
      rw [byteOf_eq (by decide), hhigh, show (256 : Nat) ^ (8 - 1 - k) = 2 ^ (8 * (7 - k)) by
        rw [show (256 : Nat) = 2 ^ 8 from rfl, ← pow_mul]]
    · rw [if_neg (by rw [h.runs]; exact hwide)]
      have hbytes : lengthBytes alg len = beBytes 8 (8 * len) := by
        cases alg <;> first | rfl | exact absurd rfl hmd5 | exact absurd rfl hwide
      rw [hbytes]
      exact hlow h

/-- **The padding is the standard's**, for every length. -/
theorem finishBlocks_ends {fuel : Nat} {m : List Byte} (h : Holds alg x (given alg m)) (htotal : x.total = BitVec.ofNat 64 m.length)
    (hfits : alg = .sha512 → m.length < 2 ^ 64) (hfuel : 128 ≤ fuel) :
    Ends (fun x' => Holds alg x' (given alg (m ++ (standard alg).padding m.length))) (finishBlocks fuel x) := by
  have hone : (128#32 : BitVec 32) = ext 0x80#8 := rfl
  obtain ⟨hat, hleast⟩ := least_zeros m.length (room_lt alg).1 (room_lt alg).2
  have hzeros : zeros (standard alg).block (room alg) m.length < 128 :=
    (Nat.mod_lt _ (standard alg).block_pos).trans_le (block_le alg)
  rw [finishBlocks]
  dsimp only
  rw [h.runs, htotal, hone]
  refine ends_bind (absorb_ends h 0x80#8) fun x₁ ⟨hx₁, _⟩ => ?_
  rw [given_concat] at hx₁
  rw [hx₁.runs]
  refine ends_bind (zeros_end (zeros (standard alg).block (room alg) m.length) hx₁ (fun i hi hhere => ?_) ?_ (by omega)) ?_
  · rw [List.length_append, List.length_singleton] at hhere
    exact absurd (hleast i hhere) (Nat.not_le_of_lt hi)
  · rw [List.length_append, List.length_singleton]
    exact hat
  · intro x₂ hx₂
    have hpad : given alg (m ++ (standard alg).padding m.length) =
        (lengthBytes alg m.length).foldl (give alg)
          (given alg (m ++ [0x80#8] ++ List.replicate (zeros (standard alg).block (room alg) m.length) 0#8)) := by
      rw [padding_eq, pad, ← given_append]
      simp
    rw [hpad]
    exact length_ends hx₂ hfits

/-! ### The digest -/

section

variable {σ : Type} {A D : Allocator σ} {C : Prop} {fuel : Nat} {o : Content σ}

theorem setWidth_ext (b : Byte) : (ext b).setWidth 8 = b := BitVec.setWidth_setWidth_of_le b (by decide)

/-- The bytes of a word, the highest first. -/
theorem push_beBytes {w : Nat} (hw : 8 ≤ w) (n : Nat) (v : BitVec w) (o : Content σ) :
    foldAll (fun o k => o.pushByte A fuel (byteOf v (8 * (n - 1 - k)))) o (List.range n) =
      StdBuf.pushAll A fuel o (beBytes n v.toNat) := by
  rw [beBytes, List.map_eq_flatMap]
  refine StdBuf.foldAll_eq_pushAll (fun k _ o => ?_) o
  rw [byteOf_eq hw, pow_mul, StdBuf.pushAll_one (setWidth_ext _)]
  rfl

theorem push_leBytes {w : Nat} (hw : 8 ≤ w) (n : Nat) (v : BitVec w) (o : Content σ) :
    foldAll (fun o k => o.pushByte A fuel (byteOf v (8 * k))) o (List.range n) = StdBuf.pushAll A fuel o (leBytes n v.toNat) := by
  rw [leBytes, List.map_eq_flatMap]
  refine StdBuf.foldAll_eq_pushAll (fun k _ o => ?_) o
  rw [byteOf_eq hw, pow_mul, StdBuf.pushAll_one (setWidth_ext _)]
  rfl

/-- The bytes of the first words of an array. -/
theorem push_words {T : Type} {f : T → List Byte} {push : Content σ → T → Outcome (Content σ)} {l rest : List T}
    (hpush : ∀ o a, push o a = StdBuf.pushAll A fuel o (f a)) (o : Content σ) :
    foldAll (fun o i => do push o (← getAt (l ++ rest) i)) o (List.range l.length) = StdBuf.pushAll A fuel o (l.flatMap f) := by
  refine StdBuf.foldAll_places (fun i a ha o => ?_) o
  have hi := (List.getElem?_eq_some_iff.mp ha).1
  rw [getAt_eq (y := a) (by rw [List.getElem?_append_left hi, ha]), done_bind, hpush]

/-- **The digest is written** as the standard has it. -/
theorem writeDigest_eq {v : (standard alg).Value} (halg : x.alg = alg) (h : State alg x v) (o : Content σ) :
    writeDigest A fuel x o = StdBuf.pushAll A fuel o ((standard alg).bytes v) := by
  cases alg with
  | md5 =>
    obtain ⟨rest, hvalue⟩ := h.value
    rw [writeDigest, halg, hvalue]
    exact push_words (l := [v.a, v.b, v.c, v.d]) (fun o a => push_leBytes (by decide) 4 a o) o
  | sha1 =>
    obtain ⟨rest, hvalue⟩ := h.value
    rw [writeDigest, halg, hvalue]
    exact push_words (l := [v.a, v.b, v.c, v.d, v.e]) (fun o a => push_beBytes (by decide) 4 a o) o
  | sha256 =>
    rw [writeDigest, halg, h.value, ← List.append_nil (words v)]
    exact push_words (l := words v) (fun o a => push_beBytes (by decide) 4 a o) o
  | sha512 =>
    rw [writeDigest, halg, h.value, ← List.append_nil (words v)]
    exact push_words (l := words v) (fun o a => push_beBytes (by decide) 8 a o) o

theorem length_bytes (alg : Algorithm) (v : (standard alg).Value) : ((standard alg).bytes v).length = digestSize alg := by
  cases alg <;> simp [standard, Digests.md5, Digests.sha1, Digests.sha256, Digests.sha512, Sha2.bytes, digestSize]

theorem length_digest (alg : Algorithm) (m : List Byte) : ((standard alg).digest m).length = digestSize alg :=
  length_bytes alg _

/-- What has been given to a hasher that is not finished. -/
structure Open (alg : Algorithm) (x : Hasher) (m : List Byte) : Prop where
  holds : Holds alg x (given alg m)
  total : x.total = BitVec.ofNat 64 m.length
  done : x.done = false

/-- **A piece more.** -/
theorem update_open {m l : List Byte} (h : Open alg x m) (hl : l.length < 2 ^ 31) :
    Ends (fun x' => Open alg x' (m ++ l)) (update x l) := by
  refine (update_ends h.holds h.done l).mono fun x' ⟨hx', hdone, htotal⟩ => ⟨?_, ?_, hdone⟩
  · rwa [given_append]
  · rw [htotal, h.total, arrLen, BitVec.setWidth_ofNat_of_le_of_lt (by decide) (by omega), List.length_append, BitVec.ofNat_add]

/-- **Pieces**, whatever they are. -/
theorem updates_open : ∀ (pieces : List (List Byte)) {x : Hasher} {m : List Byte}, Open alg x m →
    (∀ l ∈ pieces, l.length < 2 ^ 31) → Ends (fun x' => Open alg x' (m ++ pieces.flatten)) (foldAll update x pieces)
  | [], x, m, h, _ => by
    rw [List.flatten_nil, List.append_nil]
    exact h
  | l :: pieces, x, m, h, hl => by
    rw [foldAll, List.flatten_cons, ← List.append_assoc]
    exact ends_bind (update_open h (hl l (by simp))) fun x' hx' =>
      updates_open pieces hx' fun l' hl' => hl l' (by simp [hl'])

theorem make_open {heap : σ} (alg : Algorithm) (hmem : C ∨ Plentiful D) :
    EndsOr C (fun r => Open alg r.1 []) (make D heap alg) :=
  (make_endsOr alg hmem).mono fun _ ⟨hholds, htotal, hdone⟩ => ⟨hholds, htotal, hdone⟩

/-- **Finishing** appends the digest of what was given. -/
theorem finishTo_endsOr {m : List Byte} {n : Nat} (h : Open alg x m) (hfits : alg = .sha512 → m.length < 2 ^ 64)
    (hfuel : 2 ^ 31 ≤ fuel) (hspace : o.Space C (digestSize alg + n)) :
    EndsOr C (fun r => r.2.bytes = o.bytes ++ (standard alg).digest m ∧ r.2.Space C n) (finishTo A fuel x o) := by
  rw [finishTo, h.done, Bool.not_false, require, if_pos rfl, done_bind]
  refine endsOr_bind (finishBlocks_ends h.holds h.total hfits (by omega)).endsOr fun x' hx' => ?_
  have hvalue : (given alg (m ++ (standard alg).padding m.length)).value =
      chain (standard alg).step (standard alg).block ((m ++ (standard alg).padding m.length).length / (standard alg).block)
        (standard alg).start (m ++ (standard alg).padding m.length) := by
    rw [given, (standard alg).absorbAll_padded]
  rw [writeDigest_eq hx'.runs hx'.state, hvalue]
  refine endsOr_bind (StdBuf.pushAll_space (n := n) hfuel _ o (by rwa [length_bytes])) fun o' ho' => ?_
  exact ho'

theorem free_endsOr {heap : σ} (hmem : C ∨ Plentiful D) : EndsOr C (fun _ => True) (free D heap x) := by
  rw [free]
  refine endsOr_bind (freeArray_endsOr hmem) fun heap _ => endsOr_bind (freeArray_endsOr hmem) fun heap _ => ?_
  refine endsOr_bind (freeArray_endsOr hmem) fun heap _ => endsOr_bind (freeArray_endsOr hmem) fun heap _ => ?_
  refine endsOr_bind (freeArray_endsOr hmem) fun heap _ => endsOr_bind (freeArray_endsOr hmem) fun heap _ => ?_
  exact endsOr_bind (freeArray_endsOr hmem) fun heap _ => destroy_endsOr hmem

/-- A hasher that is made, used and freed. -/
theorem hashing_endsOr {f : Hasher → Outcome Hasher} {m : List Byte} {n : Nat}
    (hf : ∀ x, Open alg x [] → Ends (fun x' => Open alg x' m) (f x)) (hfits : alg = .sha512 → m.length < 2 ^ 64)
    (hfuel : 2 ^ 31 ≤ fuel) (hmem : C ∨ Plentiful D) (hspace : o.Space C (digestSize alg + n)) :
    EndsOr C (fun o' => o'.bytes = o.bytes ++ (standard alg).digest m ∧ o'.Space C n)
      (make D o.heap alg >>= fun r => f r.1 >>= fun x => finishTo A fuel x { o with heap := r.2 } >>= fun r =>
        free D r.2.heap r.1 >>= fun heap => pure { r.2 with heap }) := by
  refine endsOr_bind (make_open alg hmem) ?_
  rintro ⟨x, heap⟩ hx
  refine endsOr_bind (hf x hx).endsOr fun x' hx' => ?_
  refine endsOr_bind (finishTo_endsOr (n := n) (o := { o with heap }) hx' hfits hfuel hspace) ?_
  rintro ⟨x'', o'⟩ ho'
  exact endsOr_bind (free_endsOr hmem) fun heap' _ => ho'

/-- **Hashing in pieces.**  However a message is cut into pieces, making a hasher, giving it the pieces and finishing it
appends the digest that the standard has for the message; nothing but memory that runs out stops it. -/
theorem hashed (alg : Algorithm) (pieces : List (List Byte)) (hpieces : ∀ l ∈ pieces, l.length < 2 ^ 31)
    (hfits : alg = .sha512 → pieces.flatten.length < 2 ^ 64) (hfuel : 2 ^ 31 ≤ fuel) (hmem : C ∨ Plentiful D)
    (hspace : o.Space C (digestSize alg)) :
    EndsOr C (fun o' => o'.bytes = o.bytes ++ (standard alg).digest pieces.flatten) (hashPieces A D fuel o alg pieces) :=
  (hashing_endsOr (n := 0) (fun _ hx => updates_open pieces hx hpieces) hfits hfuel hmem hspace).mono fun _ h => h.1

set_option maxRecDepth 4000 in
theorem hashed_abc : [[97#8], [], [98#8, 99#8]].flatten.length < 2 ^ 64 ∧
    EndsOr False (fun o' => o'.bytes = [] ++ (standard .sha512).digest [[97#8], [], [98#8, 99#8]].flatten)
      (hashPieces Allocator.ample Allocator.ample (2 ^ 31) ⟨[], 64#32, ()⟩ .sha512 [[97#8], [], [98#8, 99#8]]) :=
  ⟨by decide, hashed (o := ⟨[], 64#32, ()⟩) .sha512 [[97#8], [], [98#8, 99#8]] (by decide) (fun _ => by decide)
    (Nat.le_refl (2 ^ 31)) (.inr ⟨fun _ _ => rfl, fun _ _ => rfl⟩) (.inr (by decide))⟩

theorem digestTo_endsOr {l : List Byte} {n : Nat} (hl : l.length < 2 ^ 31) (hfuel : 2 ^ 31 ≤ fuel) (hmem : C ∨ Plentiful D)
    (hspace : o.Space C (digestSize alg + n)) :
    EndsOr C (fun o' => o'.bytes = o.bytes ++ (standard alg).digest l ∧ o'.Space C n) (digestTo A D fuel o alg l) :=
  hashing_endsOr (fun _ hx => update_open hx hl) (fun _ => by rw [List.nil_append]; omega) hfuel hmem hspace

/-! ### Comparing digests -/

theorem ext_xor_eq_zero (a b : Byte) : ext a ^^^ ext b = 0#32 ↔ a = b := by
  rw [BitVec.xor_eq_zero_iff]
  refine ⟨fun h => ?_, fun h => h ▸ rfl⟩
  rw [← setWidth_ext a, h, setWidth_ext]

/-- **Digests are compared** in full: the answer is whether they are the same. -/
theorem constantTimeEq_eq (a b : List Byte) : constantTimeEq a b = done (decide (a = b)) := by
  rw [constantTimeEq]
  by_cases hlen : a.length = b.length
  · rw [if_neg (not_not.mpr hlen)]
    obtain ⟨d, hd, hdiff⟩ := Ends.exists (foldAll_range_ends
      (f := fun diff i => do
        let x ← byteAt a i
        let y ← byteAt b i
        pure (diff ||| (BitVec.ofNat 32 x ^^^ BitVec.ofNat 32 y)))
      (fun k d => d = 0#32 ↔ a.take k = b.take k) (a := 0#32) (by simp) a.length (by
        intro k d hk hd
        have hkb : k < b.length := hlen ▸ hk
        rw [byteAt_eq (List.getElem?_eq_getElem hk), byteAt_eq (List.getElem?_eq_getElem hkb)]
        simp only [done_bind, pure_eq, ends_done]
        rw [BitVec.or_eq_zero_iff, hd, ← ext_eq, ← ext_eq, ext_xor_eq_zero, List.take_succ_eq_append_getElem hk,
          List.take_succ_eq_append_getElem hkb, List.append_singleton_inj]))
    rw [hd, done_bind]
    have hwhole : a.take a.length = b.take a.length ↔ a = b := by rw [List.take_length, hlen, List.take_length]
    simp only [pure_eq, hdiff, hwhole]
  · rw [if_pos hlen, decide_eq_false fun h => hlen (congrArg List.length h)]
    rfl

/-! ### Keyed digests -/

theorem clear_space {heap : σ} {n : Nat} (h : o.Space C 0) (hn : n = o.bytes.length) :
    (Content.Space C { o.clear with heap } n) := by
  subst hn
  have hclear : (Content.clear o).bytes = [] := rfl
  rcases h with ⟨hC, hN⟩ | ⟨hroom, hcap⟩
  · refine .inl ⟨hC, ?_⟩
    dsimp only
    rw [hclear, List.length_nil, Nat.zero_add]
    exact hN
  · refine .inr ⟨?_, hcap⟩
    dsimp only
    rw [hclear, List.length_nil, Nat.zero_add]
    exact hroom

/-- A new buffer has the room that was asked for. -/
theorem makeBuf_endsOr {heap : σ} {n : Nat} (h16 : 16 ≤ n) (hn : n ≤ 128) (hmem : C ∨ Plentiful D) :
    EndsOr C (fun b => b.bytes = [] ∧ b.Space C n) (Content.make D heap (BitVec.ofNat 32 n)) := by
  have hnat : (BitVec.ofNat 32 n).toNat = n := toNat_ofNat_of_lt (by omega)
  have hint := toInt_eq_toNat (show (BitVec.ofNat 32 n).toNat < 2 ^ 31 by omega)
  refine (Content.make_endsOr (hmem.imp_right fun h => ⟨h, by omega⟩)).mono fun b ⟨hbytes, hcap⟩ => ⟨hbytes, .inr ?_⟩
  have hslt : (BitVec.ofNat 32 n).slt 16#32 = false := by
    rw [Bool.eq_false_iff]
    intro hlt
    have := (slt_iff (by omega) (by decide)).mp hlt
    have h16' : (16#32).toNat = 16 := rfl
    omega
  rw [hslt] at hcap
  rw [hbytes, hcap, List.length_nil]
  exact ⟨by rw [if_neg (by decide), hnat]; omega, by rw [if_neg (by decide)]; omega⟩

/-- The key's bytes, with `c` mixed in. -/
theorem pushKey_endsOr {kb : List Byte} {bs n : Nat} {c : BitVec 32} (hkb : kb.length ≤ bs) (hfuel : 2 ^ 31 ≤ fuel)
    (hspace : o.Space C (bs + n)) :
    EndsOr C (fun o' => o'.bytes = o.bytes ++ (kb ++ List.replicate (bs - kb.length) 0#8).map (· ^^^ c.setWidth 8) ∧
      o'.Space C n) (pushKey D fuel o kb bs c) := by
  have hlen : (kb ++ List.replicate (bs - kb.length) 0#8).length = bs := by
    rw [List.length_append, List.length_replicate]
    omega
  have hpush : pushKey D fuel o kb bs c = StdBuf.pushAll D fuel o
      ((kb ++ List.replicate (bs - kb.length) 0#8).map (· ^^^ c.setWidth 8)) := by
    rw [pushKey, List.map_eq_flatMap]
    nth_rewrite 1 [← hlen]
    refine StdBuf.foldAll_places (fun i b hb o => ?_) o
    have hkey : keyByte kb i = done (ext b) := by
      rw [keyByte]
      split
      · next hi =>
        rw [List.getElem?_append_left hi] at hb
        rw [byteAt_eq hb, ext_eq]
        rfl
      · next hi =>
        rw [List.getElem?_append_right (Nat.le_of_not_lt hi)] at hb
        rw [List.eq_of_mem_replicate (List.mem_of_getElem? hb)]
        rfl
    rw [hkey, done_bind, StdBuf.pushAll_one]
    rw [BitVec.setWidth_xor, setWidth_ext]
  rw [hpush]
  exact StdBuf.pushAll_space hfuel _ o (by rwa [List.length_map, hlen])

theorem blockSize_bounds (alg : Algorithm) : 16 ≤ blockSize alg ∧ blockSize alg ≤ 128 ∧ digestSize alg ≤ blockSize alg ∧
    digestSize alg ≤ 64 := by cases alg <;> decide

/-- The key, or the digest of a long one. -/
theorem key_endsOr {key : List Byte} {k : Content σ} (hkey : key.length < 2 ^ 31) (hfuel : 2 ^ 31 ≤ fuel)
    (hmem : C ∨ Plentiful D) (hbytes : k.bytes = []) (hspace : k.Space C (blockSize alg)) :
    EndsOr C (fun k' => k'.bytes.length ≤ blockSize alg ∧
        k'.bytes ++ List.replicate (blockSize alg - k'.bytes.length) 0#8 = (standard alg).keyBlock key)
      (if blockSize alg < key.length then digestTo D D fuel k alg key else k.pushBytes D fuel key) := by
  obtain ⟨-, -, hdigest, -⟩ := blockSize_bounds alg
  rw [Hash.keyBlock, ← blockSize_eq]
  split
  · refine (digestTo_endsOr (n := blockSize alg - digestSize alg) hkey hfuel hmem
      (by rwa [Nat.add_sub_cancel' hdigest])).mono fun k' ⟨hk', _⟩ => ?_
    rw [hk', hbytes, List.nil_append, length_digest]
    exact ⟨hdigest, rfl⟩
  · next hle =>
    refine (Content.pushBytes_space (n := blockSize alg - key.length) (by
      rwa [Nat.add_sub_cancel' (Nat.le_of_not_lt hle)]) hfuel).mono fun k' ⟨hk', _⟩ => ?_
    rw [hk', hbytes, List.nil_append]
    exact ⟨Nat.le_of_not_lt hle, rfl⟩

/-- **Keyed digests.**  `hmac_to` appends the digest that RFC 2104 makes of the standard's function, for every key and
message, and a tag compared with it in constant time is accepted just when it is that digest. -/
theorem hmac_hashed (alg : Algorithm) (key msg : List Byte) (hkey : key.length < 2 ^ 31) (hmsg : msg.length < 2 ^ 31)
    (hfuel : 2 ^ 31 ≤ fuel) (hmem : C ∨ Plentiful D) (hspace : o.Space C (digestSize alg)) :
    EndsOr C (fun o' => o'.bytes = o.bytes ++ (standard alg).hmac key msg ∧
      ∀ tag, constantTimeEq tag ((standard alg).hmac key msg) = done (decide (tag = (standard alg).hmac key msg)))
      (hmacTo A D fuel o alg key msg) := by
  obtain ⟨h16, h128, hdigest, h64⟩ := blockSize_bounds alg
  rw [hmacTo]
  -- the key, hashed where it is longer than a block, then zeros
  refine endsOr_bind (makeBuf_endsOr h16 h128 hmem) fun k ⟨hkbytes, hkspace⟩ => ?_
  refine endsOr_bind (key_endsOr hkey hfuel hmem hkbytes hkspace) fun k' ⟨hklen, hkblock⟩ => ?_
  have hblock : ((standard alg).keyBlock key).length = blockSize alg := by
    rw [← hkblock, List.length_append, List.length_replicate]
    omega
  dsimp only
  refine endsOr_bind (makeBuf_endsOr h16 h128 hmem) fun pad ⟨hpad, hpadspace⟩ => ?_
  refine endsOr_bind (pushKey_endsOr (n := 0) hklen hfuel hpadspace) fun pad₁ ⟨hpad₁, hpadspace₁⟩ => ?_
  rw [hkblock, hpad, List.nil_append] at hpad₁
  have hlen₁ : pad₁.bytes.length = blockSize alg := by rw [hpad₁, List.length_map, hblock]
  -- the inner hash, of the message behind the inner pad
  refine endsOr_bind (make_open alg hmem) ?_
  rintro ⟨inner, heap⟩ hinner
  refine endsOr_bind (update_open hinner (by omega)).endsOr fun inner₁ hinner₁ => ?_
  refine endsOr_bind (update_open hinner₁ hmsg).endsOr fun inner₂ hinner₂ => ?_
  refine endsOr_bind (makeBuf_endsOr (n := 64) (by decide) (by decide) hmem) fun mid ⟨hmid, hmidspace⟩ => ?_
  refine endsOr_bind (finishTo_endsOr (n := 64 - digestSize alg) hinner₂
    (fun _ => by rw [List.nil_append, List.length_append]; omega) hfuel (by rwa [Nat.add_sub_cancel' h64])) ?_
  rintro ⟨inner₃, mid₁⟩ ⟨hmid₁, -⟩
  rw [hmid, List.nil_append, List.nil_append, hpad₁] at hmid₁
  refine endsOr_bind (free_endsOr hmem) fun heap₁ _ => ?_
  -- the outer pad goes into the buffer of the inner one
  refine endsOr_bind (pushKey_endsOr (n := 0) hklen hfuel (clear_space hpadspace₁ hlen₁.symm)) fun pad₂ ⟨hpad₂, _⟩ => ?_
  have hclear : (Content.clear pad₁).bytes = [] := rfl
  rw [hkblock] at hpad₂
  dsimp only at hpad₂
  rw [hclear, List.nil_append] at hpad₂
  refine endsOr_bind (make_open alg hmem) ?_
  rintro ⟨outer, heap₂⟩ houter
  refine endsOr_bind (update_open houter (by rw [hpad₂, List.length_map]; omega)).endsOr fun outer₁ houter₁ => ?_
  refine endsOr_bind (update_open houter₁ (by rw [hmid₁, length_digest]; omega)).endsOr fun outer₂ houter₂ => ?_
  refine endsOr_bind (finishTo_endsOr (n := 0) (o := { o with heap := heap₂ }) houter₂ (fun _ => by
    rw [List.nil_append, List.length_append, hpad₂, hmid₁, length_digest, List.length_map]; omega) hfuel hspace) ?_
  rintro ⟨outer₃, o₁⟩ ⟨ho₁, -⟩
  refine endsOr_bind (free_endsOr hmem) fun _ _ => endsOr_bind (Content.free_endsOr hmem) fun _ _ => ?_
  refine endsOr_bind (Content.free_endsOr hmem) fun _ _ => endsOr_bind (Content.free_endsOr hmem) fun _ _ => ?_
  refine ⟨ho₁.trans ?_, fun tag => constantTimeEq_eq tag _⟩
  rw [hpad₂, hmid₁, Hash.hmac]
  rfl

set_option maxRecDepth 4000 in
theorem hmac_hashed_key : [107#8, 101#8, 121#8].length < 2 ^ 31 ∧
    EndsOr False (fun o' => o'.bytes = [] ++ (standard .md5).hmac [107#8, 101#8, 121#8] [97#8] ∧
      ∀ tag, constantTimeEq tag ((standard .md5).hmac [107#8, 101#8, 121#8] [97#8]) =
        done (decide (tag = (standard .md5).hmac [107#8, 101#8, 121#8] [97#8])))
      (hmacTo Allocator.ample Allocator.ample (2 ^ 31) ⟨[], 16#32, ()⟩ .md5 [107#8, 101#8, 121#8] [97#8]) :=
  ⟨by decide, hmac_hashed (o := ⟨[], 16#32, ()⟩) .md5 [107#8, 101#8, 121#8] [97#8] (by decide) (by decide)
    (Nat.le_refl (2 ^ 31)) (.inr ⟨fun _ _ => rfl, fun _ _ => rfl⟩) (.inr (by decide))⟩

end

end Aipl.StdHash
