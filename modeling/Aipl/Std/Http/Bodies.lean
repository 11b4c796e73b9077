import Aipl.Std.Http.Framing

/-! # The body is read as its list is

Two sums are made in 32-bit words: a declared length, or the size of a chunk, is added to a position.  Where
they do not wrap, and the chunks fit in a buffer, the body is what the list says (`readBody_agrees`); where
they do, what is read is not there (`readLength_wraps`, `readChunks_wraps`).

* `Wraps` — the sizes of chunks that are too large to be read.
-/

namespace Aipl.StdHttp

open Aipl.Lib Aipl.Lib.Outcome Aipl.Lib.Fallible Aipl.Std
open Aipl.StdBuf (Content)
open Aipl.StdStream (byteAt slice)
open Wire (Byte Field Head splitLine must of_must LARGE readSize readTrailers readTrailers_none readTrailers_nil
  readTrailers_line readData readChunks_none readChunks_line)

variable {b : Text} {fuel : Nat}

/-! ### Sizes -/

theorem hexValue_lt {c : BitVec 32} (h : (0#32).sle (hexValue c) = true) : (hexValue c).toNat < 16 := by
  rw [hexValue] at h ⊢
  by_cases hdigit : isDigit c = true
  · obtain ⟨hlo, hhi⟩ := isDigit_toNat hdigit
    rw [if_pos hdigit, toNat_sub_of_le (by exact hlo)]
    have h48 : (48#32).toNat = 48 := rfl
    omega
  rw [if_neg hdigit] at h ⊢
  by_cases hlower : ((97#32).sle c && c.sle 102#32) = true
  · rw [if_pos hlower]
    rw [Bool.and_eq_true, BitVec.sle_eq_decide, BitVec.sle_eq_decide, decide_eq_true_eq, decide_eq_true_eq]
      at hlower
    have h97 : (97#32).toInt = 97 := rfl
    have h102 : (102#32).toInt = 102 := rfl
    have h87 : (87#32).toNat = 87 := rfl
    have hnonneg := toInt_of_nonneg (x := c) (by omega)
    rw [toNat_sub_of_le (by omega)]
    omega
  rw [if_neg hlower] at h ⊢
  by_cases hupper : ((65#32).sle c && c.sle 70#32) = true
  · rw [if_pos hupper]
    rw [Bool.and_eq_true, BitVec.sle_eq_decide, BitVec.sle_eq_decide, decide_eq_true_eq, decide_eq_true_eq]
      at hupper
    have h65 : (65#32).toInt = 65 := rfl
    have h70 : (70#32).toInt = 70 := rfl
    have h55 : (55#32).toNat = 55 := rfl
    have hnonneg := toInt_of_nonneg (x := c) (by omega)
    rw [toNat_sub_of_le (by omega)]
    omega
  · rw [if_neg hupper] at h
    exact absurd h (by decide)

/-- A hex digit. -/
def isHex (c : Byte) : Bool := (0#32).sle (hexValue (c.setWidth 32))

/-- The value of hex digits after others. -/
def hexFrom (n : Nat) (digits : List Byte) : Nat :=
  digits.foldl (fun n d => 16 * n + (hexValue (d.setWidth 32)).toNat) n

theorem sizeRounds_eq {e : Nat} (he : e ≤ b.bytes.length) : ∀ (k i n : Nat), i ≤ e → e - i < k →
    iterate (sizeRound b (pos e)) k (BitVec.ofNat 64 (min n LARGE), pos i)
      = done (BitVec.ofNat 64 (min (hexFrom n ((b.part i e).takeWhile isHex)) LARGE),
          pos (i + ((b.part i e).takeWhile isHex).length))
  | 0, i, n, hle, hk => by omega
  | k + 1, i, n, hle, hk => by
      have hlt := b.short
      rw [iterate, sizeRound, pos_slt (by omega) (by omega)]
      by_cases hmore : i < e
      · obtain ⟨c, hc⟩ := b.exists_byte (p := i) (by omega)
        rw [if_pos (by simpa using hmore), byteAt_pos hc, done_bind, part_cons hmore hc, List.takeWhile_cons]
        cases hhex : isHex c with
        | true =>
          have hhex' : (0#32).sle (hexValue (c.setWidth 32)) = true := hhex
          have hadd : pos i + 1#32 = pos (i + 1) := pos_add i 1
          have hwidth : (hexValue (c.setWidth 32)).setWidth 64 = BitVec.ofNat 64 (hexValue (c.setWidth 32)).toNat := by
            refine BitVec.eq_of_toNat_eq ?_
            rw [BitVec.toNat_setWidth, BitVec.toNat_ofNat]
          have hsixteen : (16#64) = BitVec.ofNat 64 16 := rfl
          have hnext := sizeRounds_eq he k (i + 1) (16 * n + (hexValue (c.setWidth 32)).toNat) hmore (by omega)
          rw [if_pos hhex', if_pos rfl, pure_eq, done_bind, hadd, hwidth, hsixteen,
            held_min rfl (by decide) le_rfl (hexValue_lt hhex'), List.length_cons]
          rw [Nat.add_assoc, Nat.add_comm 1] at hnext
          exact hnext
        | false =>
          have hhex' : ¬ (0#32).sle (hexValue (c.setWidth 32)) = true := by
            rw [Bool.not_eq_true]
            exact hhex
          rw [if_neg hhex', if_neg (by simp)]
          rfl
      · obtain rfl : i = e := Nat.le_antisymm hle (by omega)
        rw [if_neg (by simp), Text.part_self]
        rfl

theorem readSize_eq (l : List Byte) :
    readSize l = (do
      must (l.takeWhile isHex ≠ [])
      must ((l.drop (l.takeWhile isHex).length).head?.all
        fun c => c.setWidth 32 = 59#32 || isOws (c.setWidth 32))
      pure (hexFrom 0 (l.takeWhile isHex))) := rfl

theorem sizeEnds_eq {i e : Nat} (hi : i ≤ e) (he : e ≤ b.bytes.length) :
    sizeEnds b (pos i) (pos e)
      = done ((b.part i e).head?.all fun c => c.setWidth 32 = 59#32 || isOws (c.setWidth 32)) := by
  have hlt := b.short
  rw [sizeEnds, pos_slt (by omega) (by omega)]
  by_cases hmore : i < e
  · obtain ⟨c, hc⟩ := b.exists_byte (p := i) (by omega)
    rw [if_pos (by simpa using hmore), byteAt_pos hc, part_cons hmore hc]
    rfl
  · obtain rfl : i = e := Nat.le_antisymm hi (by omega)
    rw [if_neg (by simp), Text.part_self]
    rfl

/-- **The line that a chunk begins with.** -/
theorem sizeLine_agrees {p e : Nat} (hp : p ≤ e) (he : e ≤ b.bytes.length) (hfuel : 2 ^ 32 ≤ fuel) :
    Agrees Flag (fun size n => size = BitVec.ofNat 64 (min n LARGE)) (sizeLine fuel b (pos p) (pos e))
      (readSize (b.part p e)) := by
  have hlt := b.short
  have hlen := Text.length_part b p _ he
  obtain ⟨digits, hdigits⟩ : ∃ digits, (b.part p e).takeWhile isHex = digits := ⟨_, rfl⟩
  have hdlen : digits.length ≤ (b.part p e).length := hdigits ▸ takeWhile_length_le _ _
  have hrounds := sizeRounds_eq (b := b) he fuel p 0 hp (by omega)
  have hsize : chunkSize fuel b (pos p) (pos e)
      = done (BitVec.ofNat 64 (min (hexFrom 0 digits) LARGE), pos (p + digits.length)) := by
    rw [← hdigits]
    exact hrounds
  rw [sizeLine, hsize, lift_done_bind, readSize_eq, hdigits, Text.drop_part]
  refine agrees_failIf ?_ rfl fun _ => ?_
  · rw [← decide_not]
    refine decide_eq_decide.mpr ((pos_inj (by omega) (by omega)).trans ?_)
    rw [ne_eq, not_not, ← List.length_eq_zero_iff]
    omega
  rw [sizeEnds_eq (by omega) he, lift_done_bind]
  exact agrees_failIf rfl rfl fun _ => agrees_pure rfl

/-! ### Trailers -/

theorem endOf_line_nonneg {p hi t : Nat} {l : List Byte} (hle : hi ≤ b.bytes.length) (hp : p ≤ hi)
    (h : splitLine (b.part p hi) = some (l, t)) : (endOf p (some (l, t))).slt 0#32 = false := by
  have hlt := b.short
  obtain ⟨-, hpt, hlt'⟩ := nextLine_eq hle h hp
  exact not_slt_zero (by rw [endOf, toNat_pos (by omega)]; omega)

theorem lineEnd_text {p : Nat} (hp : p ≤ b.bytes.length) (hfuel : 2 ^ 32 ≤ fuel) :
    lineEnd fuel b (pos p) b.len = done (endOf p (splitLine (b.part p b.bytes.length))) := by
  refine lineEnd_eq ?_ le_rfl hp hfuel
  rw [ite_self]
  rfl

theorem trailers_eq (hfuel : 2 ^ 32 ≤ fuel) : ∀ (k p : Nat), p ≤ b.bytes.length → b.bytes.length - p < k →
    ∃ q tend, iterate (trailerRound fuel b) k (pos p, endOf p (splitLine (b.part p b.bytes.length)))
        = done (q, tend) ∧
      ((readTrailers (b.part p b.bytes.length) = .error true ∧ tend = -1#32) ∨
        ∃ t, readTrailers (b.part p b.bytes.length) = .ok t ∧ tend.slt 0#32 = false
          ∧ nextLine b tend = done (pos (p + t)) ∧ p + t ≤ b.bytes.length)
  | 0, p, hle, hk => by omega
  | k + 1, p, hle, hk => by
      have hlt := b.short
      cases hsplit : splitLine (b.part p b.bytes.length) with
      | none =>
        have hneg : (pos p).slt (endOf p none) = false := by
          have h1 : (-1#32).toInt = -1 := rfl
          rw [endOf, BitVec.slt_eq_decide, decide_eq_false_iff_not, h1, toInt_eq_toNat
            (by rw [toNat_pos (by omega)]; omega)]
          omega
        rw [iterate, trailerRound, hneg, readTrailers_none hsplit]
        exact ⟨_, _, rfl, .inl ⟨rfl, rfl⟩⟩
      | some lt =>
        obtain ⟨l, t⟩ := lt
        obtain ⟨hnext, hpt, hlt'⟩ := nextLine_eq le_rfl hsplit hle
        have hneg := endOf_line_nonneg le_rfl hle hsplit
        rw [iterate, endOf, trailerRound, pos_slt (by omega) (by omega)]
        rw [endOf] at hneg
        by_cases hnil : l = []
        · subst hnil
          rw [List.length_nil, Nat.add_zero] at hnext hneg
          rw [List.length_nil, Nat.add_zero, if_neg (by simp), readTrailers_nil hsplit]
          exact ⟨_, _, rfl, .inr ⟨t, rfl, hneg, hnext, hpt⟩⟩
        · have hlen : 0 < l.length := List.length_pos_iff.mpr hnil
          obtain ⟨q, tend, hrun, hres⟩ := trailers_eq hfuel k (p + t) hpt (by omega)
          rw [if_pos (by simpa using hlen), hnext, done_bind, lineEnd_text hpt hfuel, done_bind, pure_eq,
            done_bind, readTrailers_line hsplit hnil, Text.drop_part]
          refine ⟨q, tend, hrun, ?_⟩
          rcases hres with ⟨herr, htend⟩ | ⟨t', hok, htend, hnext', hle'⟩
          · rw [herr]
            exact .inl ⟨rfl, htend⟩
          · rw [hok]
            exact .inr ⟨t + t', rfl, htend, by rw [hnext', Nat.add_assoc], by omega⟩

/-! ### Chunks -/

/-- The buffer of chunks: its capacity is a power of two. -/
def BufOk (o : Content Unit) : Prop := ∃ j ≤ 30, o.cap.toNat = 2 ^ j

theorem array_granted {T : Type} {t : ElemType T} {n : BitVec 32} (hsize : t.size = 1#32)
    (hn : n.toNat + 8 < 2 ^ 31) : array granted t () n = done (List.replicate n.toNat t.zero, ()) := by
  have hn' : n.toInt = n.toNat := toInt_eq_toNat (by omega)
  have h8 : (8#32).toInt = 8 := rfl
  have h1 : (1#32).toInt = 1 := rfl
  have hmul : ¬ n.smulOverflow 1#32 = true := by
    simp only [BitVec.smulOverflow, h1, hn', Bool.or_eq_true, decide_eq_true_eq]
    omega
  have hprod : n * 1#32 = n := by simp
  have hadd : ¬ (8#32).saddOverflow n = true := by
    simp only [BitVec.saddOverflow, h8, hn', Bool.or_eq_true, decide_eq_true_eq]
    omega
  have h8' : (8#32).toNat = 8 := rfl
  have hlen : (8#32 + n).toNat = 8 + n.toNat := by rw [toNat_add_of_lt (by omega), h8']
  have hpos : (0#32).slt (8#32 + n) = true := (zero_slt_iff (by omega)).mpr (by omega)
  have hm : checkedMul n 1#32 = done n := by rw [checkedMul, if_neg hmul, hprod]
  have ha : checkedAdd 8#32 n = done (8#32 + n) := if_neg hadd
  have hr : raw granted () (8#32 + n) = done () := by
    rw [raw, hpos]
    rfl
  have hreq : require true = done () := rfl
  rw [array, zero_sle (by omega), hreq, done_bind, hsize, hm, done_bind, ha, done_bind, hr]
  rfl

theorem make_granted_of {n : BitVec 32} (hn : n.slt 16#32 = false) (hlt : n.toNat + 8 < 2 ^ 31) :
    Content.make granted () n = done ⟨[], n, ()⟩ := by
  rw [Content.make, hn, if_neg Bool.false_ne_true]
  dsimp only
  rw [array_granted rfl hlt, done_bind]
  rfl

theorem make_granted : ∃ o, Content.make granted () 256#32 = done o ∧ o.bytes = [] ∧ BufOk o :=
  ⟨_, make_granted_of rfl (by decide), rfl, 8, by decide, rfl⟩

/-- A buffer takes what leaves it at 2^30 bytes or fewer. -/
theorem pushBytes_granted {o : Content Unit} {s : List Byte} (ho : BufOk o)
    (hle : o.bytes.length + s.length ≤ 2 ^ 30) (hfuel : 2 ^ 32 ≤ fuel) :
    ∃ o', o.pushBytes granted fuel s = done o' ∧ o'.bytes = o.bytes ++ s ∧ BufOk o' := by
  obtain ⟨j, hj, hcap⟩ := ho
  have hlen := Content.toNat_len (b := o) (by omega)
  have hs := toNat_arrLen (show s.length < 2 ^ 32 by omega)
  have hneed : (o.len + arrLen s).toNat = o.bytes.length + s.length := by
    rw [toNat_add_of_lt (by omega), hlen, hs]
  have hcaple : o.cap.toNat ≤ 2 ^ 30 := hcap ▸ Nat.pow_le_pow_right (by decide) hj
  rw [Content.pushBytes, Content.ensure]
  by_cases hfit : o.bytes.length + s.length ≤ o.cap.toNat
  · rw [if_pos ((sle_iff (by omega) (by omega)).mpr (by omega))]
    exact ⟨_, rfl, rfl, j, hj, hcap⟩
  · rw [if_neg fun hc => hfit (by rw [sle_iff (by omega) (by omega)] at hc; omega)]
    have hj29 : j ≤ 29 := by
      by_contra hbig
      obtain rfl : j = 30 := by omega
      omega
    have h2cap : (2#32 * o.cap).toNat = 2 ^ (j + 1) := by
      have h2 : (2#32).toNat = 2 := rfl
      have hpow : 2 ^ (j + 1) ≤ 2 ^ 30 := Nat.pow_le_pow_right (by decide) (by omega)
      rw [BitVec.toNat_mul, h2, hcap, ← pow_succ', Nat.mod_eq_of_lt (by omega)]
    have htop : 2 ^ (j + 1) * 2 ^ (29 - j) = 2 ^ 30 := by
      rw [← pow_add]
      congr 1
      omega
    have hdouble : Sat (fun c => (o.len + arrLen s).toNat ≤ c.toNat
          ∧ ∃ i ≤ 29 - j, c.toNat = (2#32 * o.cap).toNat * 2 ^ i)
        (iterate (doubleRound (o.len + arrLen s)) fuel (2#32 * o.cap)) :=
      double_sat_of_le (by rw [h2cap, htop]; omega) (by rw [h2cap, htop]; decide) (by omega)
    cases hrun : iterate (doubleRound (o.len + arrLen s)) fuel (2#32 * o.cap) with
    | done cap =>
      rw [hrun] at hdouble
      obtain ⟨-, i, hi, hcap'⟩ := hdouble
      rw [h2cap, ← pow_add] at hcap'
      have hpow : 2 ^ (j + 1 + i) ≤ 2 ^ 30 := Nat.pow_le_pow_right (by decide) (by omega)
      rw [done_bind, array_granted rfl (by omega)]
      exact ⟨_, rfl, rfl, j + 1 + i, by omega, hcap'⟩
    | stop => exact absurd hrun (double_ne_stop fuel _)
    | outOfFuel =>
      rw [hrun] at hdouble
      exact hdouble.elim

/-- The message that chunks end. -/
structure ChunksOk (b : Text) (m : Message) (o : Content Unit) (p : Nat) (m' : Message) (r : List Byte × Nat) :
    Prop where
  message : ∃ o', m' = { m with body := .chunks o', length := pos (p + r.2) } ∧ o'.bytes = o.bytes ++ r.1
  le : p + r.2 ≤ b.bytes.length

theorem lastChunk_agrees {m : Message} {o : Content Unit} {p : Nat} (hp : p ≤ b.bytes.length)
    (hfuel : 2 ^ 32 ≤ fuel) :
    Agrees Flag (fun m' t => ChunksOk b m o p m'.1 ([], t)) (lastChunk fuel b m o (pos p))
      (readTrailers (b.part p b.bytes.length)) := by
  have hlt := b.short
  obtain ⟨q, tend, hrun, hres⟩ := trailers_eq (b := b) hfuel fuel p hp (by omega)
  have htrailers : trailers fuel b (pos p) (endOf p (splitLine (b.part p b.bytes.length))) = done (q, tend) := hrun
  rw [lastChunk, lineEnd_text hp hfuel, lift_done_bind, htrailers, lift_done_bind]
  rcases hres with ⟨herr, rfl⟩ | ⟨t, hok, htend, hnext, hle⟩
  · rw [herr]
    exact agrees_throw rfl
  · rw [hok]
    dsimp only
    rw [htend, failIf_false_bind, hnext, lift_done_bind]
    exact agrees_pure ⟨⟨o, rfl, (List.append_nil _).symm⟩, hle⟩

theorem toInt_setWidth {x : BitVec 32} (h : x.toNat < 2 ^ 31) : (x.setWidth 64).toInt = x.toNat := by
  have hto : (x.setWidth 64).toNat = x.toNat := by
    rw [BitVec.toNat_setWidth]
    exact Nat.mod_eq_of_lt (by omega)
  rw [BitVec.toInt_eq_toNat_cond, hto, if_pos (by omega)]

/-- A size held at `LARGE`, compared with a limit. -/
theorem over_limit {limit : BitVec 32} (total n : Nat) (hlimit : limit.toNat < 2 ^ 31) (htotal : total < 2 ^ 31) :
    (limit.setWidth 64).slt (BitVec.ofNat 64 total + BitVec.ofNat 64 (min n LARGE))
      = !decide (total + n ≤ limit.toNat) := by
  have hlarge : LARGE = 4294967296 := rfl
  rw [← BitVec.ofNat_add, BitVec.slt_eq_decide, toInt_setWidth hlimit, toInt_ofNat_64 (by omega), ← decide_not]
  exact decide_eq_decide.mpr (by omega)

/-- **A chunk's bytes**, where the sum does not wrap and the buffer takes them. -/
theorem chunkData_agrees {limit : BitVec 32} {o : Content Unit} (p size : Nat) (hlimit : limit.toNat < 2 ^ 31)
    (ho : BufOk o) (holen : o.bytes.length ≤ 2 ^ 30) (hp : p ≤ b.bytes.length) (hfuel : 2 ^ 32 ≤ fuel)
    (hfits : o.bytes.length + size ≤ limit.toNat →
      p + size < 2 ^ 31 ∧ (p + size ≤ b.bytes.length → o.bytes.length + size ≤ 2 ^ 30)) :
    Agrees Flag
      (fun (r : Content Unit × BitVec 32) d => BufOk r.1 ∧ r.1.bytes.length ≤ 2 ^ 30
        ∧ r.1.bytes = o.bytes ++ d.1 ∧ d.1.length = size ∧ r.2 = pos (p + d.2) ∧ p + d.2 ≤ b.bytes.length
        ∧ size < d.2)
      (chunkData fuel b limit o (pos p) (BitVec.ofNat 64 (min size LARGE)))
      (readData limit.toNat o.bytes.length size (b.part p b.bytes.length)) := by
  have hlt := b.short
  have hlarge : LARGE = 4294967296 := rfl
  have hlen : o.len.setWidth 64 = BitVec.ofNat 64 o.bytes.length := by
    refine BitVec.eq_of_toNat_eq ?_
    rw [BitVec.toNat_setWidth, Content.toNat_len (by omega), BitVec.toNat_ofNat]
  rw [chunkData, readData, hlen, over_limit _ _ hlimit (by omega)]
  refine agrees_failIf rfl rfl fun hle => ?_
  have hle := of_decide_eq_true hle
  obtain ⟨hsum, hroom⟩ := hfits hle
  have hmin : min size LARGE = size := by omega
  have hword : (BitVec.ofNat 64 (min size LARGE)).setWidth 32 = pos size := by
    rw [hmin]
    refine BitVec.eq_of_toNat_eq ?_
    rw [BitVec.toNat_setWidth, BitVec.toNat_ofNat, toNat_pos (by omega)]
    omega
  dsimp only
  rw [hword, pos_add, Text.len_eq, pos_slt hlt hsum, Text.length_part _ _ _ le_rfl]
  by_cases hshort : b.bytes.length < p + size
  · rw [decide_eq_true hshort, failIf_true_bind, if_pos (by omega)]
    exact agrees_throw rfl
  rw [decide_eq_false hshort, failIf_false_bind, if_neg (by omega)]
  obtain ⟨hv, hholds⟩ := view_eq b p (p + size) (by omega) (by omega)
  have hpart := Text.length_part b p (p + size) (by omega)
  obtain ⟨o', hpush, hbytes, ho'⟩ := pushBytes_granted (s := b.part p (p + size)) ho (by
    have := hroom (by omega)
    omega) hfuel
  rw [hv, lift_done_bind, hholds.content, hpush, lift_done_bind, ← Text.len_eq, lineEnd_text (by omega) hfuel,
    lift_done_bind, Text.drop_part, Text.take_part _ _ _ _ (by omega)]
  cases hsplit : splitLine (b.part (p + size) b.bytes.length) with
  | none =>
    have hne : endOf (p + size) none ≠ pos (p + size) := by
      intro heq
      have h := congrArg BitVec.toNat heq
      rw [endOf, toNat_pos (by omega)] at h
      have h1 : (-1#32).toNat = 4294967295 := rfl
      omega
    rw [decide_eq_true hne, failIf_true_bind]
    exact agrees_throw rfl
  | some lt =>
    obtain ⟨l, e⟩ := lt
    obtain ⟨hnext, hpe, hlt'⟩ := nextLine_eq le_rfl hsplit (by omega)
    cases l with
    | nil =>
      rw [endOf, List.length_nil, Nat.add_zero] at *
      rw [decide_eq_false (by simp), failIf_false_bind, hnext, lift_done_bind]
      refine agrees_pure ⟨ho', ?_, hbytes, ?_, ?_, ?_, ?_⟩
      · have := hroom (by omega)
        rw [hbytes, List.length_append]
        omega
      · dsimp only
        omega
      · rw [Nat.add_assoc]
      · dsimp only
        omega
      · dsimp only
        omega
    | cons c cs =>
      have hne : endOf (p + size) (some (c :: cs, e)) ≠ pos (p + size) := by
        rw [endOf, ne_eq, pos_inj (by rw [List.length_cons] at *; omega) (by omega), List.length_cons]
        omega
      rw [decide_eq_true hne, failIf_true_bind]
      exact agrees_throw rfl

/-- The chunks at the front of a list, of which the first is at `p`, have one whose size is too large to be
read: the sum with its position wraps, or the buffer does not take it. -/
inductive Wraps (limit : Nat) : Nat → Nat → List Byte → Prop where
  | here {p total size t : Nat} {bs line : List Byte} (hline : splitLine bs = some (line, t))
      (hsize : readSize line = .ok size) (hpos : 0 < size) (hlimit : total + size ≤ limit)
      (hwraps : 2 ^ 31 ≤ p + t + size ∨ (size ≤ (bs.drop t).length ∧ 2 ^ 30 < total + size)) :
      Wraps limit p total bs
  | later {p total size t e : Nat} {bs line d : List Byte} (hline : splitLine bs = some (line, t))
      (hsize : readSize line = .ok size) (hpos : 0 < size)
      (hdata : readData limit total size (bs.drop t) = .ok (d, e))
      (h : Wraps limit (p + t + e) (total + size) (bs.drop (t + e))) : Wraps limit p total bs

/-- **Chunks**, none of which is too large to be read. -/
theorem chunks_agrees {m : Message} {limit : BitVec 32} (hlimit : limit.toNat < 2 ^ 31) (hfuel : 2 ^ 32 ≤ fuel) :
    ∀ (k p : Nat) (o : Content Unit), p ≤ b.bytes.length → b.bytes.length - p < k → BufOk o →
      o.bytes.length ≤ 2 ^ 30 → ¬ Wraps limit.toNat p o.bytes.length (b.part p b.bytes.length) →
      Agrees Flag (fun m' r => ChunksOk b m o p m'.1 r) (loop (chunkRound fuel b m limit) k (o, pos p))
        (Wire.readChunks limit.toNat o.bytes.length (b.part p b.bytes.length))
  | 0, p, o, hp, hk, _, _, _ => by omega
  | k + 1, p, o, hp, hk, ho, holen, hwraps => by
      have hlt := b.short
      rw [loop_succ, chunkRound, lineEnd_text hp hfuel, lift_done_bind]
      cases hsplit : splitLine (b.part p b.bytes.length) with
      | none =>
        rw [readChunks_none hsplit]
        exact agrees_throw rfl
      | some lt =>
        obtain ⟨l, t⟩ := lt
        obtain ⟨hnext, hpt, hlt'⟩ := nextLine_eq le_rfl hsplit hp
        have hneg := endOf_line_nonneg le_rfl hp hsplit
        have hline := sizeLine_agrees (b := b) (p := p) (e := p + l.length) (by omega) (by omega) hfuel
        rw [part_of_splitLine le_rfl hsplit] at hline
        rw [hneg, failIf_false_bind, readChunks_line hsplit, bind_assoc, endOf]
        refine agrees_bind hline fun size n hsize hn => ?_
        have hzero : size = 0#64 ↔ n = 0 := by
          have hlarge : LARGE = 4294967296 := rfl
          rw [hn]
          refine ⟨fun h => ?_, fun h => by rw [h]; rfl⟩
          have := congrArg BitVec.toNat h
          rw [BitVec.toNat_ofNat] at this
          have h0 : (0#64).toNat = 0 := rfl
          omega
        rw [hnext, bind_assoc, lift_done_bind]
        by_cases hlast : n = 0
        · rw [if_pos (hzero.mpr hlast), if_pos hlast, bind_assoc, Text.drop_part]
          refine agrees_bind (lastChunk_agrees hpt hfuel) fun r t' _ hr => ?_
          obtain ⟨o', hmessage, hbytes⟩ := hr.message
          refine agrees_pure ⟨⟨o', ?_, hbytes⟩, ?_⟩
          · rw [hmessage, Nat.add_assoc]
          · have := hr.le
            dsimp only at *
            omega
        · rw [if_neg fun h => hlast (hzero.mp h), if_neg hlast, bind_assoc, hn, Text.drop_part]
          have hfits : o.bytes.length + n ≤ limit.toNat →
              p + t + n < 2 ^ 31 ∧ (p + t + n ≤ b.bytes.length → o.bytes.length + n ≤ 2 ^ 30) := by
            intro hle
            by_contra hno
            refine hwraps (.here hsplit hsize (by omega) hle ?_)
            rw [Text.drop_part, Text.length_part _ _ _ le_rfl]
            omega
          have hdata := chunkData_agrees (b := b) (p + t) n hlimit ho holen hpt hfuel hfits
          refine agrees_bind hdata fun r d hd hr => ?_
          obtain ⟨ho', holen', hbytes, hdlen, hnext', hle', hlt''⟩ := hr
          obtain ⟨o', q⟩ := r
          dsimp only at *
          have hrest : (b.part p b.bytes.length).drop (t + d.2) = b.part (p + t + d.2) b.bytes.length := by
            rw [Text.drop_part, Nat.add_assoc]
          have htotal : o.bytes.length + n = o'.bytes.length := by
            rw [hbytes, List.length_append, hdlen]
          have ih := chunks_agrees (m := m) hlimit hfuel k (p + t + d.2) o' hle' (by omega) ho' holen' fun hw => by
            refine hwraps (.later (d := d.1) (e := d.2) hsplit hsize (by omega) ?_ ?_)
            · rw [Text.drop_part, hd]
            · rw [hrest, htotal]
              exact hw
          rw [hnext', hrest, htotal, pure_bind]
          refine ih.map fun m' r' _ hr => ?_
          obtain ⟨o'', hmessage, hbytes'⟩ := hr.message
          refine ⟨⟨o'', ?_, ?_⟩, ?_⟩
          · rw [hmessage]
            congr 2
            omega
          · rw [hbytes', hbytes, List.append_assoc]
          · have := hr.le
            dsimp only
            omega

/-- A sum that wraps. -/
theorem toInt_pos_of_wraps {n : Nat} (h : 2 ^ 31 ≤ n) (h' : n < 2 ^ 32) : (pos n).toInt = (n : Int) - 2 ^ 32 := by
  rw [BitVec.toInt_eq_toNat_cond, toNat_pos h', if_neg (by omega)]
  rfl

theorem lineEnd_wraps {n : Nat} (h : 2 ^ 31 ≤ n) (h' : n < 2 ^ 32) {i : BitVec 32} :
    lineEnd fuel b (pos n) b.len ≠ done i := by
  have hlt := b.short
  have hint := toInt_pos_of_wraps h h'
  have hslt : (b.len - 1#32).slt (pos n) = false := by
    have hlast : (b.len - 1#32).toInt = (b.bytes.length : Int) - 1 := toInt_ofNat_sub_one hlt
    rw [BitVec.slt_eq_decide, hlast, hint]
    exact decide_eq_false (by omega)
  have hbyte : byteAt b.bytes (pos n) = stop := by
    have hneg : (0#32).sle (pos n) = false := by
      rw [BitVec.sle_eq_decide, hint]
      exact decide_eq_false (by have : (0#32).toInt = 0 := rfl; omega)
    rw [byteAt, hneg]
    rfl
  rw [lineEnd, ite_self, forReturn]
  cases fuel with
  | zero =>
    intro hdone
    cases hdone
  | succ k =>
    rw [iterate, hslt, if_neg (by simp), hbyte]
    intro hdone
    cases hdone

/-- A slice whose end wraps passes its check. -/
theorem view_wraps {p n : Nat} (hp : p ≤ b.bytes.length) (hn : n < 2 ^ 31) (h : 2 ^ 31 ≤ p + n) :
    view b (pos p) (pos (p + n)) = done (pos p, pos n) := by
  have hlt := b.short
  have hsub : pos (p + n) - pos p = pos n := by
    rw [pos_sub (by omega) (by omega), Nat.add_sub_cancel_left]
  have hsle : (pos p + pos n).sle (arrLen b.bytes) = true := by
    rw [pos_add, BitVec.sle_eq_decide, toInt_pos_of_wraps h (by omega),
      toInt_eq_toNat (by rw [toNat_arrLen (by omega)]; exact hlt)]
    exact decide_eq_true (by omega)
  rw [view, hsub, slice, zero_sle (by rw [toNat_pos (by omega)]; omega),
    zero_sle (by rw [toNat_pos (by omega)]; omega), hsle]
  rfl

theorem length_content {v : View} : (b.content v).length = v.2.toNat := by
  rw [Text.content, List.length_map, List.length_range]

/-- A chunk whose sum wraps, or that the buffer does not take, is not read. -/
theorem chunkData_wraps {limit : BitVec 32} {o : Content Unit} (p size : Nat) (hlimit : limit.toNat < 2 ^ 31)
    (ho : BufOk o) (holen : o.bytes.length ≤ 2 ^ 30) (hp : p ≤ b.bytes.length)
    (hle : o.bytes.length + size ≤ limit.toNat)
    (hwraps : 2 ^ 31 ≤ p + size ∨ (p + size ≤ b.bytes.length ∧ 2 ^ 30 < o.bytes.length + size))
    {r : Except Error (Content Unit × BitVec 32)} :
    (chunkData fuel b limit o (pos p) (BitVec.ofNat 64 (min size LARGE))).run ≠ done r := by
  have hlt := b.short
  have hlarge : LARGE = 4294967296 := rfl
  have hlen : o.len.setWidth 64 = BitVec.ofNat 64 o.bytes.length := by
    refine BitVec.eq_of_toNat_eq ?_
    rw [BitVec.toNat_setWidth, Content.toNat_len (by omega), BitVec.toNat_ofNat]
  have hword : (BitVec.ofNat 64 (min size LARGE)).setWidth 32 = pos size := by
    rw [Nat.min_eq_left (by omega)]
    refine BitVec.eq_of_toNat_eq ?_
    rw [BitVec.toNat_setWidth, BitVec.toNat_ofNat, toNat_pos (by omega)]
    omega
  rw [chunkData, hlen, over_limit _ _ hlimit (by omega), decide_eq_true hle, Bool.not_true, failIf_false_bind]
  dsimp only
  rw [hword, pos_add]
  by_cases hsum : 2 ^ 31 ≤ p + size
  · have hslt : b.len.slt (pos (p + size)) = false := by
      rw [BitVec.slt_eq_decide, toInt_pos_of_wraps hsum (by omega), Text.len_eq,
        toInt_eq_toNat (by rw [toNat_pos (by omega)]; exact hlt)]
      exact decide_eq_false (by omega)
    rw [hslt, failIf_false_bind, view_wraps hp (by omega) hsum, lift_done_bind]
    cases hpush : o.pushBytes granted fuel (b.content (pos p, pos size)) with
    | stop =>
      rw [lift_stop_bind]
      intro hdone
      cases hdone
    | outOfFuel =>
      rw [lift_outOfFuel_bind]
      intro hdone
      cases hdone
    | done o' =>
      rw [lift_done_bind]
      cases hend : lineEnd fuel b (pos (p + size)) b.len with
      | stop =>
        rw [lift_stop_bind]
        intro hdone
        cases hdone
      | outOfFuel =>
        rw [lift_outOfFuel_bind]
        intro hdone
        cases hdone
      | done i => exact absurd hend (lineEnd_wraps hsum (by omega))
  · obtain ⟨hin, hbig⟩ := hwraps.resolve_left hsum
    obtain ⟨j, -, hcap⟩ := ho
    obtain ⟨hv, -⟩ := view_eq b p (p + size) (by omega) hin
    have hcontent : (b.content (pos p, pos (p + size - p))).length = size := by
      rw [length_content]
      dsimp only
      rw [toNat_pos (by omega)]
      omega
    rw [Text.len_eq, pos_slt hlt (by omega), decide_eq_false (by omega), failIf_false_bind, hv, lift_done_bind,
      Content.pushBytes_diverges hcap (by rw [hcontent]; exact hbig) (by rw [hcontent]; omega), lift_outOfFuel_bind]
    intro hdone
    cases hdone

/-- … and neither are the chunks that it is one of. -/
theorem chunks_wrap {m : Message} {limit : BitVec 32} (hlimit : limit.toNat < 2 ^ 31) (hfuel : 2 ^ 32 ≤ fuel)
    {r : Except Error (Message × BitVec 32)} : ∀ (k p : Nat) (o : Content Unit), p ≤ b.bytes.length → BufOk o →
      o.bytes.length ≤ 2 ^ 30 → Wraps limit.toNat p o.bytes.length (b.part p b.bytes.length) →
      (loop (chunkRound fuel b m limit) k (o, pos p)).run ≠ done r
  | 0, p, o, _, _, _, _ => by
      intro hdone
      cases hdone
  | k + 1, p, o, hp, ho, holen, hwraps => by
      have hlt := b.short
      have hround : ∀ {t size : Nat} {l : List Byte}, splitLine (b.part p b.bytes.length) = some (l, t) →
          readSize l = .ok size → 0 < size → p + t ≤ b.bytes.length ∧
            loop (chunkRound fuel b m limit) (k + 1) (o, pos p)
              = chunkData fuel b limit o (pos (p + t)) (BitVec.ofNat 64 (min size LARGE))
                >>= fun next => loop (chunkRound fuel b m limit) k next := by
        intro t size l hsplit hsize hpos
        obtain ⟨hnext, hpt, hlt'⟩ := nextLine_eq le_rfl hsplit hp
        have hline := sizeLine_agrees (b := b) (p := p) (e := p + l.length) (by omega) (by omega) hfuel
        rw [part_of_splitLine le_rfl hsplit, hsize] at hline
        obtain ⟨_, hrun, rfl⟩ := hline.ok
        have hrun' : sizeLine fuel b (pos p) (pos (p + l.length)) = pure (BitVec.ofNat 64 (min size LARGE)) :=
          ExceptT.ext hrun
        have hne : ¬ BitVec.ofNat 64 (min size LARGE) = 0#64 := by
          have hlarge : LARGE = 4294967296 := rfl
          intro h
          have := congrArg BitVec.toNat h
          rw [BitVec.toNat_ofNat] at this
          have h0 : (0#64).toNat = 0 := rfl
          omega
        have hneg := endOf_line_nonneg le_rfl hp hsplit
        refine ⟨hpt, ?_⟩
        rw [loop_succ, chunkRound, lineEnd_text hp hfuel, lift_done_bind, hsplit, hneg, failIf_false_bind, endOf,
          hrun', pure_bind, hnext, lift_done_bind, if_neg hne, bind_assoc]
        rfl
      have hfails : ∀ {t size : Nat} {l : List Byte}, splitLine (b.part p b.bytes.length) = some (l, t) →
          readSize l = .ok size → 0 < size → o.bytes.length + size ≤ limit.toNat →
          2 ^ 31 ≤ p + t + size ∨ (p + t + size ≤ b.bytes.length ∧ 2 ^ 30 < o.bytes.length + size) →
          (loop (chunkRound fuel b m limit) (k + 1) (o, pos p)).run ≠ done r := by
        intro t size l hsplit hsize hpos hle hwraps
        obtain ⟨hpt, hloop⟩ := hround hsplit hsize hpos
        have hdata : ∀ d, (chunkData fuel b limit o (pos (p + t)) (BitVec.ofNat 64 (min size LARGE))).run ≠ done d :=
          fun _ => chunkData_wraps (p + t) size hlimit ho holen hpt hle hwraps
        rw [hloop, ExceptT.run_bind]
        cases hrun : (chunkData fuel b limit o (pos (p + t)) (BitVec.ofNat 64 (min size LARGE))).run with
        | done d => exact absurd hrun (hdata d)
        | stop =>
          intro hdone
          cases hdone
        | outOfFuel =>
          intro hdone
          cases hdone
      cases hwraps with
      | here hsplit hsize hpos hle hwraps =>
        obtain ⟨hpt, -⟩ := hround hsplit hsize hpos
        rw [Text.drop_part, Text.length_part _ _ _ le_rfl] at hwraps
        exact hfails hsplit hsize hpos hle (by omega)
      | @later _ _ size t e _ line data hsplit hsize hpos hdata h =>
        obtain ⟨hpt, hloop⟩ := hround hsplit hsize hpos
        rw [Text.drop_part] at hdata
        obtain ⟨hle, hdata'⟩ := of_must hdata
        have hle := of_decide_eq_true hle
        have hin : p + t + size ≤ b.bytes.length := by
          by_contra hout
          rw [if_pos (by rw [Text.length_part _ _ _ le_rfl]; omega)] at hdata'
          cases hdata'
        by_cases hbig : 2 ^ 30 < o.bytes.length + size
        · exact hfails hsplit hsize hpos hle (.inr ⟨hin, hbig⟩)
        have hagrees := chunkData_agrees (b := b) (p + t) size hlimit ho holen hpt hfuel
          fun _ => ⟨by omega, fun _ => by omega⟩
        rw [hdata] at hagrees
        obtain ⟨⟨o', q⟩, hrun, ho', holen', hbytes, hdlen, rfl, hle', -⟩ := hagrees.ok
        dsimp only at *
        have hrest : (b.part p b.bytes.length).drop (t + e) = b.part (p + t + e) b.bytes.length := by
          rw [Text.drop_part, Nat.add_assoc]
        have htotal : o.bytes.length + size = o'.bytes.length := by
          rw [hbytes, List.length_append, hdlen]
        rw [hrest, htotal] at h
        rw [hloop, ExceptT.run_bind, hrun]
        exact chunks_wrap hlimit hfuel k (p + t + e) o' hle' ho' holen' h

/-! ### The body -/

/-- A body's bytes, where they are. -/
def BodyHolds (b : Text) : Body → List Byte → Prop
  | .view v, l => Holds b v l
  | .chunks o, l => o.bytes = l

/-- The message whose body is read. -/
structure BodyOk (b : Text) (m : Message) (p : Nat) (m' : Message) (r : List Byte × Nat) : Prop where
  message : ∃ body, m' = { m with body, length := pos (p + r.2) } ∧ BodyHolds b body r.1
  le : p + r.2 ≤ b.bytes.length

/-- No size of the body at the front of `bs`, at `p`, is too large to be read. -/
def Fits (limit p : Nat) (bs : List Byte) : Wire.Framing → Prop
  | .length n => n ≤ limit → p + n < 2 ^ 31
  | .chunked => ¬ Wraps limit p 0 bs
  | .none | .rest => True

theorem readLength_agrees {m : Message} {limit : BitVec 32} {p n : Nat} (hlimit : limit.toNat < 2 ^ 31)
    (hp : p ≤ b.bytes.length) (hfits : n ≤ limit.toNat → p + n < 2 ^ 31) :
    Agrees Flag (fun m' r => BodyOk b m p m'.1 r)
      (readLength b m (pos p) limit (BitVec.ofNat 64 (min n LARGE)))
      (Wire.readBody limit.toNat (b.part p b.bytes.length) (.length n)) := by
  have hlt := b.short
  have hlarge : LARGE = 4294967296 := rfl
  have hover := over_limit 0 n hlimit (by decide)
  have hzero : BitVec.ofNat 64 0 + BitVec.ofNat 64 (min n LARGE) = BitVec.ofNat 64 (min n LARGE) := by simp
  rw [hzero, Nat.zero_add] at hover
  rw [readLength, Wire.readBody, hover]
  refine agrees_failIf rfl rfl fun hle => ?_
  have hle := of_decide_eq_true hle
  have hword : (BitVec.ofNat 64 (min n LARGE)).setWidth 32 = pos n := by
    rw [Nat.min_eq_left (by omega)]
    refine BitVec.eq_of_toNat_eq ?_
    rw [BitVec.toNat_setWidth, BitVec.toNat_ofNat, toNat_pos (by omega)]
    omega
  have hsum := hfits hle
  dsimp only
  rw [hword, pos_add, Text.len_eq, pos_slt hlt hsum, Text.length_part _ _ _ le_rfl]
  by_cases hshort : b.bytes.length < p + n
  · rw [decide_eq_true hshort, failIf_true_bind, if_pos (by omega)]
    exact agrees_throw rfl
  obtain ⟨hv, hholds⟩ := view_eq b p (p + n) (by omega) (by omega)
  rw [decide_eq_false hshort, failIf_false_bind, if_neg (by omega), hv, lift_done_bind, Text.take_part _ _ _ _ (by omega)]
  exact agrees_pure ⟨⟨_, rfl, hholds⟩, by dsimp only; omega⟩

/-- A declared length whose sum wraps is accepted. -/
theorem readLength_wraps {m : Message} {limit : BitVec 32} {p n : Nat} (hlimit : limit.toNat < 2 ^ 31)
    (hp : p ≤ b.bytes.length) (hle : n ≤ limit.toNat) (hwraps : 2 ^ 31 ≤ p + n) :
    readLength b m (pos p) limit (BitVec.ofNat 64 (min n LARGE))
      = pure ({ m with body := .view (pos p, pos n), length := pos (p + n) }, pos n) := by
  have hlt := b.short
  have hlarge : LARGE = 4294967296 := rfl
  have hover := over_limit 0 n hlimit (by decide)
  have hzero : BitVec.ofNat 64 0 + BitVec.ofNat 64 (min n LARGE) = BitVec.ofNat 64 (min n LARGE) := by simp
  rw [hzero, Nat.zero_add, decide_eq_true hle] at hover
  have hword : (BitVec.ofNat 64 (min n LARGE)).setWidth 32 = pos n := by
    rw [Nat.min_eq_left (by omega)]
    refine BitVec.eq_of_toNat_eq ?_
    rw [BitVec.toNat_setWidth, BitVec.toNat_ofNat, toNat_pos (by omega)]
    omega
  have hslt : b.len.slt (pos (p + n)) = false := by
    rw [BitVec.slt_eq_decide, toInt_pos_of_wraps hwraps (by omega), Text.len_eq,
      toInt_eq_toNat (by rw [toNat_pos (by omega)]; exact hlt)]
    exact decide_eq_false (by omega)
  rw [readLength, hover, Bool.not_true, failIf_false_bind]
  dsimp only
  rw [hword, pos_add, hslt, failIf_false_bind, view_wraps hp (by omega) hwraps]
  rfl

theorem readRest_agrees {m : Message} {limit : BitVec 32} {p : Nat} (hlimit : limit.toNat < 2 ^ 31)
    (hp : p ≤ b.bytes.length) :
    Agrees Flag (fun m' r => BodyOk b m p m'.1 r) (readRest b m (pos p) limit)
      (Wire.readBody limit.toNat (b.part p b.bytes.length) .rest) := by
  have hlt := b.short
  have hsub : b.len - pos p = pos (b.bytes.length - p) := pos_sub hp (by omega)
  have hslt := pos_slt (p := limit.toNat) (q := b.bytes.length - p) hlimit (by omega)
  rw [pos_toNat] at hslt
  obtain ⟨hv, hholds⟩ := view_eq b p b.bytes.length hp le_rfl
  rw [readRest, Wire.readBody, hsub, hslt, Text.length_part _ _ _ le_rfl]
  refine agrees_failIf ?_ rfl fun _ => ?_
  · rw [← decide_not]
    exact decide_eq_decide.mpr (by omega)
  rw [Text.len_eq, hv, lift_done_bind]
  have hend : p + (b.bytes.length - p) = b.bytes.length := by omega
  exact agrees_pure ⟨⟨.view _, by rw [hend], hholds⟩, by dsimp only; omega⟩

theorem readChunks_agrees {m : Message} {limit : BitVec 32} {p : Nat} (hlimit : limit.toNat < 2 ^ 31)
    (hp : p ≤ b.bytes.length) (hfuel : 2 ^ 32 ≤ fuel)
    (hfits : ¬ Wraps limit.toNat p 0 (b.part p b.bytes.length)) :
    Agrees Flag (fun m' r => BodyOk b m p m'.1 r) (readChunks fuel b m (pos p) limit)
      (Wire.readBody limit.toNat (b.part p b.bytes.length) .chunked) := by
  have hlt := b.short
  obtain ⟨o, hmake, hnil, ho⟩ := make_granted
  have hlen : o.bytes.length = 0 := by rw [hnil]; rfl
  have h := chunks_agrees (m := m) hlimit hfuel fuel p o hp (by omega) ho (by omega) (by rw [hlen]; exact hfits)
  rw [hlen] at h
  rw [readChunks, hmake, lift_done_bind, Wire.readBody]
  refine h.mono fun m' r _ hr => ?_
  obtain ⟨o', hmessage, hbytes⟩ := hr.message
  rw [hnil, List.nil_append] at hbytes
  exact ⟨⟨_, hmessage, hbytes⟩, hr.le⟩

theorem readChunks_wraps {m : Message} {limit : BitVec 32} {p : Nat} (hlimit : limit.toNat < 2 ^ 31)
    (hp : p ≤ b.bytes.length) (hfuel : 2 ^ 32 ≤ fuel)
    (hwraps : Wraps limit.toNat p 0 (b.part p b.bytes.length)) {r : Except Error (Message × BitVec 32)} :
    (readChunks fuel b m (pos p) limit).run ≠ done r := by
  obtain ⟨o, hmake, hnil, ho⟩ := make_granted
  have hlen : o.bytes.length = 0 := by rw [hnil]; rfl
  rw [readChunks, hmake, lift_done_bind]
  exact chunks_wrap hlimit hfuel fuel p o hp ho (by omega) (by rw [hlen]; exact hwraps)

theorem exists_header {hs : List Header} {fs : List Field} (h : List.Forall₂ (HeaderOk b) hs fs) {i : Nat} {f : Field}
    (hf : fs[i]? = some f) : ∃ h, hs[i]? = some h ∧ HeaderOk b h f := by
  induction h generalizing i with
  | nil => cases hf
  | @cons h g hs fs hok _ ih =>
    cases i with
    | zero =>
      cases hf
      exact ⟨h, rfl, hok⟩
    | succ i => exact ih hf

/-- The body of a message whose framing is known. -/
def readFramed (fuel : Nat) (b : Text) (m : Message) (p limit : BitVec 32) :
    Wire.Framing → Fallible Error (Message × BitVec 32)
  | .none => pure (m, 0#32)
  | .chunked => readChunks fuel b m p limit
  | .length n => readLength b m p limit (BitVec.ofNat 64 (min n LARGE))
  | .rest => readRest b m p limit

/-- **Framing**: the body is read as the headers say, or they are refused. -/
theorem readBody_framed (fuel : Nat) (lim : Limits) {request : Bool} {m : Message} {head : Head} {p : Nat}
    (hm : HeadOk b request m (head, p)) (hcount : head.fields.length < 2 ^ 31) :
    ∃ r, Same Flag (· = ·) r (Wire.framing request head) ∧ readBody fuel b m (pos p) lim
      = (ExceptT.mk (pure r) >>= readFramed fuel b m (pos p) lim.bodyBytes) := by
  have hlarge : LARGE = 4294967296 := rfl
  have hstatus : m.status = head.status := hm.status
  have hframing := framingHeaders_same (b := b) (p := pos p) hm.headers [] (-1#32) (-1#64)
    (by simpa using hcount) (.inl ⟨rfl, rfl⟩) (.inl ⟨rfl, rfl⟩)
  rw [List.nil_append] at hframing
  rw [readBody, Wire.framing]
  change Same Flag _ (framingHeaders b (pos p) 0#32 m.headers (-1#32, -1#64)) _ at hframing
  dsimp only at hframing
  cases hrun : framingHeaders b (pos p) 0#32 m.headers (-1#32, -1#64) with
  | error e =>
    rw [hrun] at hframing
    cases hmust : must (Wire.codingsOk head.fields && Wire.lengthsOk head.fields) with
    | ok _ =>
      rw [hmust] at hframing
      cases hframing
    | error i =>
      rw [hmust] at hframing
      cases hframing with
      | error he => exact ⟨.error e, .error he, rfl⟩
  | ok r =>
    obtain ⟨te, cl⟩ := r
    rw [hrun] at hframing
    cases hmust : must (Wire.codingsOk head.fields && Wire.lengthsOk head.fields) with
    | error i =>
      rw [hmust] at hframing
      cases hframing
    | ok _ =>
    rw [hmust] at hframing
    obtain ⟨hte, hcl⟩ : CodingAt head.fields te ∧ LengthIs head.fields cl := by
      cases hframing with
      | ok h => exact h
    have hof : ∀ {o : Fallible Error (Message × BitVec 32)} {f : Wire.Framing},
        o = readFramed fuel b m (pos p) lim.bodyBytes f →
        ∃ r, Same Flag (· = ·) r (.ok f) ∧ o = (ExceptT.mk (pure r) >>= readFramed fuel b m (pos p) lim.bodyBytes) :=
      fun ho => ⟨.ok _, .ok rfl, ho⟩
    have hrefused : ∀ {e : Error}, e.incomplete = false →
        ∃ r, Same Flag (· = ·) r (.error false : Except Bool Wire.Framing)
          ∧ throw e = (ExceptT.mk (pure r) >>= readFramed fuel b m (pos p) lim.bodyBytes) :=
      fun he => ⟨.error _, .error he, rfl⟩
    have hnone : (0#32).sle (-1#32) = false := rfl
    have hnone' : (0#64).sle (-1#64) = false := rfl
    have hnonneg' : ∀ {n : Nat}, n ≤ LARGE → (0#64).sle (BitVec.ofNat 64 n) = true := by
      intro n hn
      rw [BitVec.sle_eq_decide, toInt_ofNat_64 (n := n) (by omega)]
      exact decide_eq_true (Int.natCast_nonneg n)
    show ∃ r, Same Flag (· = ·) r (Wire.delimiter request head)
      ∧ readBy fuel b m (pos p) lim te cl = (ExceptT.mk (pure r) >>= readFramed fuel b m (pos p) lim.bodyBytes)
    rw [readBy, Wire.delimiter, hm.isRequest, hstatus]
    cases hbodiless : bodiless request head.status with
    | true => exact hof rfl
    | false =>
      rw [if_neg Bool.false_ne_true, if_neg Bool.false_ne_true]
      rcases hte with ⟨hcodings, rfl⟩ | ⟨i, f, hf, rfl, hcodings⟩
      · rw [hcodings, hnone, Bool.false_and, failIf_false_bind, if_neg Bool.false_ne_true]
        rcases hcl with ⟨hlengths, rfl⟩ | ⟨n, hn, rfl, hne, hall⟩
        · rw [hlengths, hnone', if_neg Bool.false_ne_true]
          cases request with
          | true => exact hof rfl
          | false => exact hof rfl
        · obtain ⟨v, vs, hlengths⟩ := List.exists_cons_of_ne_nil hne
          have hv := (hall v (by rw [hlengths]; exact List.mem_cons_self)).2
          rw [hlengths, hnonneg' hn, if_pos rfl]
          refine hof ?_
          rw [readFramed, hv]
      · have hi : i < 2 ^ 31 := by
          have := (List.getElem?_eq_some_iff.mp hf).1
          omega
        have hnonneg : (0#32).sle (pos i) = true := zero_sle (by rw [toNat_pos (by omega)]; exact hi)
        rw [hcodings, hnonneg, if_pos rfl]
        rcases hcl with ⟨hlengths, rfl⟩ | ⟨n, hn, rfl, hne, hall⟩
        · obtain ⟨h, hh, hok⟩ := exists_header hm.headers hf
          have hget : arrGet m.headers (pos i) = done h := arrGet_eq (by rw [toNat_pos (by omega)]; exact hh)
          rw [hlengths, hnone', Bool.and_false, failIf_false_bind, readCoded, hget, lift_done_bind,
            hok.value.content]
          dsimp only
          cases hchunked : eqIgnoreCase f.value CHUNKED with
          | true => exact hof rfl
          | false => exact hrefused rfl
        · obtain ⟨v, vs, hlengths⟩ := List.exists_cons_of_ne_nil hne
          rw [hlengths, hnonneg' hn, Bool.and_self, failIf_true_bind]
          exact hrefused rfl

/-- **The body**, whose sizes are not too large to be read. -/
theorem readFramed_agrees {request : Bool} {lim : Limits} {m : Message} {head : Head} {p : Nat}
    (hm : HeadOk b request m (head, p)) (hfuel : 2 ^ 32 ≤ fuel) {f : Wire.Framing}
    (hfits : Fits lim.bodyBytes.toNat p (b.part p b.bytes.length) f) :
    Agrees Flag (fun m' r => BodyOk b m p m'.1 r) (readFramed fuel b m (pos p) lim.bodyBytes f)
      (Wire.readBody lim.bodyBytes.toNat (b.part p b.bytes.length) f) := by
  have hlimit := lim.bodyBytes_lt
  have hp : p ≤ b.bytes.length := hm.le
  cases f with
  | none =>
    obtain ⟨v, hbody, hempty⟩ := hm.body
    refine agrees_pure ⟨⟨.view v, ?_, hempty⟩, hp⟩
    rw [← hbody, Nat.add_zero, ← hm.length]
  | chunked => exact readChunks_agrees hlimit hp hfuel hfits
  | length n => exact readLength_agrees hlimit hp hfits
  | rest => exact readRest_agrees hlimit hp

end Aipl.StdHttp
