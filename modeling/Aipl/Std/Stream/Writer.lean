import Aipl.Std.Buf.Content

/-! # The writers of `std/stream`

A writer keeps what it is given in a buffer and writes it out from 8 KB on.  Where it goes is modelled by
what it answers: how many bytes each `fs.write` takes (0 or less when it fails), or whether a write
function took them; past the answers given everything is taken.  `close_writer` and who owns the file are
left out.

* `writeBytes_sat` — while no write fails, what is given joins what was given before.
-/

namespace Aipl.StdStream

open Aipl.Lib Aipl.Lib.Outcome Aipl.Std
open Aipl.StdBuf (Content)

/-- `stream.Sink`. -/
inductive Sink where
  | fd (answers : List (BitVec 32))
  | buffer
  | custom (answers : List Bool)
deriving DecidableEq

/-- `stream.Writer`, with the bytes its sink took. -/
structure Writer (σ : Type) where
  sink : Sink
  out : Content σ
  failed : Bool
  sent : List (BitVec 8)
deriving DecidableEq

variable {σ : Type} (A : Allocator σ) (fuel : Nat)

/-- `fs.write` of `n` bytes: how many it takes, and the answers left. -/
def fsWrite (answers : List (BitVec 32)) (n : BitVec 32) : BitVec 32 × List (BitVec 32) :=
  match answers with
  | [] => (n, [])
  | k :: ks => (if n.slt k then n else k, ks)

/-- A round of the loop that writes `n` bytes to a file, of which `count` are written. -/
def writeRound (n : BitVec 32) : BitVec 32 × List (BitVec 32) →
    Outcome (BitVec 32 × List (BitVec 32) ⊕ BitVec 32 × List (BitVec 32))
  | (count, answers) =>
    if count.slt n then
      let (k, answers) := fsWrite answers (n - count)
      if k.sle 0#32 then done (.inr (count, answers)) else done (.inl (count + k, answers))
    else done (.inr (count, answers))

/-- Writes `b` to the sink: whether it took all, and what it took. -/
def writeOut (sink : Sink) (b : List (BitVec 8)) : Outcome (Bool × Sink × List (BitVec 8)) :=
  match sink with
  | .fd answers => do
    let (count, answers) ← iterate (writeRound (arrLen b)) fuel (0#32, answers)
    pure (count = arrLen b, .fd answers, b.take count.toNat)
  | .buffer => pure (true, .buffer, [])
  | .custom answers =>
    if arrLen b = 0#32 then pure (true, .custom answers, [])
    else
      match answers with
      | [] => pure (true, .custom [], b)
      | ok :: answers => pure (ok, .custom answers, if ok then b else [])

namespace Writer

def flush (w : Writer σ) : Outcome (Bool × Writer σ) :=
  if w.failed then pure (false, { w with out := w.out.clear })
  else do
    let (ok, sink, sent) ← writeOut fuel w.sink w.out.bytes
    let out := match w.sink with
      | .buffer => w.out
      | _ => w.out.clear
    pure (ok, { w with sink, out, failed := !ok, sent := w.sent ++ sent })

/-- Writes out what is held once it reaches 8 KB. -/
def wrote (w : Writer σ) : Outcome (Writer σ) :=
  if (8192#32).sle w.out.len then do
    let (_, w) ← flush fuel w
    pure w
  else pure w

/-- `write_bytes`, and `write_str`. -/
def writeBytes (w : Writer σ) (b : List (BitVec 8)) : Outcome (Writer σ) :=
  if w.failed then pure w
  else do
    let out ← w.out.pushBytes A fuel b
    wrote fuel { w with out }

def writeByte (w : Writer σ) (c : BitVec 32) : Outcome (Writer σ) :=
  if w.failed then pure w
  else do
    let out ← w.out.pushByte A fuel c
    wrote fuel { w with out }

/-- Every byte given and not dropped. -/
def all (w : Writer σ) : List (BitVec 8) := w.sent ++ w.out.bytes

/-- **When a write ends**: the buffer has room for it. -/
def Fits (w : Writer σ) (b : List (BitVec 8)) : Prop :=
  w.failed = true ∨ b.length < 2 ^ 31 ∧ w.out.Room (arrLen b)

/-- While no write fails, `b` joins what was given before. -/
def Wrote (w : Writer σ) (b : List (BitVec 8)) (w' : Writer σ) : Prop :=
  w'.failed = false → w.failed = false ∧ w'.all = w.all ++ b

/-- Several writes, in order. -/
def writeAll (w : Writer σ) (cs : List (List (BitVec 8))) : Outcome (Writer σ) :=
  foldAll (writeBytes A fuel) w cs

/-- Each of the writes fits when its turn comes. -/
def AllFit : Writer σ → List (List (BitVec 8)) → Prop
  | _, [] => True
  | w, c :: cs => w.Fits c ∧ ∀ w', writeBytes A fuel w c = done w' → AllFit w' cs

variable {A fuel} {w w₁ w₂ : Writer σ} {b c : List (BitVec 8)}

theorem Wrote.refl (w : Writer σ) : Wrote w [] w := fun h => ⟨h, (List.append_nil _).symm⟩

theorem Wrote.trans (h : Wrote w b w₁) (h' : Wrote w₁ c w₂) : Wrote w (b ++ c) w₂ := by
  intro hok
  obtain ⟨hok₁, hall₁⟩ := h' hok
  obtain ⟨hok₀, hall₀⟩ := h hok₁
  exact ⟨hok₀, by rw [hall₁, hall₀, List.append_assoc]⟩

theorem writeOut_sat {sink : Sink} (hlt : b.length < 2 ^ 31) (hfuel : 2 ^ 31 ≤ fuel) :
    Sat (fun x => x.1 = true → x.2.2 = match sink with
        | .buffer => []
        | _ => b) (writeOut fuel sink b) := by
  have hlen := toNat_arrLen (show b.length < 2 ^ 32 by omega)
  rw [writeOut.eq_def]
  cases sink with
  | fd answers =>
    refine sat_bind (iterate_sat (fun x => x.1.toNat ≤ b.length) (fun _ => True)
      (fun x => b.length - x.1.toNat) ?_ fuel _ (Nat.zero_le _) (by dsimp only; omega)) ?_
    · rintro ⟨count, answers⟩ hle
      dsimp only at hle ⊢
      rw [writeRound]
      by_cases hmore : count.toNat < b.length
      · rw [if_pos ((slt_iff (by omega) (by omega)).mpr (by omega))]
        have hleft : (arrLen b - count).toNat = b.length - count.toNat := by
          rw [toNat_sub_of_le (by omega), hlen]
        obtain ⟨⟨k, answers'⟩, hk⟩ : ∃ x, fsWrite answers (arrLen b - count) = x := ⟨_, rfl⟩
        rw [hk]
        dsimp only
        by_cases hzero : k.sle 0#32 = true
        · rw [if_pos hzero]
          exact trivial
        · rw [if_neg hzero]
          have hkle : 0 < k.toNat ∧ k.toNat ≤ b.length - count.toNat := by
            have h0 : (0#32).toInt = 0 := rfl
            simp only [BitVec.sle_eq_decide, h0, decide_eq_true_eq, not_le] at hzero
            obtain ⟨hint, hklt⟩ := toInt_of_nonneg hzero.le
            refine ⟨by omega, ?_⟩
            cases answers with
            | nil =>
              cases hk
              omega
            | cons a as =>
              rw [fsWrite] at hk
              split at hk
              · cases hk
                omega
              · rename_i hnot
                cases hk
                rw [slt_iff (by omega) (by omega)] at hnot
                omega
          have hsum : (count + k).toNat = count.toNat + k.toNat := toNat_add_of_lt (by omega)
          refine ⟨?_, ?_⟩
          · dsimp only
            omega
          · dsimp only
            omega
      · rw [if_neg fun h => hmore (by rw [slt_iff (by omega) (by omega)] at h; omega)]
        exact trivial
    · rintro ⟨count, answers'⟩ -
      intro hcount
      have hcount : count = arrLen b := by simpa using hcount
      dsimp only
      rw [hcount, hlen, List.take_length]
  | buffer => exact fun _ => rfl
  | custom answers =>
    dsimp only
    by_cases hempty : arrLen b = 0#32
    · rw [if_pos hempty]
      intro _
      have hnil : b.length = 0 := by rw [← hlen, hempty]; rfl
      exact (List.length_eq_zero_iff.mp hnil).symm
    · rw [if_neg hempty]
      cases answers with
      | nil => exact fun _ => rfl
      | cons ok answers =>
        intro hok
        dsimp only at hok ⊢
        rw [hok, if_pos rfl]

/-- **A flush** loses nothing, if it does not fail. -/
theorem flush_sat (hlt : w.out.bytes.length < 2 ^ 31) (hfuel : 2 ^ 31 ≤ fuel) :
    Sat (fun x => Wrote w [] x.2) (flush fuel w) := by
  rw [flush]
  cases hfailed : w.failed with
  | true =>
    rw [if_pos rfl]
    intro hok
    cases hok
  | false =>
    rw [if_neg (by simp)]
    refine sat_bind (writeOut_sat hlt hfuel) ?_
    rintro ⟨ok, sink, sent⟩ hsent hok
    dsimp only at hsent hok
    refine ⟨hfailed, ?_⟩
    have htook := hsent (by simpa using hok)
    rw [all, all, List.append_nil]
    dsimp only
    rw [htook, List.append_assoc]
    congr 1
    cases w.sink with
    | fd answers => exact List.append_nil _
    | buffer => rfl
    | custom answers => exact List.append_nil _

theorem wrote_sat (hlt : w.out.bytes.length < 2 ^ 31) (hfuel : 2 ^ 31 ≤ fuel) :
    Sat (Wrote w []) (wrote fuel w) := by
  rw [wrote]
  split
  · exact sat_bind (flush_sat hlt hfuel) fun _ h => h
  · exact Wrote.refl w

/-- **A write**: what is given joins what was given before. -/
theorem writeBytes_sat (hfits : w.Fits b) (hfuel : 2 ^ 31 ≤ fuel) :
    Sat (Wrote w b) (writeBytes A fuel w b) := by
  rw [writeBytes]
  cases hfailed : w.failed with
  | true =>
    rw [if_pos rfl]
    intro hok
    rw [hfailed] at hok
    cases hok
  | false =>
    rw [if_neg (by simp)]
    obtain ⟨hb, hroom⟩ := hfits.resolve_left (by simp [hfailed])
    have hlen := toNat_arrLen (show b.length < 2 ^ 32 by omega)
    refine sat_bind (Content.pushBytes_room_sat hroom hfuel) fun out hout => ?_
    have hlt : out.bytes.length < 2 ^ 31 := by
      rw [hout, List.length_append]
      have := hroom.1
      omega
    refine (wrote_sat hlt hfuel).mono fun w' hw' hok => ⟨hfailed, ?_⟩
    rw [(hw' hok).2, List.append_nil, all, all]
    dsimp only
    rw [hout, List.append_assoc]

theorem writeByte_eq (c : BitVec 32) : writeByte A fuel w c = writeBytes A fuel w [c.setWidth 8] := rfl

/-- **Writes that fit** join what was given before. -/
theorem writeAll_sat (hfuel : 2 ^ 31 ≤ fuel) {cs : List (List (BitVec 8))} (hfits : AllFit A fuel w cs) :
    Sat (Wrote w cs.flatten) (writeAll A fuel w cs) := by
  induction cs generalizing w with
  | nil => exact Wrote.refl w
  | cons c cs ih =>
    obtain ⟨hc, hcs⟩ := hfits
    have hwrite := writeBytes_sat (A := A) hc hfuel
    rw [writeAll, foldAll]
    refine sat_bind (hwrite.and_eq) ?_
    rintro w₁ ⟨hwrote, hw₁⟩
    exact (ih (hcs w₁ hw₁)).mono fun w₂ h => hwrote.trans h

/-- Writes that the buffer has room for fit, with no growing. -/
theorem fits_of_cap (h : w.out.bytes.length + b.length ≤ w.out.cap.toNat)
    (hcap : w.out.cap.toNat < 2 ^ 31) : w.Fits b := by
  have hb := toNat_arrLen (show b.length < 2 ^ 32 by omega)
  have hlen := Content.toNat_len (b := w.out) (by omega)
  refine .inr ⟨by omega, by omega, fun hlt => ?_⟩
  rw [slt_iff hcap (by rw [toNat_add_of_lt (by omega)]; omega), toNat_add_of_lt (by omega)] at hlt
  omega

theorem flush_small : Returns (fun x => x.2.out.cap = w.out.cap
    ∧ x.2.out.bytes.length ≤ w.out.bytes.length) (flush fuel w) := by
  rw [flush]
  split
  · exact ⟨rfl, Nat.zero_le _⟩
  · refine returns_bind_any ?_
    rintro ⟨ok, sink, sent⟩
    dsimp only
    split
    · exact ⟨rfl, le_rfl⟩
    · exact ⟨rfl, Nat.zero_le _⟩

theorem writeBytes_small (h : w.out.bytes.length + b.length ≤ w.out.cap.toNat)
    (hcap : w.out.cap.toNat < 2 ^ 31) :
    Returns (fun w' => w'.out.cap = w.out.cap ∧ w'.out.bytes.length ≤ w.out.bytes.length + b.length)
      (writeBytes A fuel w b) := by
  have hb := toNat_arrLen (show b.length < 2 ^ 32 by omega)
  have hlen := Content.toNat_len (b := w.out) (by omega)
  have hfit : (w.out.len + arrLen b).sle w.out.cap = true := by
    rw [sle_iff (by rw [toNat_add_of_lt (by omega)]; omega) hcap, toNat_add_of_lt (by omega)]
    omega
  rw [writeBytes]
  split
  · exact ⟨rfl, Nat.le_add_right _ _⟩
  · rw [Content.pushBytes, Content.ensure, if_pos hfit, pure_eq, done_bind, pure_eq, done_bind, wrote]
    split
    · refine returns_bind flush_small ?_
      rintro ⟨ok, w'⟩ ⟨hcap', hle⟩
      refine ⟨hcap', hle.trans ?_⟩
      rw [List.length_append]
    · exact ⟨rfl, by rw [List.length_append]⟩

theorem allFit_of_cap {cs : List (List (BitVec 8))}
    (h : w.out.bytes.length + cs.flatten.length ≤ w.out.cap.toNat) (hcap : w.out.cap.toNat < 2 ^ 31) :
    AllFit A fuel w cs := by
  induction cs generalizing w with
  | nil => trivial
  | cons c cs ih =>
    rw [List.flatten_cons, List.length_append] at h
    refine ⟨fits_of_cap (by omega) hcap, fun w' hw' => ?_⟩
    have hroom : w.out.bytes.length + c.length ≤ w.out.cap.toNat := by omega
    obtain ⟨hcap', hle⟩ := (writeBytes_small hroom hcap).of_eq_done hw'
    exact ih (by rw [hcap']; omega) (by rw [hcap']; exact hcap)

theorem writeAll_append (w : Writer σ) (cs cs' : List (List (BitVec 8))) :
    writeAll A fuel w (cs ++ cs') = writeAll A fuel w cs >>= fun w => writeAll A fuel w cs' :=
  foldAll_append _ w cs cs'

theorem writeAll_one (w : Writer σ) (c : List (BitVec 8)) :
    writeAll A fuel w [c] = writeBytes A fuel w c := by
  rw [writeAll, foldAll]
  exact bind_pure _

theorem writeBytes_diverges (hopen : w.failed = false)
    (hpush : w.out.pushBytes A fuel b = outOfFuel) : writeBytes A fuel w b = outOfFuel := by
  rw [writeBytes, hopen, if_neg (by simp), hpush]
  rfl

end Writer

end Aipl.StdStream
