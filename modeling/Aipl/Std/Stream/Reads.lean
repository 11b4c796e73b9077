import Aipl.Std.Stream.Window

/-! # What a read of a reader takes

* `fill_sat` — a fill moves bytes from the source to the window, and changes nothing else.
* `Takes` — what each operation returns, by the bytes it takes and those it leaves.
* `run_sat` — each operation takes bytes off the front of what is left, whatever the window was.
-/

namespace Aipl.StdStream

open Aipl.Lib Aipl.Lib.Outcome Aipl.Std
open Aipl.StdBuf (u8 Content)

variable {σ : Type} {A : Allocator σ} {fuel : Nat}

namespace Reader

variable {r : Reader σ}

/-! ### Filling -/

/-- What the source gave, in the window behind the bytes that end at `end_`. -/
structure Got (r : Reader σ) (got : BitVec 32) (p : List (BitVec 8)) (r' : Reader σ) : Prop where
  bounds : r'.Bounds
  src : r'.src.Ok
  grown : r'.Grown
  room : r'.end_.toNat + p.length ≤ r'.win.length
  unread : between r'.win r'.start.toNat (r'.end_.toNat + p.length) = r.unread ++ p
  left : r.src.left = p ++ r'.src.left
  count : got.toNat = p.length ∨ p = [] ∧ got = -1#32
  done : p = [] → r'.src.left = []
  atEnd : r'.atEnd = r.atEnd

theorem Moved.got_nothing {n : Nat} {r' : Reader σ} (h : Moved r r' n) {src : Source} (hsrc : src.Ok)
    (hleft : r.src.left = []) (hleft' : src.left = []) {got : BitVec 32} (hgot : got = 0#32 ∨ got = -1#32) :
    Got r got [] { r' with src := src } := by
  refine ⟨⟨h.bounds.start_le, h.bounds.end_le, h.bounds.size⟩, hsrc, h.grown, h.bounds.end_le, ?_, ?_, ?_,
    fun _ => hleft', h.atEnd⟩
  · rw [List.append_nil]
    exact h.unread
  · rw [hleft]
    exact hleft'.symm
  · rcases hgot with rfl | rfl
    · exact .inl rfl
    · exact .inr ⟨rfl, rfl⟩

theorem Moved.got_bytes {n : Nat} {r' : Reader σ} (h : Moved r r' n) {src : Source} (hsrc : src.Ok)
    {p : List (BitVec 8)} (hp : p ≠ []) (hroom : r'.end_.toNat + p.length ≤ r'.win.length)
    (hleft : r.src.left = p ++ src.left) :
    Got r (arrLen p) p { r' with win := storeAll r'.win r'.end_.toNat p, src := src } := by
  have hb := h.bounds
  have hs := hb.start_le
  have hsize := hb.size
  refine ⟨⟨hs, ?_, ?_⟩, hsrc, ?_, ?_, ?_, hleft, .inl (toNat_arrLen (by omega)), fun hnil => absurd hnil hp,
    h.atEnd⟩
  · dsimp only
    rw [length_storeAll]
    exact hb.end_le
  · dsimp only
    rw [length_storeAll]
    exact hsize
  · obtain ⟨j, hj, hwin⟩ := h.grown
    exact ⟨j, hj, by rw [length_storeAll, hwin]⟩
  · dsimp only
    rw [length_storeAll]
    exact hroom
  · have hunread : between r'.win r'.start.toNat r'.end_.toNat = r.unread := h.unread
    dsimp only
    rw [between_storeAll hs hroom, hunread]

theorem fillFd_sat {s : Supply} (h : r.Bounds) (hg : r.Grown) (hsrc : r.src = .fd s)
    (hs : ∀ p ∈ s.pieces, p ≠ []) (hfit : r.unread.length + 4096 ≤ 2 ^ 30) (hfuel : 2 ^ 31 ≤ fuel) :
    Sat (fun x => ∃ p, Got r x.1 p x.2) (fillFd A fuel r s) := by
  rw [fillFd]
  refine sat_bind (makeRoom_sat h hg hfit hfuel) fun r' hr' => ?_
  have hb := hr'.bounds
  have he := hb.end_le
  have hsize := hb.size
  have h4096 : (4096#32).toNat = 4096 := rfl
  have hroom := hr'.room
  have hcap : (r'.cap - r'.end_).toNat = r'.win.length - r'.end_.toNat := by
    rw [toNat_sub_of_le (by rw [cap, toNat_arrLen (by omega)]; exact he), cap, toNat_arrLen (by omega)]
  rw [fsRead]
  cases hpieces : s.pieces with
  | nil =>
    have hnone : r.src.left = [] := by
      rw [hsrc, Source.left, Source.pieces, hpieces]
      rfl
    have hok : Source.Ok (.fd s) := hs
    refine ⟨[], hr'.got_nothing hok hnone (by rw [← hsrc]; exact hnone) ?_⟩
    dsimp only
    split
    · exact .inr rfl
    · exact .inl rfl
  | cons p ps =>
    have hp : p ≠ [] := hs p (by rw [hpieces]; exact List.mem_cons_self)
    have hps : ∀ q ∈ ps, q ≠ [] := fun q hq => hs q (by rw [hpieces]; exact List.mem_cons_of_mem _ hq)
    dsimp only
    rw [hcap]
    refine ⟨p.take (r'.win.length - r'.end_.toNat), hr'.got_bytes ?_ ?_ ?_ ?_⟩
    · rw [Source.Ok]
      dsimp only
      split
      · exact hps
      · exact List.forall_mem_cons.mpr ⟨‹_›, hps⟩
    · intro hnil
      rcases List.take_eq_nil_iff.mp hnil with h0 | h0
      · omega
      · exact hp h0
    · rw [List.length_take]
      omega
    · have hall : r.src.left = p ++ ps.flatten := by
        rw [hsrc, Source.left, Source.pieces, hpieces]
        rfl
      rw [hall, Source.left, Source.pieces]
      dsimp only
      split
      · rename_i hrest
        conv_lhs => rw [← List.take_append_drop (r'.win.length - r'.end_.toNat) p, hrest, List.append_nil]
      · rw [List.flatten_cons, ← List.append_assoc, List.take_append_drop]

/-- What a fill function appended, copied into the window. -/
theorem copy_sat {win sc : List (BitVec 8)} {at_ : BitVec 32} (hroom : at_.toNat + sc.length ≤ win.length)
    (hsize : win.length < 2 ^ 31) (hfuel : 2 ^ 31 ≤ fuel) :
    Sat (fun win' => win' = storeAll win at_.toNat sc) (forLoop fuel 0#32 (arrLen sc)
      (fun i win => pure (win.set (at_ + i).toNat (load sc i))) win) := by
  have hlen := toNat_arrLen (show sc.length < 2 ^ 32 by omega)
  refine (forLoop_range_sat (by omega) (Nat.zero_le _) (by omega)
    (fun k win' => win' = storeAll win at_.toNat (sc.take k)) rfl ?_).mono ?_
  · rintro k win' - hk rfl
    have hk32 : (BitVec.ofNat 32 k).toNat = k := toNat_ofNat_of_lt (by omega)
    have hget : sc[k]? = some sc[k] := List.getElem?_eq_getElem (by omega)
    rw [pure_eq, sat_done, toNat_add_of_lt (by omega), hk32,
      load_eq (by rw [hk32, hget]), List.take_succ_eq_append_getElem (by omega), storeAll_append,
      List.length_take, Nat.min_eq_left (by omega)]
    rfl
  · rintro win' rfl
    rw [hlen, List.take_length]

theorem fillCustom_sat {s : Supply} (h : r.Bounds) (hg : r.Grown) (hsrc : r.src = .custom s)
    (hs : ∀ p ∈ s.pieces, p ≠ [] ∧ p.length ≤ 2 ^ 30)
    (hfit : r.unread.length + (s.pieces.headD []).length ≤ 2 ^ 30) (hfuel : 2 ^ 31 ≤ fuel) :
    Sat (fun x => ∃ p, Got r x.1 p x.2) (fillCustom A fuel r s) := by
  have hm1 : (-1#32).slt 0#32 = true := rfl
  rw [fillCustom, callFill]
  cases hpieces : s.pieces with
  | nil =>
    have hnone : r.src.left = [] := by
      rw [hsrc, Source.left, Source.pieces, hpieces]
      rfl
    have hsame : { r with src := .custom s } = r := by rw [← hsrc]
    dsimp only
    rw [hsame]
    rw [hpieces] at hfit
    cases hfails : s.fails with
    | true =>
      rw [if_pos rfl, if_pos hm1]
      refine ⟨[], h, ?_, hg, h.end_le, (List.append_nil _).symm, rfl, .inr ⟨rfl, rfl⟩, fun _ => hnone, rfl⟩
      rw [hsrc]
      exact hs
    | false =>
      rw [if_neg (by simp)]
      refine sat_bind (makeRoom_sat h hg hfit hfuel) fun r' hr' => ?_
      refine sat_bind (copy_sat (show _ + ([] : List (BitVec 8)).length ≤ _ from hr'.bounds.end_le)
        hr'.bounds.size hfuel) ?_
      rintro win rfl
      have hsrcOk : r'.src.Ok := by
        rw [hr'.src, hsrc]
        exact hs
      exact ⟨[], hr'.got_nothing hsrcOk hnone (by rw [hr'.src]; exact hnone) (.inl rfl)⟩
  | cons p ps =>
    obtain ⟨hp, hplen⟩ := hs p (by rw [hpieces]; exact List.mem_cons_self)
    have hps : Source.Ok (.custom { s with pieces := ps }) := fun q hq =>
      hs q (by rw [hpieces]; exact List.mem_cons_of_mem _ hq)
    rw [hpieces] at hfit
    have hlen := toNat_arrLen (show p.length < 2 ^ 32 by omega)
    dsimp only
    rw [not_slt_zero (by omega), if_neg (by simp)]
    refine sat_bind (makeRoom_sat (r := { r with src := .custom { s with pieces := ps } })
      ⟨h.start_le, h.end_le, h.size⟩ hg (by rw [hlen]; exact hfit) hfuel) fun r' hr' => ?_
    have hroom := hr'.room
    rw [hlen] at hroom
    refine sat_bind (copy_sat hroom hr'.bounds.size hfuel) ?_
    rintro win rfl
    have hmoved : Moved r { r' with src := r.src } (arrLen p).toNat :=
      ⟨⟨hr'.bounds.start_le, hr'.bounds.end_le, hr'.bounds.size⟩, hr'.unread, hr'.room, hr'.grown, rfl,
        hr'.atEnd, hr'.failed⟩
    have hsrcOk : r'.src.Ok := by
      rw [hr'.src]
      exact hps
    refine ⟨p, hmoved.got_bytes hsrcOk hp hroom ?_⟩
    rw [hr'.src, hsrc, Source.left, Source.pieces, hpieces]
    rfl

/-- What a fill does: the bytes `p` move from the source to the window. -/
structure Filled (r : Reader σ) (came : Bool) (r' : Reader σ) (p : List (BitVec 8)) : Prop where
  ok : r'.Ok
  unread : r'.unread = r.unread ++ p
  left : r.src.left = p ++ r'.src.left
  more : came = true → p ≠ []
  noMore : came = false → p = [] ∧ r'.src.left = []

theorem Filled.rest {came : Bool} {r' : Reader σ} {p : List (BitVec 8)} (h : Filled r came r' p) :
    r'.rest = r.rest := by
  rw [Reader.rest, Reader.rest, h.unread, h.left, List.append_assoc]

theorem Got.filled {got : BitVec 32} {p : List (BitVec 8)} {r' : Reader σ} (h : Got r got p r')
    (hopen : r'.atEnd = false) : Filled r (settle r' got).1 (settle r' got).2 p := by
  have hb := h.bounds
  have hs := hb.start_le
  have hsize := hb.size
  have hroom := h.room
  have hunread := h.unread
  rw [settle]
  rcases h.count with hgot | ⟨rfl, rfl⟩
  · have hsum : (r'.end_ + got).toNat = r'.end_.toNat + p.length := by
      rw [toNat_add_of_lt (by omega), hgot]
    rw [not_slt_zero (by omega), if_neg (by simp)]
    by_cases hzero : got = 0#32
    · rw [if_pos hzero]
      obtain rfl : p = [] := by
        rw [hzero] at hgot
        exact List.length_eq_zero_iff.mp hgot.symm
      exact ⟨⟨⟨hs, hb.end_le, hsize⟩, h.src, fun hc => absurd hc.symm Bool.false_ne_true,
        fun _ => h.done rfl⟩,
        hunread, h.left, fun hc => absurd hc Bool.false_ne_true, fun _ => ⟨rfl, h.done rfl⟩⟩
    · rw [if_neg hzero]
      have hp : p ≠ [] := by
        rintro rfl
        exact hzero (BitVec.eq_of_toNat_eq hgot)
      refine ⟨⟨⟨?_, ?_, hsize⟩, h.src, fun _ => h.grown, fun hc => ?_⟩, ?_, h.left, fun _ => hp,
        fun hc => absurd hc.symm Bool.false_ne_true⟩
      · dsimp only
        omega
      · dsimp only
        omega
      · rw [hopen] at hc
        cases hc
      · rw [Reader.unread]
        dsimp only
        rw [hsum]
        exact hunread
  · rw [if_pos (by decide)]
    exact ⟨⟨⟨hs, hb.end_le, hsize⟩, h.src, fun hc => absurd hc.symm Bool.false_ne_true, fun _ => h.done rfl⟩,
      hunread, h.left, fun hc => absurd hc Bool.false_ne_true, fun _ => ⟨rfl, h.done rfl⟩⟩

/-- **A fill** moves bytes from the source to the window, and loses none. -/
theorem fill_sat (h : r.Ok) (hfit : r.Fits) (hfuel : 2 ^ 31 ≤ fuel) :
    Sat (fun x => ∃ p, Filled r x.1 x.2 p) (fill A fuel r) := by
  rw [fill]
  cases hend : r.atEnd with
  | true =>
    rw [if_pos rfl]
    exact ⟨[], h, (List.append_nil _).symm, rfl, nofun, fun _ => ⟨rfl, h.done hend⟩⟩
  | false =>
    rw [if_neg (by simp)]
    have hg := h.grown hend
    have hneed := hfit.resolve_left (by simp [hend])
    have hsrcOk := h.src
    rw [need] at hneed
    refine sat_bind (Q := fun x => ∃ p, Got r x.1 p x.2) ?_ ?_
    · rw [ask]
      cases hsrc : r.src with
      | fd s =>
        rw [hsrc] at hneed hsrcOk
        exact fillFd_sat h.bounds hg hsrc hsrcOk hneed hfuel
      | memory =>
        have hnone : r.src.left = [] := by
          rw [hsrc]
          rfl
        exact ⟨[], h.bounds, h.src, hg, h.bounds.end_le, (List.append_nil _).symm, rfl, .inl rfl,
          fun _ => hnone, rfl⟩
      | custom s =>
        rw [hsrc] at hneed hsrcOk
        exact fillCustom_sat h.bounds hg hsrc hsrcOk hneed hfuel
    · rintro ⟨got, r'⟩ ⟨p, hgot⟩
      exact ⟨p, hgot.filled (hgot.atEnd.trans hend)⟩

/-- A fill function is asked for one piece at a time. -/
theorem fill_piece {s : Supply} {p : List (BitVec 8)} {ps : List (List (BitVec 8))} {more : Bool}
    {r' : Reader σ} (h : r.Ok) (hopen : r.atEnd = false) (hfits : r.Fits) (hsrc : r.src = .custom s)
    (hp : s.pieces = p :: ps) (hfuel : 2 ^ 31 ≤ fuel) (hr : fill A fuel r = done (more, r')) :
    r'.src = .custom { s with pieces := ps } ∧ r'.unread = r.unread ++ p := by
  obtain ⟨q, hfilled⟩ := (fill_sat h hfits hfuel).of_eq_done hr
  have hneed := hfits.resolve_left (by simp [hopen])
  rw [need, hsrc] at hneed
  dsimp only at hneed
  rw [hp, List.headD_cons] at hneed
  have hlen := toNat_arrLen (show p.length < 2 ^ 32 by omega)
  have hsrc' : r'.src = .custom { s with pieces := ps } := by
    rw [fill, hopen, if_neg (by simp), ask, hsrc] at hr
    obtain ⟨⟨got, r₁⟩, hask, hr⟩ := bind_eq_done hr
    dsimp only at hask
    rw [fillCustom, callFill, hp] at hask
    dsimp only at hask
    rw [not_slt_zero (by omega), if_neg (by simp)] at hask
    obtain ⟨r₂, hroom, hask⟩ := bind_eq_done hask
    obtain ⟨win, -, hask⟩ := bind_eq_done hask
    have hmoved := (makeRoom_sat (r := { r with src := .custom { s with pieces := ps } })
      ⟨h.bounds.start_le, h.bounds.end_le, h.bounds.size⟩ (h.grown hopen) (by rw [hlen]; exact hneed)
      hfuel).of_eq_done hroom
    cases hask
    dsimp only at hr
    rw [settle] at hr
    split at hr
    · cases hr
      exact hmoved.src
    · split at hr
      · cases hr
        exact hmoved.src
      · cases hr
        exact hmoved.src
  refine ⟨hsrc', ?_⟩
  have hleft := hfilled.left
  rw [hsrc, hsrc', Source.left, Source.left, Source.pieces, Source.pieces, hp, List.flatten_cons] at hleft
  rw [hfilled.unread, List.append_cancel_right hleft]

end Reader

/-! ### What operations take -/

/-- A line as `next_line` shows it, from its bytes up to the "\n". -/
def dropCr (l : List (BitVec 8)) : List (BitVec 8) := if l.getLast? = some 13#8 then l.dropLast else l

/-- A read of a reader. -/
inductive Op (τ : Type) where
  | nextLine
  | readByte
  | peekByte
  | read (into : Content τ) (max : BitVec 32)

/-- What it returned: the line moved to, if any; a byte or -1; how many bytes, and the buffer with
them. -/
inductive Result (τ : Type) where
  | line (l : Option (List (BitVec 8)))
  | byte (c : BitVec 32)
  | read (n : BitVec 32) (into : Content τ)
deriving DecidableEq

/-- **What an operation returns**, when the bytes it takes are `c` and those it leaves are `rest`. -/
inductive Takes {τ : Type} : Op τ → Result τ → List (BitVec 8) → List (BitVec 8) → Prop where
  | line {l rest : List (BitVec 8)} (h : 10#8 ∉ l) :
      Takes .nextLine (.line (some (dropCr l))) (l ++ [10#8]) rest
  | lastLine {l : List (BitVec 8)} (h : 10#8 ∉ l) (hne : l ≠ []) :
      Takes .nextLine (.line (some l)) l []
  | noLine : Takes .nextLine (.line none) [] []
  | byte (c : BitVec 8) (rest : List (BitVec 8)) : Takes .readByte (.byte (c.setWidth 32)) [c] rest
  | noByte : Takes .readByte (.byte (-1#32)) [] []
  | peek (c : BitVec 8) (rest : List (BitVec 8)) :
      Takes .peekByte (.byte (c.setWidth 32)) [] (c :: rest)
  | noPeek : Takes .peekByte (.byte (-1#32)) [] []
  | read {into into' : Content τ} {max : BitVec 32} {l rest : List (BitVec 8)} (hne : l ≠ [])
      (hmax : l.length ≤ max.toNat) (hinto : into'.bytes = into.bytes ++ l) :
      Takes (.read into max) (.read (arrLen l) into') l rest
  | noRead {into : Content τ} {max n : BitVec 32} (hn : n = 0#32 ∨ n = -1#32) :
      Takes (.read into max) (.read n into) [] []

namespace Reader

variable {r : Reader σ}

/-! ### Lines -/

/-- The readers that `next_line` asks for more in: there is no "\n" among their unread bytes. -/
inductive Asked (A : Allocator σ) (fuel : Nat) : Reader σ → Reader σ → Prop where
  | here {r : Reader σ} (h : 10#8 ∉ r.unread) : Asked A fuel r r
  | more {r r₁ r₂ : Reader σ} (h : 10#8 ∉ r.unread) (hr : fill A fuel r = done (true, r₁))
      (h' : Asked A fuel r₁ r₂) : Asked A fuel r r₂

/-- The scan stops at the first "\n", or at the end. -/
theorem scan_ends {win : List (BitVec 8)} {e i : BitVec 32} (hi : i.toNat ≤ e.toNat)
    (he : e.toNat ≤ win.length) (hsize : win.length < 2 ^ 31) (hfuel : 2 ^ 31 ≤ fuel) :
    Ends (fun k => i.toNat ≤ k.toNat ∧ k.toNat ≤ e.toNat ∧ 10#8 ∉ between win i.toNat k.toNat
        ∧ (k.toNat < e.toNat → win[k.toNat]? = some 10#8))
      (iterate (scanRound win e) fuel i) := by
  refine iterate_ends (fun k => i.toNat ≤ k.toNat ∧ k.toNat ≤ e.toNat
    ∧ 10#8 ∉ between win i.toNat k.toNat) _ (fun k => e.toNat - k.toNat) ?_ fuel i ?_ (by omega)
  · rintro k ⟨hik, hke, hno⟩
    have hslt := slt_iff (x := k) (y := e) (by omega) (by omega)
    rw [scanRound]
    by_cases hlt : k.toNat < e.toNat
    · obtain ⟨c, hc⟩ : ∃ c, win[k.toNat]? = some c := ⟨_, List.getElem?_eq_getElem (by omega)⟩
      rw [load_eq hc]
      by_cases hten : c = 10#8
      · rw [if_neg fun h => h.2 hten]
        exact ⟨hik, hke, hno, fun _ => hten ▸ hc⟩
      · rw [if_pos ⟨hslt.mpr hlt, hten⟩]
        have hk1 : (k + 1#32).toNat = k.toNat + 1 := toNat_succ (by omega)
        refine ⟨⟨by omega, by omega, ?_⟩, by omega⟩
        rw [hk1, ← between_append hik (Nat.le_succ _), List.mem_append, between_one hc,
          List.mem_singleton]
        exact fun h => h.elim hno fun h => hten h.symm
    · rw [if_neg fun h => hlt (hslt.mp h.1)]
      exact ⟨hik, hke, hno, fun h => absurd h hlt⟩
  · exact ⟨le_rfl, hi, by simp⟩

theorem dropCr_between {win : List (BitVec 8)} {s i : Nat} (hsi : s ≤ i) (hi : i ≤ win.length) :
    dropCr (between win s i)
      = between win s (if s < i ∧ win.getD (i - 1) 0#8 = 13#8 then i - 1 else i) := by
  have hlen := length_between (s := s) hi
  have hlast : (between win s i).getLast? = some 13#8 ↔ s < i ∧ win.getD (i - 1) 0#8 = 13#8 := by
    rw [List.getLast?_eq_getElem?, hlen, getElem?_between]
    by_cases hlt : s < i
    · rw [if_pos (by omega), show s + (i - s - 1) = i - 1 by omega, List.getD_eq_getElem?_getD,
        List.getElem?_eq_getElem (by omega), Option.getD_some, Option.some.injEq]
      exact ⟨fun h => ⟨hlt, h⟩, fun h => h.2⟩
    · rw [if_neg (by omega)]
      exact ⟨nofun, fun h => absurd h.1 hlt⟩
  rw [dropCr]
  by_cases h : s < i ∧ win.getD (i - 1) 0#8 = 13#8
  · rw [if_pos (hlast.mpr h), if_pos h, List.dropLast_eq_take, hlen, between, between, List.take_take]
    congr 1
    omega
  · rw [if_neg (fun hc => h (hlast.mp hc)), if_neg h]

/-- Where a line that "\n" ends at `i` stops: a "\r" before it is left out. -/
theorem toNat_stop (win : List (BitVec 8)) {s i : BitVec 32} {p : Prop} [Decidable p]
    (hs : s.toNat < 2 ^ 31) (hi : i.toNat < 2 ^ 31)
    (hp : s.toNat < i.toNat → (p ↔ win.getD (i.toNat - 1) 0#8 = 13#8)) :
    (if s.slt i ∧ p then i - 1#32 else i).toNat
      = if s.toNat < i.toNat ∧ win.getD (i.toNat - 1) 0#8 = 13#8 then i.toNat - 1 else i.toNat := by
  have hslt := slt_iff hs hi
  by_cases hlt : s.toNat < i.toNat
  · have h1 : (1#32).toNat = 1 := rfl
    rw [if_congr (and_congr hslt (hp hlt)) rfl rfl]
    split
    · rw [toNat_sub_of_le (by omega), h1]
    · rfl
  · rw [if_neg fun h => hlt (hslt.mp h.1), if_neg fun h => hlt h.1]

theorem toNat_prev {i : BitVec 32} (hi : 0 < i.toNat) : (i - 1#32).toNat = i.toNat - 1 := by
  have h1 : (1#32).toNat = 1 := rfl
  rw [toNat_sub_of_le (by omega), h1]

theorem endLine_sat (h : r.Ok) {i : BitVec 32} (hi : r.start.toNat ≤ i.toNat)
    (hlt : i.toNat < r.end_.toNat) (hten : r.win[i.toNat]? = some 10#8) :
    Sat (fun r' => r'.Ok ∧ r.rest = between r.win r.start.toNat i.toNat ++ [10#8] ++ r'.rest
        ∧ r'.line = dropCr (between r.win r.start.toNat i.toNat)) (endLine r i) := by
  have hb := h.bounds
  have he := hb.end_le
  have hsize := hb.size
  have hi1 : (i + 1#32).toNat = i.toNat + 1 := toNat_succ (by omega)
  have hstopN := toNat_stop r.win (s := r.start) (i := i) (by omega) (by omega)
    (p := load r.win (i - 1#32) = 13#8) fun hlt => by rw [load, toNat_prev (by omega)]
  rw [endLine]
  obtain ⟨stop, hstop⟩ : ∃ stop, (if r.start.slt i ∧ load r.win (i - 1#32) = 13#8 then i - 1#32
      else i) = stop := ⟨_, rfl⟩
  rw [hstop] at hstopN ⊢
  have hs_stop : r.start.toNat ≤ stop.toNat ∧ stop.toNat ≤ i.toNat := by
    rw [hstopN]
    split <;> omega
  have hview : (stop - r.start).toNat = stop.toNat - r.start.toNat := toNat_sub_of_le hs_stop.1
  rw [slice_eq hsize (by omega), done_bind, pure_eq, sat_done]
  refine ⟨⟨⟨?_, he, hsize⟩, h.src, h.grown, h.done⟩, ?_, ?_⟩
  · dsimp only
    omega
  · rw [rest, unread, rest, unread]
    dsimp only
    rw [hi1, ← between_one hten, between_append hi (Nat.le_succ _), ← List.append_assoc,
      between_append (by omega) (by omega)]
  · rw [line]
    dsimp only
    rw [hview, dropCr_between hi (by omega), ← hstopN]
    rfl

theorem lastLine_sat {τ : Type} (h : r.Ok) (hleft : r.src.left = []) (hno : 10#8 ∉ r.unread) :
    Sat (fun x => x.2.Ok ∧ ∃ c, r.rest = c ++ x.2.rest ∧
        Takes (τ := τ) .nextLine (.line (if x.1 then some x.2.line else none)) c x.2.rest)
      (lastLine r) := by
  have hb := h.bounds
  have hs := hb.start_le
  have he := hb.end_le
  have hsize := hb.size
  have hlen := hb.length_unread
  have hrest : r.rest = r.unread := by rw [rest, hleft, List.append_nil]
  rw [lastLine]
  by_cases hempty : r.start = r.end_
  · rw [if_pos hempty]
    have hnil := hb.unread_eq_nil.mp hempty
    refine ⟨h, [], rfl, ?_⟩
    dsimp only
    rw [hrest, hnil]
    exact .noLine
  · rw [if_neg hempty]
    have hview := toNat_sub_of_le hs
    have hne : r.unread ≠ [] := fun hnil => hempty (hb.unread_eq_nil.mpr hnil)
    rw [slice_eq hsize (by omega), done_bind, pure_eq, sat_done]
    have hnothing : rest { r with view := (r.start, r.end_ - r.start), start := r.end_ } = [] := by
      rw [rest, unread]
      dsimp only
      rw [hleft, between_self]
      rfl
    refine ⟨⟨⟨le_rfl, he, hsize⟩, h.src, h.grown, h.done⟩, r.unread, ?_, ?_⟩
    · dsimp only
      rw [hnothing, List.append_nil, hrest]
    · have hline : line { r with view := (r.start, r.end_ - r.start), start := r.end_ } = r.unread := by
        rw [line]
        dsimp only
        rw [hview]
        rfl
      dsimp only
      rw [hnothing, if_pos rfl, hline]
      exact .lastLine hno hne

theorem nextLine_sat {τ : Type} (h : r.Ok) (hfits : ∀ r₁, Asked A fuel r r₁ → r₁.Fits)
    (hfuel : 2 ^ 31 + r.src.left.length ≤ fuel) :
    Sat (fun x => x.2.Ok ∧ ∃ c, r.rest = c ++ x.2.rest ∧
        Takes (τ := τ) .nextLine (.line (if x.1 then some x.2.line else none)) c x.2.rest)
      (nextLine A fuel r) := by
  rw [nextLine]
  refine iterate_sat (fun x : Reader σ × BitVec 32 => x.1.Ok ∧ (∀ r₁, Asked A fuel x.1 r₁ → r₁.Fits)
      ∧ x.1.rest = r.rest ∧ x.2.toNat ≤ x.1.unread.length ∧ 10#8 ∉ x.1.unread.take x.2.toNat) _
    (fun x => x.1.src.left.length) ?_ fuel _ ?_ (by dsimp only; omega)
  · rintro ⟨r₁, scanned⟩ ⟨hok, hfits₁, hrest, hscan, hno⟩
    dsimp only at hok hscan hno hrest hfits₁ ⊢
    have hb := hok.bounds
    have hs := hb.start_le
    have he := hb.end_le
    have hsize := hb.size
    have hlen := hb.length_unread
    have hfrom : (r₁.start + scanned).toNat = r₁.start.toNat + scanned.toNat :=
      toNat_add_of_lt (by omega)
    rw [lineRound]
    refine sat_bind (scan_ends (by omega) he hsize (by omega)).sat ?_
    rintro i ⟨hfi, hie, hno', hten⟩
    rw [hfrom] at hfi hno'
    -- no "\n" before the scan began, and none since
    have hnone : 10#8 ∉ between r₁.win r₁.start.toNat i.toNat := by
      have htake : r₁.unread.take scanned.toNat
          = between r₁.win r₁.start.toNat (r₁.start.toNat + scanned.toNat) := by
        rw [unread, between, between, List.take_take]
        congr 1
        omega
      rw [htake] at hno
      rw [← between_append (m := r₁.start.toNat + scanned.toNat) (by omega) hfi, List.mem_append]
      exact fun hc => hc.elim hno hno'
    by_cases hlt : i.toNat < r₁.end_.toNat
    · rw [if_pos ((slt_iff (by omega) (by omega)).mpr hlt)]
      refine sat_bind (endLine_sat hok (by omega) hlt (hten hlt)) ?_
      rintro r₂ ⟨hok₂, hrest₂, hline⟩
      refine ⟨hok₂, between r₁.win r₁.start.toNat i.toNat ++ [10#8], ?_, ?_⟩
      · rw [← hrest, hrest₂]
      · dsimp only
        rw [if_pos rfl, hline]
        exact .line hnone
    · rw [if_neg fun hc => hlt ((slt_iff (by omega) (by omega)).mp hc)]
      have hno₁ : 10#8 ∉ r₁.unread := by
        have hall : r₁.unread = between r₁.win r₁.start.toNat i.toNat := by
          rw [unread, show r₁.end_.toNat = i.toNat by omega]
        rw [hall]
        exact hnone
      have hfill := fill_sat (A := A) hok (hfits₁ _ (.here hno₁)) (show 2 ^ 31 ≤ fuel by omega)
      refine sat_bind (Q := fun x => fill A fuel r₁ = done x ∧ ∃ p, Filled r₁ x.1 x.2 p) ?_ ?_
      · exact (sat_eq_done hfill.ne_outOfFuel).mono fun x hx => ⟨hx, hfill.of_eq_done hx⟩
      rintro ⟨more, r₂⟩ ⟨hdone, p, hfilled⟩
      have hunread := hfilled.unread
      have hleft := hfilled.left
      dsimp only at hfilled hunread hleft hdone ⊢
      cases more with
      | true =>
        have hp : p ≠ [] := hfilled.more rfl
        have hpos := List.length_pos_iff.mpr hp
        have hscan₂ : (r₁.end_ - r₁.start).toNat = r₁.unread.length := hb.toNat_sub
        rw [if_pos rfl]
        refine ⟨⟨hfilled.ok, fun r₃ hr₃ => hfits₁ r₃ (.more hno₁ hdone hr₃), ?_, ?_, ?_⟩, ?_⟩
        · rw [← hrest]
          exact hfilled.rest
        · dsimp only
          rw [hscan₂, hunread, List.length_append]
          omega
        · dsimp only
          rw [hscan₂, hunread, List.take_left']
          · exact hno₁
          · rfl
        · dsimp only
          rw [hleft, List.length_append]
          omega
      | false =>
        obtain ⟨rfl, hnil⟩ := hfilled.noMore rfl
        rw [List.append_nil] at hunread
        rw [if_neg (by simp)]
        refine sat_bind (lastLine_sat (τ := τ) hfilled.ok hnil (by rw [hunread]; exact hno₁)) ?_
        rintro ⟨more, r₃⟩ ⟨hok₃, c, hc, htakes⟩
        refine ⟨hok₃, c, ?_, htakes⟩
        rw [← hrest, ← hc]
        exact hfilled.rest.symm
  · refine ⟨h, hfits, rfl, Nat.zero_le _, ?_⟩
    rw [show (0#32).toNat = 0 from rfl, List.take_zero]
    exact List.not_mem_nil

/-- **A fill that does not fit does not end**, and so neither does a line that asks for it. -/
theorem fill_diverges (h : r.Ok) (hopen : r.atEnd = false) (hfits : ¬ r.Fits)
    (hlt : r.unread.length + r.need < 2 ^ 31) (hfuel : 2 ^ 31 ≤ fuel) : fill A fuel r = outOfFuel := by
  have hg := h.grown hopen
  have hmore : 2 ^ 30 < r.unread.length + r.need := Nat.lt_of_not_le fun hle => hfits (.inr hle)
  have hown : r.unread.length ≤ 2 ^ 30 := by
    obtain ⟨j, hj, hwin⟩ := hg
    have hpow : 2 ^ j ≤ 2 ^ 17 := Nat.pow_le_pow_right (by decide) hj
    have he := h.bounds.end_le
    rw [h.bounds.length_unread]
    omega
  rw [need] at hmore hlt
  rw [fill, hopen, if_neg (by simp), ask]
  cases hsrc : r.src with
  | fd s =>
    rw [hsrc] at hmore hlt
    have hmore : 2 ^ 30 < r.unread.length + (4096#32).toNat := hmore
    dsimp only
    rw [fillFd, makeRoom_diverges h.bounds hg hmore hlt hfuel]
    rfl
  | memory =>
    rw [hsrc] at hmore
    dsimp only at hmore
    omega
  | custom s =>
    rw [hsrc] at hmore hlt
    dsimp only at hmore hlt ⊢
    cases hpieces : s.pieces with
    | nil =>
      rw [hpieces, List.headD_nil, List.length_nil] at hmore
      omega
    | cons p ps =>
      rw [hpieces, List.headD_cons] at hmore hlt
      have hlen := toNat_arrLen (show p.length < 2 ^ 32 by omega)
      rw [fillCustom, callFill, hpieces]
      dsimp only
      rw [not_slt_zero (by omega), if_neg (by simp)]
      rw [makeRoom_diverges (r := { r with src := .custom { s with pieces := ps } })
        ⟨h.bounds.start_le, h.bounds.end_le, h.bounds.size⟩ hg (by rw [hlen]; exact hmore)
        (by rw [hlen]; exact hlt) hfuel]
      rfl

theorem nextLine_diverges (h : r.Ok) (hopen : r.atEnd = false) (hno : 10#8 ∉ r.unread)
    (hfits : ¬ r.Fits) (hlt : r.unread.length + r.need < 2 ^ 31) (hfuel : 2 ^ 31 ≤ fuel) :
    nextLine A fuel r = outOfFuel := by
  have hb := h.bounds
  have hs := hb.start_le
  have he := hb.end_le
  have hsize := hb.size
  obtain ⟨i, hscan, hsi, hie, -, hten⟩ := (scan_ends hs he hsize hfuel).exists
  have hnot : ¬ i.toNat < r.end_.toNat := by
    intro hi
    refine hno (List.mem_iff_getElem?.mpr ⟨i.toNat - r.start.toNat, ?_⟩)
    rw [unread, getElem?_between, if_pos (by omega), Nat.add_sub_cancel' hsi]
    exact hten hi
  obtain ⟨f, rfl⟩ : ∃ f, fuel = f + 1 := ⟨fuel - 1, by omega⟩
  rw [nextLine, iterate, lineRound, BitVec.add_zero, hscan, done_bind,
    if_neg fun hc => hnot ((slt_iff (by omega) (by omega)).mp hc),
    fill_diverges h hopen hfits hlt hfuel]
  rfl

/-! ### Bytes -/

theorem Ok.fits_of_empty (h : r.Ok) (hempty : r.unread = []) : r.Fits := by
  refine .inr ?_
  have hsrc := h.src
  rw [hempty, need]
  cases hs : r.src with
  | fd s => exact (by decide : 0 + 4096 ≤ 2 ^ 30)
  | memory => exact Nat.zero_le _
  | custom s =>
    rw [hs] at hsrc
    dsimp only
    cases hp : s.pieces with
    | nil => decide
    | cons p ps =>
      have hle := (hsrc p (by rw [hp]; exact List.mem_cons_self)).2
      simpa using hle

theorem fillEmpty_sat (h : r.Ok) (hfuel : 2 ^ 31 ≤ fuel) :
    Sat (fun x => x.2.Ok ∧ x.2.rest = r.rest ∧ (x.1 = true → x.2.unread ≠ [])
        ∧ (x.1 = false → x.2.rest = [])) (fillEmpty A fuel r) := by
  rw [fillEmpty]
  by_cases hempty : r.start = r.end_
  · rw [if_pos hempty]
    have hnil := h.bounds.unread_eq_nil.mp hempty
    refine (fill_sat h (h.fits_of_empty hnil) hfuel).mono ?_
    rintro ⟨more, r'⟩ ⟨p, hfilled⟩
    have hunread := hfilled.unread
    dsimp only at hfilled hunread ⊢
    rw [hnil, List.nil_append] at hunread
    refine ⟨hfilled.ok, hfilled.rest, fun hmore => ?_, fun hmore => ?_⟩
    · rw [hunread]
      exact hfilled.more hmore
    · obtain ⟨hp, hleft⟩ := hfilled.noMore hmore
      rw [rest, hunread, hp, hleft]
      rfl
  · rw [if_neg hempty]
    exact ⟨h, rfl, fun _ hnil => hempty (h.bounds.unread_eq_nil.mpr hnil), nofun⟩

theorem Bounds.head (h : r.Bounds) (hne : r.unread ≠ []) :
    ∃ b, r.win[r.start.toNat]? = some b ∧ r.start.toNat < r.end_.toNat
      ∧ r.unread = b :: between r.win (r.start.toNat + 1) r.end_.toNat := by
  have hs := h.start_le
  have he := h.end_le
  have hpos := List.length_pos_iff.mpr hne
  rw [h.length_unread] at hpos
  have hget : r.win[r.start.toNat]? = some r.win[r.start.toNat] := List.getElem?_eq_getElem (by omega)
  refine ⟨_, hget, by omega, ?_⟩
  rw [unread, ← between_append (Nat.le_succ _) (by omega), between_one hget]
  rfl

/-- What `peek_byte` returns: the first byte left, at the window's start, or -1. -/
structure Peeked (r : Reader σ) (c : BitVec 32) (r' : Reader σ) : Prop where
  ok : r'.Ok
  rest : r'.rest = r.rest
  first : c = -1#32 ∧ r'.rest = [] ∨ ∃ b, c = b.setWidth 32 ∧ r'.start.toNat < r'.end_.toNat
    ∧ r'.rest = b :: (between r'.win (r'.start.toNat + 1) r'.end_.toNat ++ r'.src.left)

theorem peekByte_sat (h : r.Ok) (hfuel : 2 ^ 31 ≤ fuel) :
    Sat (fun x => Peeked r x.1 x.2) (peekByte A fuel r) := by
  rw [peekByte]
  refine sat_bind (fillEmpty_sat h hfuel) ?_
  rintro ⟨more, r'⟩ ⟨hok, hrest, hmore, hdone⟩
  dsimp only at hok hrest hmore hdone ⊢
  cases more with
  | false =>
    rw [if_neg (by simp)]
    exact ⟨hok, hrest, .inl ⟨rfl, hdone rfl⟩⟩
  | true =>
    rw [if_pos rfl]
    obtain ⟨b, hget, hlt, hcons⟩ := hok.bounds.head (hmore rfl)
    rw [byteAt_eq hok.bounds.size hget, done_bind, pure_eq, sat_done]
    refine ⟨hok, hrest, .inr ⟨b, rfl, hlt, ?_⟩⟩
    dsimp only
    rw [Reader.rest, hcons, List.cons_append]

/-- A byte, as `read_byte` returns it, is not -1. -/
theorem toNat_byte_lt (b : BitVec 8) : (b.setWidth 32).toNat < 2 ^ 8 := by
  rw [BitVec.toNat_setWidth_of_le (by decide)]
  exact b.isLt

theorem readByte_sat {τ : Type} (h : r.Ok) (hfuel : 2 ^ 31 ≤ fuel) :
    Sat (fun x => x.2.Ok ∧ ∃ c, r.rest = c ++ x.2.rest ∧
        Takes (τ := τ) .readByte (.byte x.1) c x.2.rest) (readByte A fuel r) := by
  rw [readByte]
  refine sat_bind (peekByte_sat h hfuel) ?_
  rintro ⟨c, r'⟩ ⟨hok, hrest, hfirst⟩
  dsimp only at hok hrest hfirst ⊢
  rcases hfirst with ⟨rfl, hnil⟩ | ⟨b, rfl, hlt, hcons⟩
  · rw [if_neg (by decide), pure_eq, sat_done]
    refine ⟨hok, [], hrest.symm, ?_⟩
    dsimp only
    rw [hnil]
    exact .noByte
  · have hbyte := toNat_byte_lt b
    have hb := hok.bounds
    have he := hb.end_le
    have hsize := hb.size
    have h1 : (r'.start + 1#32).toNat = r'.start.toNat + 1 := toNat_succ (by omega)
    rw [if_pos (zero_sle (by omega)), pure_eq, sat_done]
    have hrest' : Reader.rest { r' with start := r'.start + 1#32 }
        = between r'.win (r'.start.toNat + 1) r'.end_.toNat ++ r'.src.left := by
      rw [Reader.rest, unread]
      dsimp only
      rw [h1]
    refine ⟨⟨⟨?_, he, hsize⟩, hok.src, hok.grown, hok.done⟩, [b], ?_, ?_⟩
    · dsimp only
      omega
    · dsimp only
      rw [hrest', ← hrest, hcons]
      rfl
    · exact .byte b _

theorem read_sat {τ : Type} {B : Allocator τ} {into : Content τ} {max : BitVec 32} (h : r.Ok)
    (hinto : ∀ r', fillEmpty A fuel r = done (true, r') →
      into.Room (BitVec.ofNat 32 (min max.toNat r'.unread.length))) (hfuel : 2 ^ 31 ≤ fuel) :
    Sat (fun x => x.2.1.Ok ∧ ∃ c, r.rest = c ++ x.2.1.rest ∧
        Takes (.read into max) (.read x.1 x.2.2) c x.2.1.rest) (read A fuel B r into max) := by
  rw [read]
  refine sat_bind (Q := fun _ => 0 < max.toInt) (sat_require fun hreq => ?_) fun _ hmax => ?_
  · simpa [BitVec.slt_eq_decide] using hreq
  obtain ⟨hmaxN, hmaxlt⟩ := toInt_of_nonneg hmax.le
  have hfill := fillEmpty_sat (A := A) h hfuel
  refine sat_bind (Q := fun x => fillEmpty A fuel r = done x ∧ x.2.Ok ∧ x.2.rest = r.rest
    ∧ (x.1 = true → x.2.unread ≠ []) ∧ (x.1 = false → x.2.rest = [])) ?_ ?_
  · exact (sat_eq_done hfill.ne_outOfFuel).mono fun x hx => ⟨hx, hfill.of_eq_done hx⟩
  rintro ⟨more, r'⟩ ⟨hdone, hok, hrest, hmore, hnone⟩
  dsimp only at hdone hok hrest hmore hnone ⊢
  cases more with
  | false =>
    rw [if_neg (by simp), pure_eq, sat_done]
    refine ⟨hok, [], hrest.symm, ?_⟩
    dsimp only
    rw [hnone rfl]
    refine .noRead ?_
    split
    · exact .inr rfl
    · exact .inl rfl
  | true =>
    rw [if_pos rfl]
    have hb := hok.bounds
    have hs := hb.start_le
    have he := hb.end_le
    have hsize := hb.size
    have hlen := hb.length_unread
    have hleft := hb.toNat_sub
    have hpos := List.length_pos_iff.mpr (hmore rfl)
    obtain ⟨n, hn, hnN⟩ : ∃ n, (if max.slt (r'.end_ - r'.start) then max else r'.end_ - r'.start) = n
        ∧ n.toNat = min max.toNat r'.unread.length := by
      refine ⟨_, rfl, ?_⟩
      have hslt := slt_iff (x := max) (y := r'.end_ - r'.start) (by omega) (by omega)
      by_cases hc : max.toNat < (r'.end_ - r'.start).toNat
      · rw [if_pos (hslt.mpr hc), Nat.min_eq_left (by omega)]
      · rw [if_neg fun h' => hc (hslt.mp h'), Nat.min_eq_right (by omega), hleft]
    have hnle : n.toNat ≤ r'.unread.length := hnN.trans_le (Nat.min_le_right _ _)
    have hnmax : n.toNat ≤ max.toNat := hnN.trans_le (Nat.min_le_left _ _)
    have hnpos : 0 < n.toNat := hnN.symm ▸ Nat.lt_min.mpr ⟨by omega, hpos⟩
    rw [hn, slice_eq hsize (by omega), done_bind]
    dsimp only
    have htaken : ((r'.win.drop r'.start.toNat).take n.toNat)
        = between r'.win r'.start.toNat (r'.start.toNat + n.toNat) := by
      rw [between, Nat.add_sub_cancel_left]
    have hcount : (between r'.win r'.start.toNat (r'.start.toNat + n.toNat)).length = n.toNat := by
      rw [length_between (by omega), Nat.add_sub_cancel_left]
    have harr : arrLen (between r'.win r'.start.toNat (r'.start.toNat + n.toNat)) = n := by
      rw [arrLen, hcount, BitVec.ofNat_toNat, BitVec.setWidth_eq]
    have hroom := hinto r' hdone
    rw [← hnN, BitVec.ofNat_toNat, BitVec.setWidth_eq] at hroom
    rw [htaken]
    refine sat_bind (Content.pushBytes_room_sat (by rw [harr]; exact hroom) hfuel) fun into' hinto' => ?_
    have hsn : (r'.start + n).toNat = r'.start.toNat + n.toNat := toNat_add_of_lt (by omega)
    refine ⟨⟨⟨?_, he, hsize⟩, hok.src, hok.grown, hok.done⟩,
      between r'.win r'.start.toNat (r'.start.toNat + n.toNat), ?_, ?_⟩
    · dsimp only
      omega
    · rw [← hrest, Reader.rest, Reader.rest, unread, unread]
      dsimp only
      rw [hsn, ← List.append_assoc, between_append (by omega) (by omega)]
    · have htakes : Takes (.read into max)
          (.read (arrLen (between r'.win r'.start.toNat (r'.start.toNat + n.toNat))) into')
          (between r'.win r'.start.toNat (r'.start.toNat + n.toNat))
          (Reader.rest { r' with start := r'.start + n }) := by
        refine .read (fun hnil => ?_) (by omega) hinto'
        rw [hnil, List.length_nil] at hcount
        omega
      rw [harr] at htakes
      exact htakes

end Reader

/-! ### Every operation -/

variable {τ : Type} {B : Allocator τ}

def Op.run (A : Allocator σ) (B : Allocator τ) (fuel : Nat) (r : Reader σ) :
    Op τ → Outcome (Result τ × Reader σ)
  | .nextLine => do
    let (more, r) ← r.nextLine A fuel
    pure (.line (if more then some r.line else none), r)
  | .readByte => do
    let (c, r) ← r.readByte A fuel
    pure (.byte c, r)
  | .peekByte => do
    let (c, r) ← r.peekByte A fuel
    pure (.byte c, r)
  | .read into max => do
    let (n, r, into) ← r.read A fuel B into max
    pure (.read n into, r)

/-- **When an operation ends**: at every reader `next_line` asks for more in, doubling reaches room
for it; the buffer read into has room for what is read. -/
def Op.Fits (A : Allocator σ) (fuel : Nat) (r : Reader σ) : Op τ → Prop
  | .nextLine => ∀ r₁, Reader.Asked A fuel r r₁ → r₁.Fits
  | .readByte | .peekByte => True
  | .read into max => ∀ r₁, r.fillEmpty A fuel = done (true, r₁) →
      into.Room (BitVec.ofNat 32 (min max.toNat r₁.unread.length))

/-- **One operation** takes bytes off the front of what is left. -/
theorem run_sat {r : Reader σ} (h : r.Ok) {op : Op τ} (hop : op.Fits A fuel r)
    (hfuel : 2 ^ 31 + r.src.left.length ≤ fuel) :
    Sat (fun x => x.2.Ok ∧ ∃ c, r.rest = c ++ x.2.rest ∧ Takes op x.1 c x.2.rest)
      (op.run A B fuel r) := by
  cases op with
  | nextLine =>
    refine sat_bind (Reader.nextLine_sat (τ := τ) h hop hfuel) ?_
    rintro ⟨more, r'⟩ ⟨hok, c, hc, htakes⟩
    exact ⟨hok, c, hc, htakes⟩
  | readByte =>
    refine sat_bind (Reader.readByte_sat (τ := τ) h (by omega)) ?_
    rintro ⟨b, r'⟩ ⟨hok, c, hc, htakes⟩
    exact ⟨hok, c, hc, htakes⟩
  | peekByte =>
    refine sat_bind (Reader.peekByte_sat h (by omega)) ?_
    rintro ⟨c, r'⟩ ⟨hok, hrest, hfirst⟩
    refine ⟨hok, [], hrest.symm, ?_⟩
    rcases hfirst with ⟨rfl, hnil⟩ | ⟨b, rfl, -, hcons⟩
    · dsimp only at hnil ⊢
      rw [hnil]
      exact .noPeek
    · dsimp only at hcons ⊢
      rw [hcons]
      exact .peek b _
  | read into max =>
    refine sat_bind (Reader.read_sat h hop (by omega)) ?_
    rintro ⟨n, r', into'⟩ ⟨hok, c, hc, htakes⟩
    exact ⟨hok, c, hc, htakes⟩

end Aipl.StdStream
