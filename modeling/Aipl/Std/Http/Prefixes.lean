import Aipl.Std.Http.Grammar

/-! # What is read does not depend on what follows, and is not read early

* `splitLine_extend`, `readFields_extend`, `readBody_extend` — what is read off some bytes is read off any that begin
  with it; `splitLine_cut`, `readFields_cut`, `readBody_cut` — of less than all of it, it is cut short.
* `Parts.extend`, `Parts.cut` — of a message without chunks, both.
-/

namespace Aipl.StdHttp.Wire

open Aipl.Lib Aipl.StdHttp

/-! ### Lines -/

section

variable {bs rest l : List Byte} {t k : Nat}

theorem splitLine_extend (h : splitLine bs = some (l, t)) : splitLine (bs.take t ++ rest) = some (l, t) := by
  obtain ⟨hline, hle, -⟩ := of_splitLine h
  rw [splitLine_append hline, List.length_take, Nat.min_eq_left hle]

theorem splitLine_cut (h : splitLine bs = some (l, t)) (hk : k < t) : splitLine (bs.take k) = none := by
  obtain ⟨hline, hle, -⟩ := of_splitLine h
  rw [splitLine_eq_none]
  have htake : bs.take k = (bs.take t).take k := by rw [List.take_take, Nat.min_eq_left hk.le]
  have hlen : (bs.take t).length = t := by rw [List.length_take, Nat.min_eq_left hle]
  rw [htake]
  generalize bs.take t = s at hline hlen
  intro hmem
  cases hline with
  | lf hnot _ =>
    rw [List.length_append, List.length_singleton] at hlen
    rw [List.take_append_of_le_length (by omega)] at hmem
    exact hnot (List.mem_of_mem_take hmem)
  | crlf hnot =>
    have hsplit : l ++ [13#8, 10#8] = (l ++ [13#8]) ++ [10#8] := by simp
    rw [List.length_append, List.length_cons, List.length_singleton] at hlen
    rw [hsplit, List.take_append_of_le_length (by simp; omega)] at hmem
    have hcr : 10#8 ∉ l ++ [13#8] := by simp [hnot]
    exact hcr (List.mem_of_mem_take hmem)

/-- Bytes that are cut behind a line are the line, and what is cut behind it. -/
theorem take_add_line (n k : Nat) : bs.take (n + k) = bs.take n ++ (bs.drop n).take k := List.take_add

theorem drop_line (hle : t ≤ bs.length) : (bs.take t ++ rest).drop t = rest := by
  rw [List.drop_append_of_le_length (by rw [List.length_take]; omega), List.drop_eq_nil_of_le (by simp),
    List.nil_append]

end

/-! ### The head -/

section

variable {bs rest : List Byte} {t k left : Nat} {early early' : Bool} {fs : List Field}

theorem readFields_extend (h : readFields early left bs = .ok (fs, t)) :
    readFields early' left (bs.take t ++ rest) = .ok (fs, t) := by
  induction left, bs using readFields.induct generalizing fs t with
  | case1 left bs hline =>
    rw [readFields_none hline] at h
    cases h
  | case2 left bs n hline =>
    rw [readFields_nil hline] at h
    cases h
    exact readFields_nil (splitLine_extend hline)
  | case3 left bs line n hline hne ih =>
    rw [readFields_line hline hne] at h
    obtain ⟨f, hf, h⟩ := of_bind_ok h
    obtain ⟨hleft, h⟩ := of_must h
    obtain ⟨⟨fs', t'⟩, hfs, h⟩ := of_bind_ok h
    cases h
    obtain ⟨-, hle, -⟩ := of_splitLine hline
    rw [take_add_line, List.append_assoc, readFields_line (splitLine_extend hline) hne, hf, hleft, drop_line hle]
    change (readFields early' (left - 1) ((bs.drop n).take t' ++ rest) >>= _) = _
    rw [ih hfs]
    rfl

theorem readFields_cut (h : readFields early left bs = .ok (fs, t)) (hk : k < t) :
    readFields true left (bs.take k) = .error true := by
  induction left, bs using readFields.induct generalizing fs t k with
  | case1 left bs hline =>
    rw [readFields_none hline] at h
    cases h
  | case2 left bs n hline =>
    rw [readFields_nil hline] at h
    cases h
    exact readFields_none (splitLine_cut hline hk)
  | case3 left bs line n hline hne ih =>
    rw [readFields_line hline hne] at h
    obtain ⟨f, hf, h⟩ := of_bind_ok h
    obtain ⟨hleft, h⟩ := of_must h
    obtain ⟨⟨fs', t'⟩, hfs, h⟩ := of_bind_ok h
    cases h
    obtain ⟨-, hle, -⟩ := of_splitLine hline
    rcases Nat.lt_or_ge k n with hkn | hnk
    · exact readFields_none (splitLine_cut hline hkn)
    · obtain ⟨j, rfl⟩ := Nat.exists_eq_add_of_le hnk
      rw [take_add_line, readFields_line (splitLine_extend hline) hne, hf, hleft, drop_line hle]
      change (readFields true (left - 1) ((bs.drop n).take j) >>= _) = _
      rw [ih hfs (by omega)]
      rfl

end

/-- The limit, and the lines of a head that is read. -/
theorem of_readHead {bs : List Byte} {request : Bool} {limit left p : Nat} {head : Head}
    (h : readHead request limit left bs = .ok (head, p)) :
    ∃ line t start n, splitLine (bs.take limit) = some (line, t) ∧ readStartLine request line = .ok start
      ∧ readFields (decide (bs.length < limit)) left ((bs.take limit).drop t) = .ok (head.fields, n)
      ∧ head = { start with fields := head.fields } ∧ p = t + n ∧ p ≤ limit ∧ p ≤ bs.length := by
  obtain ⟨hp, -, -⟩ := readHead_sound h
  rw [readHead] at h
  cases hline : splitLine (bs.take limit) with
  | none =>
    rw [hline] at h
    cases h
  | some lt =>
    obtain ⟨line, t⟩ := lt
    rw [hline] at h
    obtain ⟨start, hstart, h⟩ := of_bind_ok h
    obtain ⟨⟨fs, n⟩, hfs, h⟩ := of_bind_ok h
    cases h
    obtain ⟨-, hle, -⟩ := of_splitLine hline
    obtain ⟨hn, -⟩ := readFields_sound hfs
    have hmin : (bs.take limit).length = min limit bs.length := List.length_take
    rw [List.length_drop] at hn
    exact ⟨line, t, start, n, rfl, hstart, hfs, rfl, rfl, by omega, hp⟩

section

variable {bs rest : List Byte} {request : Bool} {limit left p k : Nat} {head : Head}

theorem readHead_extend (h : readHead request limit left bs = .ok (head, p)) :
    readHead request limit left (bs.take p ++ rest) = .ok (head, p) := by
  obtain ⟨line, t, start, n, hline, hstart, hfs, hhead, rfl, hlimit, hp⟩ := of_readHead h
  obtain ⟨-, hle, -⟩ := of_splitLine hline
  have hparts : (bs.take (t + n) ++ rest).take limit
      = (bs.take limit).take t ++ (((bs.take limit).drop t).take n ++ rest.take (limit - (t + n))) := by
    rw [List.take_append, List.length_take, Nat.min_eq_left hp, List.take_take, Nat.min_eq_right hlimit,
      ← List.append_assoc, ← List.take_add, List.take_take, Nat.min_eq_left hlimit]
  rw [readHead, hparts, splitLine_extend hline]
  change (readStartLine request line >>= _) = _
  rw [hstart, drop_line hle]
  change (readFields _ left _ >>= _) = _
  rw [readFields_extend hfs]
  exact congrArg (fun head => Except.ok (head, t + n)) hhead.symm

theorem readHead_cut (h : readHead request limit left bs = .ok (head, p)) (hk : k < p) :
    readHead request limit left (bs.take k) = .error true := by
  obtain ⟨line, t, start, n, hline, hstart, hfs, hhead, rfl, hlimit, hp⟩ := of_readHead h
  obtain ⟨-, hle, -⟩ := of_splitLine hline
  have hearly : decide ((bs.take k).length < limit) = true := by
    rw [decide_eq_true_eq, List.length_take]
    omega
  have hall : (bs.take k).take limit = (bs.take limit).take k := by
    rw [List.take_take, List.take_take, Nat.min_comm]
  rw [readHead, hearly, hall]
  rcases Nat.lt_or_ge k t with hkt | htk
  · rw [splitLine_cut hline hkt]
  · obtain ⟨j, rfl⟩ := Nat.exists_eq_add_of_le htk
    rw [take_add_line, splitLine_extend hline]
    change (readStartLine request line >>= _) = _
    rw [hstart, drop_line hle]
    change (readFields true left _ >>= _) = _
    rw [readFields_cut hfs (by omega)]
    rfl

end

/-! ### The body -/

section

variable {bs rest : List Byte} {t k : Nat}

theorem readTrailers_extend (h : readTrailers bs = .ok t) : readTrailers (bs.take t ++ rest) = .ok t := by
  induction bs using readTrailers.induct generalizing t with
  | case1 bs hline =>
    rw [readTrailers_none hline] at h
    cases h
  | case2 bs n hline =>
    rw [readTrailers_nil hline] at h
    cases h
    exact readTrailers_nil (splitLine_extend hline)
  | case3 bs line n hline hne ih =>
    rw [readTrailers_line hline hne] at h
    obtain ⟨t', ht, h⟩ := of_bind_ok h
    cases h
    obtain ⟨-, hle, -⟩ := of_splitLine hline
    rw [take_add_line, List.append_assoc, readTrailers_line (splitLine_extend hline) hne, drop_line hle, ih ht]
    rfl

theorem readTrailers_cut (h : readTrailers bs = .ok t) (hk : k < t) : readTrailers (bs.take k) = .error true := by
  induction bs using readTrailers.induct generalizing t k with
  | case1 bs hline =>
    rw [readTrailers_none hline] at h
    cases h
  | case2 bs n hline =>
    rw [readTrailers_nil hline] at h
    cases h
    exact readTrailers_none (splitLine_cut hline hk)
  | case3 bs line n hline hne ih =>
    rw [readTrailers_line hline hne] at h
    obtain ⟨t', ht, h⟩ := of_bind_ok h
    cases h
    obtain ⟨-, hle, -⟩ := of_splitLine hline
    rcases Nat.lt_or_ge k n with hkn | hnk
    · exact readTrailers_none (splitLine_cut hline hkn)
    · obtain ⟨j, rfl⟩ := Nat.exists_eq_add_of_le hnk
      rw [take_add_line, readTrailers_line (splitLine_extend hline) hne, drop_line hle, ih ht (by omega)]
      rfl

/-- A body without chunks. -/
theorem of_readChunks_nil {limit total : Nat} (h : readChunks limit total bs = .ok ([], t)) :
    ∃ line n m, splitLine bs = some (line, n) ∧ readSize line = .ok 0 ∧ readTrailers (bs.drop n) = .ok m
      ∧ t = n + m := by
  cases hline : splitLine bs with
  | none =>
    rw [readChunks_none hline] at h
    cases h
  | some lt =>
    obtain ⟨line, n⟩ := lt
    rw [readChunks_line hline] at h
    obtain ⟨size, hsize, h⟩ := of_bind_ok h
    by_cases hlast : size = 0
    · subst hlast
      obtain ⟨m, hm, h⟩ := of_bind_ok h
      cases h
      exact ⟨line, n, m, rfl, hsize, hm, rfl⟩
    · rw [if_neg hlast] at h
      obtain ⟨⟨data, e⟩, hdata, h⟩ := of_bind_ok h
      obtain ⟨⟨body, m⟩, -, h⟩ := of_bind_ok h
      injection h with h
      injection h with hnil _
      obtain ⟨-, hlen, -⟩ := readData_sound hdata
      rw [(List.append_eq_nil_iff.mp hnil).1] at hlen
      exact absurd hlen.symm hlast

/-- A body with chunks, cut behind the bytes of the first: the reading says that a line end is missing. -/
theorem of_readChunks_cons {limit total : Nat} {body : List Byte} (h : readChunks limit total bs = .ok (body, t))
    (hne : body ≠ []) :
    ∃ line n size, splitLine bs = some (line, n) ∧ readSize line = .ok size ∧ 0 < size
      ∧ size ≤ (bs.drop n).length ∧ n + size < t
      ∧ readData limit total size ((bs.drop n).take size) = .error false
      ∧ readChunks limit total (bs.take (n + size)) = .error false := by
  cases hline : splitLine bs with
  | none =>
    rw [readChunks_none hline] at h
    cases h
  | some lt =>
    obtain ⟨line, n⟩ := lt
    obtain ⟨-, hle, -⟩ := of_splitLine hline
    rw [readChunks_line hline] at h
    obtain ⟨size, hsize, h⟩ := of_bind_ok h
    by_cases hlast : size = 0
    · rw [if_pos hlast] at h
      obtain ⟨m, -, h⟩ := of_bind_ok h
      cases h
      exact absurd rfl hne
    · rw [if_neg hlast] at h
      obtain ⟨⟨data, e⟩, hdata, h⟩ := of_bind_ok h
      obtain ⟨⟨body', m⟩, -, h⟩ := of_bind_ok h
      cases h
      obtain ⟨hlimit, -, hlt, hdle, -⟩ := readData_sound hdata
      have hlen : ((bs.drop n).take size).length = size := by
        rw [List.length_take]
        omega
      have hnone : splitLine (((bs.drop n).take size).drop size) = none := by
        rw [List.drop_eq_nil_of_le hlen.le]
        rfl
      have hcut : readData limit total size ((bs.drop n).take size) = .error false := by
        rw [readData, decide_eq_true hlimit]
        change (if _ then _ else _) = _
        rw [if_neg (by omega), hnone]
      refine ⟨line, n, size, rfl, hsize, by omega, by omega, by omega, hcut, ?_⟩
      rw [take_add_line, readChunks_line (splitLine_extend hline), hsize]
      change (if _ then _ else _) = _
      rw [if_neg hlast, drop_line hle, hcut]
      rfl

theorem readChunks_extend {limit total : Nat} (h : readChunks limit total bs = .ok ([], t)) :
    readChunks limit total (bs.take t ++ rest) = .ok ([], t) := by
  obtain ⟨line, n, m, hline, hsize, hm, rfl⟩ := of_readChunks_nil h
  obtain ⟨-, hle, -⟩ := of_splitLine hline
  rw [take_add_line, List.append_assoc, readChunks_line (splitLine_extend hline), hsize]
  change (readTrailers _ >>= _) = _
  rw [drop_line hle, readTrailers_extend hm]
  rfl

theorem readChunks_cut {limit total : Nat} (h : readChunks limit total bs = .ok ([], t)) (hk : k < t) :
    readChunks limit total (bs.take k) = .error true := by
  obtain ⟨line, n, m, hline, hsize, hm, rfl⟩ := of_readChunks_nil h
  obtain ⟨-, hle, -⟩ := of_splitLine hline
  rcases Nat.lt_or_ge k n with hkn | hnk
  · exact readChunks_none (splitLine_cut hline hkn)
  · obtain ⟨j, rfl⟩ := Nat.exists_eq_add_of_le hnk
    rw [take_add_line, readChunks_line (splitLine_extend hline), hsize]
    change (readTrailers _ >>= _) = _
    rw [drop_line hle, readTrailers_cut hm (by omega)]
    rfl

end

section

variable {bs rest body : List Byte} {limit n k : Nat} {f : Framing}

/-- A body that its framing delimits, read off bytes that begin with it. -/
theorem readBody_extend (h : readBody limit bs f = .ok (body, n)) (hchunks : f = .chunked → body = [])
    (hrest : f ≠ .rest) : readBody limit (bs.take n ++ rest) f = .ok (body, n) := by
  cases f with
  | none => exact h
  | chunked =>
    obtain rfl := hchunks rfl
    exact readChunks_extend h
  | length m =>
    rw [readBody] at h
    obtain ⟨hlimit, h⟩ := of_must h
    by_cases hshort : bs.length < m
    · rw [if_pos hshort] at h
      cases h
    · rw [if_neg hshort] at h
      cases h
      have hlen : (bs.take n).length = n := by
        rw [List.length_take]
        omega
      rw [readBody, hlimit]
      change (if _ then _ else _) = _
      rw [if_neg (by rw [List.length_append]; omega), List.take_append_of_le_length hlen.ge, List.take_take,
        Nat.min_self]
      rfl
  | rest => exact absurd rfl hrest

theorem readBody_cut (h : readBody limit bs f = .ok (body, n)) (hchunks : f = .chunked → body = [])
    (hrest : f ≠ .rest) (hk : k < n) : readBody limit (bs.take k) f = .error true := by
  cases f with
  | none =>
    cases h
    omega
  | chunked =>
    obtain rfl := hchunks rfl
    exact readChunks_cut h hk
  | length m =>
    rw [readBody] at h
    obtain ⟨hlimit, h⟩ := of_must h
    by_cases hshort : bs.length < m
    · rw [if_pos hshort] at h
      cases h
    · rw [if_neg hshort] at h
      cases h
      rw [readBody, hlimit]
      change (if _ then _ else _) = _
      rw [if_pos (by rw [List.length_take]; omega)]
  | rest => exact absurd rfl hrest

end

theorem BodyOf.le {bs body : List Byte} {f : Framing} {n : Nat} (h : BodyOf bs f body n) : n ≤ bs.length := by
  cases h with
  | none => exact Nat.zero_le _
  | chunked hle _ => exact hle
  | length hle => exact hle
  | rest => exact le_rfl

/-! ### Messages -/

/-- The parts of a message that is read. -/
structure Parts (lim : Limits) (request : Bool) (bs : List Byte) (r : Read) (p n : Nat) (f : Framing) : Prop where
  head : readHead request lim.headBytes.toNat lim.headers.toNat bs = .ok (r.head, p)
  framing : framing request r.head = .ok f
  body : readBody lim.bodyBytes.toNat (bs.drop p) f = .ok (r.body, n)
  length : r.length = p + n

/-- The parts of a message that the list is read as. -/
theorem of_read {lim : Limits} {request : Bool} {bs : List Byte} {r : Read} (h : read lim request bs = .ok r) :
    ∃ p n f, Parts lim request bs r p n f := by
  rw [read] at h
  obtain ⟨⟨head, p⟩, hhead, h⟩ := of_bind_ok h
  obtain ⟨f, hf, h⟩ := of_bind_ok h
  obtain ⟨⟨body, n⟩, hbody, h⟩ := of_bind_ok h
  cases h
  exact ⟨p, n, f, hhead, hf, hbody, rfl⟩

namespace Parts

variable {lim : Limits} {request : Bool} {bs rest : List Byte} {r : Read} {p n k : Nat} {f : Framing}

theorem read (h : Parts lim request bs r p n f) : read lim request bs = .ok r := by
  rw [Wire.read, h.head]
  change (Wire.framing request r.head >>= _) = _
  rw [h.framing]
  change (readBody _ _ f >>= _) = _
  rw [h.body]
  change Except.ok (⟨r.head, r.body, p + n⟩ : Read) = _
  rw [← h.length]

theorem le (h : Parts lim request bs r p n f) : p + n ≤ bs.length := by
  obtain ⟨hp, -, -⟩ := readHead_sound h.head
  obtain ⟨hbody, -⟩ := readBody_sound h.body
  have hlen : (bs.drop p).length = bs.length - p := List.length_drop
  have hn := hbody.le
  omega

/-- **A message is read off any bytes that begin with it.** -/
theorem extend (h : Parts lim request bs r p n f) (hchunks : f = .chunked → r.body = []) (hrest : f ≠ .rest) :
    Parts lim request (bs.take (p + n) ++ rest) r p n f := by
  obtain ⟨hp, -, -⟩ := readHead_sound h.head
  refine ⟨?_, h.framing, ?_, h.length⟩
  · rw [take_add_line, List.append_assoc]
    exact readHead_extend h.head
  · rw [take_add_line, List.append_assoc, drop_line hp]
    exact readBody_extend h.body hchunks hrest

/-- **Of less than all of it**, the reading says that it is cut short. -/
theorem cut (h : Parts lim request bs r p n f) (hchunks : f = .chunked → r.body = []) (hrest : f ≠ .rest)
    (hk : k < p + n) : Wire.read lim request (bs.take k) = .error true := by
  obtain ⟨hp, -, -⟩ := readHead_sound h.head
  rw [Wire.read]
  rcases Nat.lt_or_ge k p with hkp | hpk
  · rw [readHead_cut h.head hkp]
    rfl
  · obtain ⟨j, rfl⟩ := Nat.exists_eq_add_of_le hpk
    rw [take_add_line, readHead_extend h.head]
    change (Wire.framing request r.head >>= _) = _
    rw [h.framing]
    change (readBody _ _ f >>= _) = _
    rw [drop_line hp, readBody_cut h.body hchunks hrest (by omega)]
    rfl

end Parts

end Aipl.StdHttp.Wire
