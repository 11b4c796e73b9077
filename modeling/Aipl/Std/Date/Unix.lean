import Aipl.Lib.Wasm.Ints
import Aipl.Std.Date.Calendar

/-! # Unix time

* `fromUnixParts_toUnix`, `fromUnixParts_ends` — Unix time as a date, and back.
* `toUnix_lt` — dates in order.
* `calendar_bijection` — the calendar is a bijection.
* `nanoseconds_iff` — nanoseconds make the trip but in the first and the last second of an `i64`.
-/

namespace Aipl.StdDate

open Aipl.Lib Aipl.Lib.Outcome Aipl.Lib.Wasm

def fromUnixNs (ns : Int) : Outcome Date :=
  let (secs, rest) :=
    if ns.tmod NS < 0 then (ns.tdiv NS - 1, ns.tmod NS + NS)
    else (ns.tdiv NS, ns.tmod NS)
  fromUnixParts secs (wrapI32 rest)

/-- `to_unix_ns`; its product and its sum wrap. -/
def toUnixNs (d : Date) : Outcome Int := do
  require (-9223372036 ≤ toUnix d ∧ toUnix d ≤ 9223372035)
  pure (((toUnix d * NS).bmod (2 ^ 64) + d.nano).bmod (2 ^ 64))

/-- A date that `valid` accepts. -/
structure Date.Valid (d : Date) : Prop where
  civil : Civil d.year d.month d.day
  hour : 0 ≤ d.hour ∧ d.hour ≤ 23
  minute : 0 ≤ d.minute ∧ d.minute ≤ 59
  second : 0 ≤ d.second ∧ d.second ≤ 59
  nano : 0 ≤ d.nano ∧ d.nano ≤ 999999999

theorem valid_iff (d : Date) :
    valid d.year d.month d.day d.hour d.minute d.second d.nano = true ↔ d.Valid := by
  rw [valid, decide_eq_true_iff]
  constructor
  · rintro ⟨⟨hy, hy'⟩, ⟨hm, hm'⟩, ⟨hd, hd'⟩, hh, hmin, hs, hn⟩
    exact ⟨⟨hy, hy', hm, hm', hd, hd'⟩, hh, hmin, hs, hn⟩
  · rintro ⟨⟨hy, hy', hm, hm', hd, hd'⟩, hh, hmin, hs, hn⟩
    exact ⟨⟨hy, hy'⟩, ⟨hm, hm'⟩, ⟨hd, hd'⟩, hh, hmin, hs, hn⟩

/-! ### Dates in order -/

theorem yearLength_pos (y : Int) : (0 : Int) < if isLeap y then 366 else 365 := by split_ifs <;> decide

theorem monthLength_pos (year month : Int) : 0 < monthLength year month := by
  simp only [monthLength]
  split_ifs <;> decide

theorem daysBeforeYear_mono {y y' : Nat} (h : y ≤ y') : daysBeforeYear y ≤ daysBeforeYear y' := by
  induction y', h using Nat.le_induction with
  | base => exact le_rfl
  | succ y' _ ih =>
    have hpos := yearLength_pos y'
    rw [daysBeforeYear]
    omega

theorem daysBeforeMonth_mono (year : Int) {m m' : Nat} (hm : 1 ≤ m) (h : m ≤ m') :
    daysBeforeMonth year m ≤ daysBeforeMonth year m' := by
  induction m', h using Nat.le_induction with
  | base => exact le_rfl
  | succ m' hle ih =>
    have hpos := monthLength_pos year m'
    rw [daysBeforeMonth_succ year (hm.trans hle)]
    omega

variable {year month day year' month' day' : Int}

/-- A date's month ends where the next one begins. -/
theorem Civil.lt_month (h : Civil year month day) {m : Nat} (hm : month.toNat < m) :
    daysBeforeMonth year month.toNat + (day - 1) < daysBeforeMonth year m := by
  have hpos := h.month_pos
  have hle := h.day_le
  have hmono := daysBeforeMonth_mono year (show 1 ≤ month.toNat + 1 by omega) hm
  rw [daysBeforeMonth_succ year (by omega), Int.toNat_of_nonneg (by omega)] at hmono
  omega

theorem Civil.nonneg (h : Civil year month day) : 0 ≤ daysBeforeMonth year month.toNat + (day - 1) := by
  have hpos := h.month_pos
  have hday := h.day_pos
  have hmono := daysBeforeMonth_mono year le_rfl (show 1 ≤ month.toNat by omega)
  rw [show daysBeforeMonth year 1 = 0 from rfl] at hmono
  omega

theorem Civil.lt_year (h : Civil year month day) {y : Nat} (hy : year.toNat < y) :
    dayNumber year month day < daysBeforeYear y := by
  have hnonneg := h.year_nonneg
  have hlen : daysBeforeMonth year month.toNat + (day - 1) < if isLeap year then 366 else 365 := by
    have hmonths := daysBeforeMonth_mono year (show 1 ≤ month.toNat by have := h.month_pos; omega)
      (show month.toNat ≤ 12 by have := h.month_le; omega)
    have hlast := h.lt_month (m := 13) (by have := h.month_le; omega)
    have hall := daysBeforeMonth_all year
    rwa [daysBeforeMonth_succ year (m := 12) (by decide), show ((12 : Nat) : Int) = 12 from rfl, hall] at hlast
  have hmono := daysBeforeYear_mono (show year.toNat + 1 ≤ y from hy)
  rw [daysBeforeYear, Int.toNat_of_nonneg hnonneg] at hmono
  rw [dayNumber]
  omega

theorem Civil.dayNumber_nonneg (h : Civil year month day) : 0 ≤ dayNumber year month day := by
  have hnonneg := h.nonneg
  have hmono := daysBeforeYear_mono (Nat.zero_le year.toNat)
  rw [show daysBeforeYear 0 = 0 from rfl] at hmono
  rw [dayNumber]
  omega

theorem Civil.dayNumber_lt (h : Civil year month day) : dayNumber year month day < 3652425 := by
  have hlt := h.lt_year (y := 10000) (by have := h.year_le; omega)
  rwa [daysBeforeYear_eq, show leapDays (((10000 : Nat) : Int) - 1) + 366 = 3652425 from rfl] at hlt

/-- The order of dates. -/
def Earlier (year month day year' month' day' : Int) : Prop :=
  year < year' ∨ (year = year' ∧ (month < month' ∨ (month = month' ∧ day < day')))

theorem dayNumber_lt_dayNumber (h : Civil year month day) (h' : Civil year' month' day')
    (hlt : Earlier year month day year' month' day') : dayNumber year month day < dayNumber year' month' day' := by
  have hy := h.year_nonneg
  have hm := h.month_pos
  rcases hlt with hyear | ⟨rfl, hmonth | ⟨rfl, hday⟩⟩
  · have hlt := h.lt_year (y := year'.toNat) (by omega)
    have hnonneg := h'.nonneg
    rw [dayNumber] at hlt ⊢
    rw [dayNumber]
    omega
  · have hlt := h.lt_month (m := month'.toNat) (by omega)
    have hday := h'.day_pos
    rw [dayNumber, dayNumber]
    omega
  · rw [dayNumber, dayNumber]
    omega

variable {d d' : Date} {secs ns nano : Int}

/-- The seconds since midnight. -/
def Date.clock (d : Date) : Int := d.hour * 3600 + (d.minute * 60 + d.second)

theorem Date.Valid.clock_bounds (h : d.Valid) : 0 ≤ d.clock ∧ d.clock < 86400 := by
  obtain ⟨-, hh, hm, hs, -⟩ := h
  rw [Date.clock]
  omega

theorem Date.Valid.toUnix_eq (h : d.Valid) :
    toUnix d = (dayNumber d.year d.month d.day - 719528) * 86400 + d.clock := by
  rw [toUnix, daysFromCivil_eq h.civil.year_nonneg h.civil.month_pos h.civil.month_le]
  rfl

theorem Date.Valid.toUnix_bounds (h : d.Valid) : FIRST ≤ toUnix d ∧ toUnix d < END := by
  have hday := h.civil.dayNumber_nonneg
  have hlt := h.civil.dayNumber_lt
  have hclock := h.clock_bounds
  rw [h.toUnix_eq, FIRST, END]
  omega

/-! ### Both ways -/

theorem fromUnixParts_eq (hsecs : FIRST ≤ secs ∧ secs < END) (hnano : 0 ≤ nano ∧ nano ≤ 999999999) :
    fromUnixParts secs nano = done
      ⟨(civilFromDays (secs / 86400)).year, (civilFromDays (secs / 86400)).month, (civilFromDays (secs / 86400)).day,
        (secs % 86400).tdiv 3600, ((secs % 86400).tmod 3600).tdiv 60, (secs % 86400).tmod 60, nano⟩ := by
  rw [fromUnixParts, decide_eq_true hsecs, decide_eq_true hnano, tdiv_tmod_floor (a := secs) (k := 86400) (by decide)]
  show done (Date.mk _ _ _ ((wrapI32 (secs % 86400)).tdiv 3600) (((wrapI32 (secs % 86400)).tmod 3600).tdiv 60)
    ((wrapI32 (secs % 86400)).tmod 60) nano) = _
  rw [wrapI32_eq (by omega) (by omega)]

/-- **A date is found again from its Unix time.** -/
theorem fromUnixParts_toUnix (h : d.Valid) : fromUnixParts (toUnix d) d.nano = done d := by
  have hbounds := h.toUnix_bounds
  have hclock := h.clock_bounds
  have htoUnix : toUnix d = daysFromCivil d.year d.month d.day * 86400 + d.clock := rfl
  have hquot : toUnix d / 86400 = daysFromCivil d.year d.month d.day := by omega
  have hrest : toUnix d % 86400 = d.clock := by omega
  rw [fromUnixParts_eq hbounds h.nano, hquot, hrest, civilFromDays_eq h.civil]
  obtain ⟨-, hh, hm, hs, -⟩ := h
  have hhour : d.clock.tdiv 3600 = d.hour := by
    rw [Int.tdiv_eq_ediv_of_nonneg hclock.1, Date.clock]
    omega
  have hmod : d.clock.tmod 3600 = d.minute * 60 + d.second := by
    rw [Int.tmod_eq_emod_of_nonneg hclock.1, Date.clock]
    omega
  have hminute : (d.minute * 60 + d.second).tdiv 60 = d.minute := by
    rw [Int.tdiv_eq_ediv_of_nonneg (by omega)]
    omega
  have hsecond : d.clock.tmod 60 = d.second := by
    rw [Int.tmod_eq_emod_of_nonneg hclock.1, Date.clock]
    omega
  rw [hhour, hmod, hminute, hsecond]

theorem exists_date (hlo : FIRST ≤ secs) (hhi : secs < END) (hn : 0 ≤ nano) (hn' : nano ≤ 999999999) :
    ∃ d : Date, d.Valid ∧ toUnix d = secs ∧ d.nano = nano := by
  rw [FIRST] at hlo
  rw [END] at hhi
  obtain ⟨y, m, day, hcivil, hday⟩ := exists_civil (secs / 86400 + 719528).toNat (by omega)
  rw [Int.toNat_of_nonneg (by omega)] at hday
  obtain ⟨r, hr⟩ : ∃ r, r = secs % 86400 := ⟨_, rfl⟩
  have hvalid : (⟨y, m, day, r / 3600, r % 3600 / 60, r % 60, nano⟩ : Date).Valid :=
    ⟨hcivil, by dsimp only; omega, by dsimp only; omega, by dsimp only; omega, ⟨hn, hn'⟩⟩
  refine ⟨_, hvalid, ?_, rfl⟩
  rw [hvalid.toUnix_eq, Date.clock]
  dsimp only
  rw [hday]
  omega

/-- **Unix time as a date.** -/
theorem fromUnixParts_ends (hlo : FIRST ≤ secs) (hhi : secs < END) (hn : 0 ≤ nano) (hn' : nano ≤ 999999999) :
    Ends (fun d => d.Valid ∧ toUnix d = secs ∧ d.nano = nano) (fromUnixParts secs nano) := by
  obtain ⟨d, hvalid, rfl, rfl⟩ := exists_date hlo hhi hn hn'
  rw [fromUnixParts_toUnix hvalid]
  exact ⟨hvalid, rfl, rfl⟩

/-- **Later dates have the greater Unix time.** -/
theorem toUnix_lt (h : d.Valid) (h' : d'.Valid)
    (hlt : Earlier d.year d.month d.day d'.year d'.month d'.day ∨
      (d.year = d'.year ∧ d.month = d'.month ∧ d.day = d'.day) ∧ Earlier d.hour d.minute d.second d'.hour d'.minute d'.second) :
    toUnix d < toUnix d' := by
  have hclock := h.clock_bounds
  have hclock' := h'.clock_bounds
  rw [h.toUnix_eq, h'.toUnix_eq]
  rcases hlt with hdate | ⟨⟨hy, hm, hd⟩, htime⟩
  · have hday := dayNumber_lt_dayNumber h.civil h'.civil hdate
    omega
  · obtain ⟨-, hh, hmin, hs, -⟩ := h
    obtain ⟨-, hh', hmin', hs', -⟩ := h'
    rw [hy, hm, hd, Date.clock, Date.clock]
    rw [Earlier] at htime
    omega

/-- The day of the week: 0000-01-01 was a Saturday. -/
theorem weekday_eq (h : d.Valid) : weekday d = (dayNumber d.year d.month d.day + 5) % 7 + 1 := by
  have hnonneg := h.civil.dayNumber_nonneg
  rw [weekday, daysFromCivil_eq h.civil.year_nonneg h.civil.month_pos h.civil.month_le]
  obtain ⟨x, hx⟩ : ∃ x, x = dayNumber d.year d.month d.day - 719528 := ⟨_, rfl⟩
  have htmod := Int.tmod_eq_emod (a := x) (b := 7)
  have hbounds : 0 ≤ x.tmod 7 + 7 + 3 ∧ x.tmod 7 % 7 = x % 7 := by
    rw [htmod]
    split_ifs <;> omega
  rw [← hx, Int.tmod_eq_emod_of_nonneg hbounds.1, wrapI32_eq (by omega) (by omega)]
  omega

theorem dayOfYear_eq (h : d.Valid) : dayOfYear d = daysBeforeMonth d.year d.month.toNat + d.day := by
  have hcivil := h.civil
  have hnonneg := hcivil.nonneg
  have hlast := hcivil.lt_month (m := 13) (by have := hcivil.month_le; omega)
  have hall := daysBeforeMonth_all d.year
  rw [daysBeforeMonth_succ d.year (m := 12) (by decide), show ((12 : Nat) : Int) = 12 from rfl, hall] at hlast
  have hlen : (if isLeap d.year then 366 else 365 : Int) ≤ 366 := by split_ifs <;> decide
  rw [dayOfYear, daysFromCivil_eq hcivil.year_nonneg hcivil.month_pos hcivil.month_le,
    daysFromCivil_eq hcivil.year_nonneg le_rfl (by decide), dayNumber, dayNumber,
    show daysBeforeMonth d.year (1 : Int).toNat = 0 from rfl, wrapI32_eq (by omega) (by omega)]
  omega

/-- **The calendar is a bijection.**  Every second of the years 0000 to 9999 is one valid date's, in order; the
next day is 86400 seconds on; and the days of the week and of the year are those of the calendar. -/
theorem calendar_bijection :
    (∀ s, FIRST ≤ s → s < END → ∃ d, fromUnix s = done d ∧ d.Valid ∧ toUnix d = s) ∧
    (∀ d : Date, d.Valid → d.nano = 0 → fromUnix (toUnix d) = done d) ∧
    (∀ d d' : Date, d.Valid → d'.Valid →
      (Earlier d.year d.month d.day d'.year d'.month d'.day ∨ (d.year = d'.year ∧ d.month = d'.month ∧ d.day = d'.day) ∧
        Earlier d.hour d.minute d.second d'.hour d'.minute d'.second) → toUnix d < toUnix d') ∧
    (∀ d d' : Date, d.Valid → (d'.year, d'.month, d'.day) = nextDay d.year d.month d.day →
      d'.hour = d.hour → d'.minute = d.minute → d'.second = d.second → toUnix d' = toUnix d + 86400) ∧
    ∀ d : Date, d.Valid → weekday d = (dayNumber d.year d.month d.day + 5) % 7 + 1 ∧
      dayOfYear d = daysBeforeMonth d.year d.month.toNat + d.day := by
  refine ⟨fun s hlo hhi => ?_, fun d h hnano => ?_, fun d d' h h' => toUnix_lt h h', fun d d' h hnext hh hmin hs => ?_,
    fun d h => ⟨weekday_eq h, dayOfYear_eq h⟩⟩
  · obtain ⟨d, hd, hvalid, hunix, -⟩ := (fromUnixParts_ends hlo hhi le_rfl (by decide : (0 : Int) ≤ 999999999)).exists
    exact ⟨d, hd, hvalid, hunix⟩
  · have hback := fromUnixParts_toUnix h
    rwa [hnano] at hback
  · have hday := dayNumber_nextDay h.civil
    have hpos : 0 ≤ (nextDay d.year d.month d.day).1 ∧ 1 ≤ (nextDay d.year d.month d.day).2.1 ∧
        (nextDay d.year d.month d.day).2.1 ≤ 12 := by
      have hy := h.civil.year_nonneg
      have hm := h.civil.month_pos
      have hm' := h.civil.month_le
      rw [nextDay]
      split_ifs <;> dsimp only <;> omega
    rw [← hnext] at hday hpos
    dsimp only at hday hpos
    rw [toUnix, daysFromCivil_eq hpos.1 hpos.2.1 hpos.2.2, hday, hh, hmin, hs, h.toUnix_eq, Date.clock]
    omega

/-- The first second of 1970. -/
theorem calendar_epoch : ∃ d, fromUnix 0 = done d ∧ d.Valid ∧ toUnix d = 0 :=
  calendar_bijection.1 0 (by decide) (by decide)

/-! ### Nanoseconds -/

/-- **Nanoseconds as a date.** -/
theorem fromUnixNs_ends (h : InRange 64 ns) :
    Ends (fun d => d.Valid ∧ toUnix d = ns / NS ∧ d.nano = ns % NS) (fromUnixNs ns) := by
  obtain ⟨hlo, hhi⟩ := h
  simp only [Nat.add_one_sub_one] at hlo hhi
  have hdiv : ns / NS * 1000000000 + ns % NS = ns := by rw [NS]; omega
  have hmod := Int.emod_nonneg ns (show NS ≠ 0 by decide)
  have hmod' : ns % NS < 1000000000 := Int.emod_lt_of_pos ns (show 0 < NS by decide)
  rw [fromUnixNs, tdiv_tmod_floor (by decide)]
  show Ends _ (fromUnixParts (ns / NS) (wrapI32 (ns % NS)))
  rw [wrapI32_eq (by omega) (by omega)]
  refine fromUnixParts_ends ?_ ?_ hmod (by omega)
  · rw [FIRST]
    omega
  · rw [END]
    omega

/-- **Nanoseconds make the trip** without a wrap, but those of the first and of the last second of an `i64`: for
these the contract of `to_unix_ns` fails. -/
theorem nanoseconds_iff (ns : Int) (h : InRange 64 ns) : ∃ d, fromUnixNs ns = done d ∧
    (toUnixNs d = done ns ∧ InRange 64 (toUnix d * NS) ∧ InRange 64 (toUnix d * NS + d.nano) ↔
      -9223372036 * NS ≤ ns ∧ ns < 9223372036 * NS) := by
  obtain ⟨d, hd, -, hunix, hnano⟩ := (fromUnixNs_ends h).exists
  refine ⟨d, hd, ?_⟩
  have hmul : toUnix d * NS = toUnix d * 1000000000 := rfl
  have hlo : -9223372036 * NS = -9223372036000000000 := rfl
  have hhi : 9223372036 * NS = 9223372036000000000 := rfl
  have hdiv : ns / NS * 1000000000 + ns % NS = ns := by rw [NS]; omega
  have hmod := Int.emod_nonneg ns (show NS ≠ 0 by decide)
  have hmod' : ns % NS < 1000000000 := Int.emod_lt_of_pos ns (show 0 < NS by decide)
  rw [← hunix, ← hnano] at hdiv
  rw [← hnano] at hmod hmod'
  rw [toUnixNs]
  by_cases hc : -9223372036 ≤ toUnix d ∧ toUnix d ≤ 9223372035
  · have hprod : InRange 64 (toUnix d * NS) := by
      constructor <;> simp only [Nat.add_one_sub_one] <;> omega
    have hsum : InRange 64 (toUnix d * NS + d.nano) := by
      constructor <;> simp only [Nat.add_one_sub_one] <;> omega
    have hprod' : (toUnix d * NS).bmod (2 ^ 64) = toUnix d * NS := Int.bmod_eq_of_le (by omega) (by omega)
    have hsum' : (toUnix d * NS + d.nano).bmod (2 ^ 64) = toUnix d * NS + d.nano :=
      Int.bmod_eq_of_le (by omega) (by omega)
    rw [decide_eq_true hc, hprod', hsum']
    refine ⟨fun _ => by omega, fun _ => ⟨?_, hprod, hsum⟩⟩
    exact congrArg done (by omega)
  · rw [decide_eq_false hc]
    refine ⟨fun hback => ?_, fun hrange => ?_⟩
    · cases hback.1
    · omega

/-- A nanosecond before 1970. -/
theorem nanoseconds_before_1970 : ∃ d, fromUnixNs (-1) = done d ∧
    (toUnixNs d = done (-1) ∧ InRange 64 (toUnix d * NS) ∧ InRange 64 (toUnix d * NS + d.nano) ↔
      -9223372036 * NS ≤ -1 ∧ -1 < 9223372036 * NS) :=
  nanoseconds_iff (-1) ⟨by decide, by decide⟩

/-- The last nanosecond of an `i64` is a date that has no nanoseconds. -/
theorem last_nanosecond : ∃ d, fromUnixNs (2 ^ 63 - 1) = done d ∧ toUnixNs d = stop := by
  refine ⟨⟨2262, 4, 11, 23, 47, 16, 854775807⟩, by decide, by decide⟩

end Aipl.StdDate
