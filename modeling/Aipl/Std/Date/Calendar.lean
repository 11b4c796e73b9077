import Aipl.Lib.Outcome
import Mathlib.Data.Int.Init

/-! # The calendar of `std/date`

Days and dates of the proleptic Gregorian calendar, years 0000 to 9999, both ways.  The numbers are far from the
ends of their types, but where the code narrows to `i32`, and the two contracts on seconds.

* `dayNumber` — the days from 0000-01-01 on, counted by years and months.
* `daysFromCivil_eq`, `civilFromDays_eq` — the era arithmetic counts them, and is inverted.
* `fromUnix_ends` — Unix time as a date.
-/

namespace Aipl.StdDate

open Aipl.Lib Aipl.Lib.Outcome

/-- `Date`. -/
@[ext] structure Date where
  year : Int
  month : Int
  day : Int
  hour : Int
  minute : Int
  second : Int
  nano : Int
deriving DecidableEq

def FIRST : Int := -62167219200

def END : Int := 253402300800

def NS : Int := 1000000000

/-- `i32.wrap`. -/
def wrapI32 (x : Int) : Int := x.bmod (2 ^ 32)

def isLeap (year : Int) : Bool := year.tmod 4 = 0 ∧ (year.tmod 100 ≠ 0 ∨ year.tmod 400 = 0)

/-- What `days_in_month` returns. -/
def monthLength (year month : Int) : Int :=
  if month = 2 then (if isLeap year then 29 else 28)
  else if month = 4 ∨ month = 6 ∨ month = 9 ∨ month = 11 then 30
  else 31

def daysInMonth (year month : Int) : Outcome Int := do
  require (1 ≤ month ∧ month ≤ 12)
  pure (monthLength year month)

/-- `valid`, which asks for the length of a month that is one. -/
def valid (year month day hour minute second nano : Int) : Bool :=
  (0 ≤ year ∧ year ≤ 9999) ∧ (1 ≤ month ∧ month ≤ 12) ∧ (1 ≤ day ∧ day ≤ monthLength year month) ∧
    (0 ≤ hour ∧ hour ≤ 23) ∧ (0 ≤ minute ∧ minute ≤ 59) ∧ (0 ≤ second ∧ second ≤ 59) ∧
    (0 ≤ nano ∧ nano ≤ 999999999)

def daysFromCivil (year month day : Int) : Int :=
  let y := if month ≤ 2 then year - 1 else year
  let era := (if 0 ≤ y then y else y - 399).tdiv 400
  let yoe := y - era * 400
  let mp := if 2 < month then month - 3 else month + 9
  let doy := (153 * mp + 2).tdiv 5 + (day - 1)
  let doe := yoe * 365 + yoe.tdiv 4 - yoe.tdiv 100 + doy
  era * 146097 + doe - 719468

def civilFromDays (days : Int) : Date :=
  let z := days + 719468
  let era := (if 0 ≤ z then z else z - 146096).tdiv 146097
  let doe := z - era * 146097
  let yoe := (doe - doe.tdiv 1460 + doe.tdiv 36524 - doe.tdiv 146096).tdiv 365
  let doy := doe - (365 * yoe + yoe.tdiv 4 - yoe.tdiv 100)
  let mp := (5 * doy + 2).tdiv 153
  let d := wrapI32 (doy - (153 * mp + 2).tdiv 5 + 1)
  let m := wrapI32 (if mp < 10 then mp + 3 else mp - 9)
  let y := wrapI32 (yoe + era * 400)
  ⟨if m ≤ 2 then y + 1 else y, m, d, 0, 0, 0, 0⟩

def fromUnixParts (secs nano : Int) : Outcome Date := do
  require (FIRST ≤ secs ∧ secs < END)
  require (0 ≤ nano ∧ nano ≤ 999999999)
  let (days, rest) :=
    if secs.tmod 86400 < 0 then (secs.tdiv 86400 - 1, secs.tmod 86400 + 86400)
    else (secs.tdiv 86400, secs.tmod 86400)
  let d := civilFromDays days
  let s := wrapI32 rest
  pure ⟨d.year, d.month, d.day, s.tdiv 3600, (s.tmod 3600).tdiv 60, s.tmod 60, nano⟩

def fromUnix (secs : Int) : Outcome Date := fromUnixParts secs 0

def toUnix (d : Date) : Int :=
  daysFromCivil d.year d.month d.day * 86400 + (d.hour * 3600 + (d.minute * 60 + d.second))

def weekday (d : Date) : Int :=
  wrapI32 (((daysFromCivil d.year d.month d.day).tmod 7 + 7 + 3).tmod 7) + 1

def dayOfYear (d : Date) : Int :=
  wrapI32 (daysFromCivil d.year d.month d.day - daysFromCivil d.year 1 1 + 1)

/-! ### The calendar, counted -/

/-- The days of the years before a year. -/
def daysBeforeYear : Nat → Int
  | 0 => 0
  | y + 1 => daysBeforeYear y + (if isLeap y then 366 else 365)

/-- The days of a year before its `m`th month. -/
def daysBeforeMonth (year : Int) : Nat → Int
  | 0 => 0
  | 1 => 0
  | m + 1 => daysBeforeMonth year m + monthLength year m

/-- The days from 0000-01-01 to a date. -/
def dayNumber (year month day : Int) : Int :=
  daysBeforeYear year.toNat + daysBeforeMonth year month.toNat + (day - 1)

/-- The date of a day is one of the calendar. -/
structure Civil (year month day : Int) : Prop where
  year_nonneg : 0 ≤ year
  year_le : year ≤ 9999
  month_pos : 1 ≤ month
  month_le : month ≤ 12
  day_pos : 1 ≤ day
  day_le : day ≤ monthLength year month

/-- The next day. -/
def nextDay (year month day : Int) : Int × Int × Int :=
  if day < monthLength year month then (year, month, day + 1)
  else if month < 12 then (year, month + 1, 1)
  else (year + 1, 1, 1)

variable {year month day : Int}

theorem isLeap_iff (h : 0 ≤ year) : isLeap year = true ↔ year % 4 = 0 ∧ (year % 100 ≠ 0 ∨ year % 400 = 0) := by
  rw [isLeap, Int.tmod_eq_emod_of_nonneg h, Int.tmod_eq_emod_of_nonneg h, Int.tmod_eq_emod_of_nonneg h,
    decide_eq_true_iff]

/-- A truncating division of what is shifted below zero rounds down. -/
theorem tdiv_floor {a k : Int} (hk : 0 < k) : (if 0 ≤ a then a else a - (k - 1)).tdiv k = a / k := by
  split_ifs with h
  · exact Int.tdiv_eq_ediv_of_nonneg h
  · have hquot : (k - 1 - a) / k = -(a / k) := by
      have hdiv := Int.mul_ediv_add_emod a k
      have hlt := Int.emod_lt_of_pos a hk
      have hge := Int.emod_nonneg a (ne_of_gt hk)
      have hboth : (k - 1 - a) / k = -(a / k) ∧ (k - 1 - a) % k = k - 1 - a % k := by
        refine (Int.ediv_emod_unique hk).mpr ⟨?_, ?_, ?_⟩
        · rw [Int.mul_neg]
          omega
        · omega
        · omega
      exact hboth.1
    rw [show a - (k - 1) = -(k - 1 - a) by omega, Int.neg_tdiv, Int.tdiv_eq_ediv_of_nonneg (by omega), hquot,
      Int.neg_neg]

/-- … and so does one whose remainder is made positive. -/
theorem tdiv_tmod_floor {a k : Int} (hk : 0 < k) :
    (if a.tmod k < 0 then (a.tdiv k - 1, a.tmod k + k) else (a.tdiv k, a.tmod k)) = (a / k, a % k) := by
  have hlt := Int.emod_lt_of_pos a hk
  have hge := Int.emod_nonneg a (ne_of_gt hk)
  rw [Int.tmod_eq_emod, Int.tdiv_eq_ediv, Int.sign_eq_one_of_pos hk]
  have habs : (k.natAbs : Int) = k := Int.natAbs_of_nonneg hk.le
  by_cases h : 0 ≤ a ∨ k ∣ a
  · rw [if_pos h, if_pos h, if_neg (by omega)]
    simp
  · rw [if_neg h, if_neg h, if_pos (by omega), habs]
    simp

theorem wrapI32_eq {x : Int} (hlo : -2 ^ 31 ≤ x) (hhi : x < 2 ^ 31) : wrapI32 x = x :=
  Int.bmod_eq_of_le (by omega) (by omega)

/-- The days from 0000-01-01 to the first of March of year `y`, less 60 days. -/
def leapDays (y : Int) : Int := 365 * y + y / 4 - y / 100 + y / 400

theorem leapDays_era (y : Int) :
    y / 400 * 146097 + (y % 400 * 365 + y % 400 / 4 - y % 400 / 100) = leapDays y := by
  have h4 : y % 400 / 4 = y / 4 - 100 * (y / 400) := by omega
  have h100 : y % 400 / 100 = y / 100 - 4 * (y / 400) := by omega
  rw [leapDays, h4, h100]
  omega

/-- A year has a day more if it is a leap year. -/
theorem leapDays_pred (hyear : 0 ≤ year) :
    leapDays year = leapDays (year - 1) + (if isLeap year then 366 else 365) := by
  have h4 : year / 4 = (year - 1) / 4 + (if year % 4 = 0 then 1 else 0) := by omega
  have h100 : year / 100 = (year - 1) / 100 + (if year % 100 = 0 then 1 else 0) := by omega
  have h400 : year / 400 = (year - 1) / 400 + (if year % 400 = 0 then 1 else 0) := by omega
  have hleap : (if isLeap year then 366 else 365 : Int)
      = 365 + (if year % 4 = 0 then 1 else 0) - (if year % 100 = 0 then 1 else 0) + (if year % 400 = 0 then 1 else 0) := by
    simp only [isLeap_iff hyear]
    omega
  rw [leapDays, leapDays, h4, h100, h400, hleap]
  omega

theorem daysFromCivil_floor (year month day : Int) : daysFromCivil year month day =
    leapDays (if month ≤ 2 then year - 1 else year) +
      ((153 * (if 2 < month then month - 3 else month + 9) + 2).tdiv 5 + (day - 1)) - 719468 := by
  rw [daysFromCivil]
  generalize (if month ≤ 2 then year - 1 else year) = y
  have hfloor : (if 0 ≤ y then y else y - 399).tdiv 400 = y / 400 := tdiv_floor (k := 400) (by decide)
  have hyoe : y - y / 400 * 400 = y % 400 := by omega
  rw [hfloor, hyoe, Int.tdiv_eq_ediv_of_nonneg (Int.emod_nonneg y (by decide)),
    Int.tdiv_eq_ediv_of_nonneg (Int.emod_nonneg y (by decide)), ← leapDays_era]
  omega

/-! ### Dates as days -/

theorem daysBeforeYear_eq (y : Nat) : daysBeforeYear y = leapDays ((y : Int) - 1) + 366 := by
  induction y with
  | zero => rfl
  | succ y ih =>
    rw [daysBeforeYear, ih, Nat.cast_succ, Int.add_sub_cancel, leapDays_pred (Int.natCast_nonneg y)]
    omega

theorem month_cases (hpos : 1 ≤ month) (hle : month ≤ 12) : month = 1 ∨ month = 2 ∨ month = 3 ∨ month = 4 ∨
    month = 5 ∨ month = 6 ∨ month = 7 ∨ month = 8 ∨ month = 9 ∨ month = 10 ∨ month = 11 ∨ month = 12 := by
  omega

/-- **The era arithmetic counts the days.** -/
theorem daysFromCivil_eq (hyear : 0 ≤ year) (hpos : 1 ≤ month) (hle : month ≤ 12) (day : Int) :
    daysFromCivil year month day = dayNumber year month day - 719528 := by
  have hpred := leapDays_pred hyear
  have hbefore := daysBeforeYear_eq year.toNat
  rw [Int.toNat_of_nonneg hyear] at hbefore
  rw [daysFromCivil_floor, dayNumber, hbefore]
  by_cases h : isLeap year = true
  · rw [if_pos h] at hpred
    rcases month_cases hpos hle with rfl | rfl | rfl | rfl | rfl | rfl | rfl | rfl | rfl | rfl | rfl | rfl <;>
      simp [daysBeforeMonth, monthLength, h] <;> omega
  · rw [if_neg h] at hpred
    rcases month_cases hpos hle with rfl | rfl | rfl | rfl | rfl | rfl | rfl | rfl | rfl | rfl | rfl | rfl <;>
      simp [daysBeforeMonth, monthLength, h] <;> omega

theorem daysBeforeMonth_succ (year : Int) {m : Nat} (hm : 1 ≤ m) :
    daysBeforeMonth year (m + 1) = daysBeforeMonth year m + monthLength year m := by
  obtain ⟨k, rfl⟩ : ∃ k, m = k + 1 := ⟨m - 1, by omega⟩
  rfl

/-- The months of a year have all its days. -/
theorem daysBeforeMonth_all (year : Int) :
    daysBeforeMonth year 12 + monthLength year 12 = if isLeap year then 366 else 365 := by
  by_cases h : isLeap year = true <;> simp [daysBeforeMonth, monthLength, h]

/-- **The next day is one day on.** -/
theorem dayNumber_nextDay (h : Civil year month day) :
    dayNumber (nextDay year month day).1 (nextDay year month day).2.1 (nextDay year month day).2.2
      = dayNumber year month day + 1 := by
  have hyear := h.year_nonneg
  have hmonth := h.month_pos
  have hmonth_le := h.month_le
  have hle := h.day_le
  rw [nextDay]
  split_ifs with hday hlast
  · simp only [dayNumber]
    omega
  · have hsucc := daysBeforeMonth_succ year (m := month.toNat) (by omega)
    rw [Int.toNat_of_nonneg (by omega)] at hsucc
    simp only [dayNumber]
    rw [show (month + 1).toNat = month.toNat + 1 by omega, hsucc]
    omega
  · obtain rfl : month = 12 := by omega
    have hall := daysBeforeMonth_all year
    simp only [dayNumber]
    rw [show (year + 1).toNat = year.toNat + 1 by omega, daysBeforeYear, Int.toNat_of_nonneg hyear, ← hall]
    simp only [Int.reduceToNat, daysBeforeMonth]
    omega

theorem Civil.nextDay (h : Civil year month day) (hlast : ¬ (year = 9999 ∧ month = 12 ∧ day = 31)) :
    Civil (nextDay year month day).1 (nextDay year month day).2.1 (nextDay year month day).2.2 := by
  obtain ⟨h0, h1, h2, h3, h4, h5⟩ := h
  have hlen : ∀ y m : Int, 1 ≤ monthLength y m := by
    intro y m
    simp only [monthLength]
    split_ifs <;> decide
  have hdec : monthLength year 12 = 31 := by simp [monthLength]
  rw [StdDate.nextDay]
  split_ifs with hday hmonth
  · exact ⟨h0, h1, h2, h3, by dsimp only; omega, by dsimp only; omega⟩
  · exact ⟨h0, h1, by dsimp only; omega, by dsimp only; omega, le_rfl, hlen _ _⟩
  · obtain rfl : month = 12 := by omega
    exact ⟨by dsimp only; omega, by dsimp only; omega, le_rfl, by dsimp only; omega, le_rfl, hlen _ _⟩

/-- Every day of the years 0000 to 9999 has a date. -/
theorem exists_civil (n : Nat) (hn : n < 3652425) :
    ∃ y m d : Int, Civil y m d ∧ dayNumber y m d = n := by
  induction n with
  | zero => exact ⟨0, 1, 1, ⟨by decide, by decide, by decide, by decide, by decide, by decide⟩, rfl⟩
  | succ n ih =>
    obtain ⟨y, m, d, hc, hday⟩ := ih (by omega)
    have hlast : ¬ (y = 9999 ∧ m = 12 ∧ d = 31) := by
      rintro ⟨rfl, rfl, rfl⟩
      have h9999 : dayNumber 9999 12 31 = 3652424 := by
        rw [dayNumber, daysBeforeYear_eq]
        rfl
      omega
    refine ⟨_, _, _, hc.nextDay hlast, ?_⟩
    rw [dayNumber_nextDay hc, hday]
    rfl

/-- The year of an era, from the day of it. -/
theorem year_of_era {yoe doy doe : Int} (h0 : 0 ≤ yoe) (h1 : yoe < 400) (hd0 : 0 ≤ doy) (hd1 : doy ≤ 365)
    (hleap : doy = 365 → yoe % 4 = 3 ∧ (yoe % 100 ≠ 99 ∨ yoe = 399))
    (hdoe : doe = 365 * yoe + yoe / 4 - yoe / 100 + doy) :
    (doe - doe / 1460 + doe / 36524 - doe / 146096) / 365 = yoe := by
  obtain ⟨c, q, r, rfl, hc0, hc, hq0, hq, hr0, hr⟩ : ∃ c q r : Int, yoe = 100 * c + 4 * q + r ∧ 0 ≤ c ∧ c < 4 ∧
      0 ≤ q ∧ q < 25 ∧ 0 ≤ r ∧ r < 4 :=
    ⟨yoe / 100, yoe % 100 / 4, yoe % 4, by omega, by omega, by omega, by omega, by omega, by omega, by omega⟩
  have h4 : (100 * c + 4 * q + r) / 4 = 25 * c + q := by omega
  have h100 : (100 * c + 4 * q + r) / 100 = c := by omega
  rw [h4, h100] at hdoe
  have hlast : doy = 365 → r = 3 ∧ (q < 24 ∨ c = 3) := by
    intro h
    have h' := hleap h
    omega
  clear hleap h4 h100 h0 h1
  obtain ⟨s, hs⟩ : ∃ s, s = 1461 * q + 365 * r + doy := ⟨_, rfl⟩
  -- a century is 36524 days, but that the last one of an era has a day more
  have hcentury : s ≤ 36523 ∨ (c = 3 ∧ s = 36524) := by
    by_cases hd : doy = 365
    · obtain ⟨rfl, hq' | rfl⟩ := hlast hd
      · omega
      · omega
    · omega
  have hdoe' : doe = 36524 * c + s := by omega
  have hcenturies : doe / 36524 - doe / 146096 = c := by
    rcases hcentury with hle | ⟨rfl, rfl⟩
    · have hquot : doe / 36524 = c := by omega
      omega
    · omega
  have hquads : (doe / 1460 = 25 * c + q ∧ doy ≤ 364) ∨ (doe / 1460 = 25 * c + q + 1 ∧ 1 ≤ doy) := by
    by_cases hd : doy = 365
    · obtain ⟨rfl, -⟩ := hlast hd
      omega
    · by_cases hbig : 1460 ≤ 24 * c + q + 365 * r + doy
      · omega
      · omega
  clear hlast hcentury hs
  rcases hquads with ⟨hquot, hd⟩ | ⟨hquot, hd⟩
  · omega
  · omega

/-- The place of a date in a year that begins in March. -/
structure March (year month day y mp doy : Int) : Prop where
  year_eq : y = if month ≤ 2 then year - 1 else year
  month_eq : mp = if 2 < month then month - 3 else month + 9
  start : doy - (153 * mp + 2) / 5 + 1 = day
  month_of : (5 * doy + 2) / 153 = mp
  mp_nonneg : 0 ≤ mp
  mp_le : mp ≤ 11
  doy_nonneg : 0 ≤ doy
  doy_le : doy ≤ 365
  leap : doy = 365 → isLeap (y + 1) = true

/-- The months from March on end where the next ones begin. -/
theorem monthLength_march (year : Int) (h2 : 1 ≤ month) (h3 : month ≤ 12) (hne : month ≠ 2) {mp : Int}
    (hmp : mp = if 2 < month then month - 3 else month + 9) :
    (153 * mp + 2) / 5 + monthLength year month = (153 * (mp + 1) + 2) / 5 ∧ mp ≤ 10 := by
  subst hmp
  rcases month_cases h2 h3 with rfl | rfl | rfl | rfl | rfl | rfl | rfl | rfl | rfl | rfl | rfl | rfl
  case inr.inl => exact absurd rfl hne
  all_goals exact ⟨rfl, by decide⟩

theorem Civil.march (h : Civil year month day) : ∃ y mp doy, March year month day y mp doy ∧
    daysFromCivil year month day = leapDays y + doy - 719468 := by
  obtain ⟨h0, h1, h2, h3, h4, h5⟩ := h
  obtain ⟨mp, hmp⟩ : ∃ mp, mp = if 2 < month then month - 3 else month + 9 := ⟨_, rfl⟩
  have hnonneg : 0 ≤ mp := by
    rw [hmp]
    split_ifs <;> omega
  have hdays : daysFromCivil year month day =
      leapDays (if month ≤ 2 then year - 1 else year) + ((153 * mp + 2) / 5 + (day - 1)) - 719468 := by
    rw [daysFromCivil_floor, ← hmp, Int.tdiv_eq_ediv_of_nonneg (by omega)]
  by_cases hfeb : month = 2
  · subst hfeb
    obtain rfl : mp = 11 := hmp
    have hlen : monthLength year 2 = if isLeap year then 29 else 28 := rfl
    rw [hlen] at h5
    refine ⟨_, 11, _, ⟨rfl, rfl, by omega, ?_, by decide, by decide, by omega, ?_, fun hlast => ?_⟩, hdays⟩
    · split_ifs at h5 <;> omega
    · split_ifs at h5 <;> omega
    · by_contra hleap
      rw [if_pos (by decide), Int.sub_add_cancel] at hleap
      rw [if_neg hleap] at h5
      omega
  · obtain ⟨hlen, hle⟩ := monthLength_march year h2 h3 hfeb hmp
    exact ⟨_, mp, _, ⟨rfl, hmp, by omega, by omega, hnonneg, by omega, by omega, by omega, by omega⟩, hdays⟩

/-- **A date is found again from its days.** -/
theorem civilFromDays_eq (h : Civil year month day) :
    civilFromDays (daysFromCivil year month day) = ⟨year, month, day, 0, 0, 0, 0⟩ := by
  obtain ⟨y, mp, doy, hmarch, hdays⟩ := h.march
  obtain ⟨hy, hmp, hstart, hmonth, hmp0, hmp11, hdoy0, hdoy, hleap⟩ := hmarch
  have hyear := h.year_nonneg
  have hyear_le := h.year_le
  have hday := h.day_pos
  have hera := leapDays_era y
  have hlo := Int.emod_nonneg y (show (400 : Int) ≠ 0 by decide)
  have hhi := Int.emod_lt_of_pos y (show (0 : Int) < 400 by decide)
  obtain ⟨doe, hdoe⟩ : ∃ doe, doe = 365 * (y % 400) + y % 400 / 4 - y % 400 / 100 + doy := ⟨_, rfl⟩
  have hyoe : (doe - doe / 1460 + doe / 36524 - doe / 146096) / 365 = y % 400 := by
    refine year_of_era hlo hhi hdoy0 hdoy (fun hlast => ?_) hdoe
    have hleap' := (isLeap_iff (by split_ifs at hy <;> omega)).mp (hleap hlast)
    omega
  have hdoe0 : 0 ≤ doe := by omega
  have hdoe_lt : doe < 146097 := by omega
  have hz : daysFromCivil year month day + 719468 = y / 400 * 146097 + doe := by omega
  have hquot : (y / 400 * 146097 + doe) / 146097 = y / 400 := by omega
  have hfloor : (if 0 ≤ y / 400 * 146097 + doe then y / 400 * 146097 + doe
      else y / 400 * 146097 + doe - 146096).tdiv 146097 = y / 400 :=
    (tdiv_floor (k := 146097) (by decide)).trans hquot
  have hcut : y / 400 * 146097 + doe - y / 400 * 146097 = doe := by omega
  have hyoe' : (doe - doe.tdiv 1460 + doe.tdiv 36524 - doe.tdiv 146096).tdiv 365 = y % 400 := by
    rw [Int.tdiv_eq_ediv_of_nonneg hdoe0, Int.tdiv_eq_ediv_of_nonneg hdoe0, Int.tdiv_eq_ediv_of_nonneg hdoe0,
      Int.tdiv_eq_ediv_of_nonneg (by omega), hyoe]
  have hdoy' : doe - (365 * (y % 400) + (y % 400).tdiv 4 - (y % 400).tdiv 100) = doy := by
    rw [Int.tdiv_eq_ediv_of_nonneg hlo, Int.tdiv_eq_ediv_of_nonneg hlo]
    omega
  have hmp' : (5 * doy + 2).tdiv 153 = mp := by rw [Int.tdiv_eq_ediv_of_nonneg (by omega), hmonth]
  have hstart' : doy - (153 * mp + 2).tdiv 5 + 1 = day := by rw [Int.tdiv_eq_ediv_of_nonneg (by omega), hstart]
  have hmonth' : (if mp < 10 then mp + 3 else mp - 9) = month := by
    have h2 := h.month_pos
    have h3 := h.month_le
    rw [hmp]
    split_ifs <;> omega
  have hyear' : (if month ≤ 2 then y + 1 else y) = year := by
    rw [hy]
    split_ifs <;> omega
  have hsum : y % 400 + y / 400 * 400 = y := by omega
  have hy_le : -1 ≤ y ∧ y ≤ 9999 := by split_ifs at hy <;> omega
  have hmonth_le := h.month_le
  have hmonth_pos := h.month_pos
  rw [civilFromDays, hz, hfloor, hcut, hyoe', hdoy', hmp', hstart', hmonth', hsum, wrapI32_eq (by omega) (by omega),
    wrapI32_eq (by omega) (by omega), wrapI32_eq (by omega) (by omega), hyear']

end Aipl.StdDate
