import FluxOS.Calendar
import FluxOS.Words

/-! `gmtime_r`: the date and the time of day of a number of seconds. The seconds are
an unsigned word that is read as a signed one, so that the later half of them are
dates before 1970. -/
namespace FluxOS.Gmtime
open Words Calendar

structure Tm where
  tmSec : Int
  tmMin : Int
  tmHour : Int
  tmMday : Int
  tmMon : Int
  tmYear : Int
  tmWday : Int
  tmYday : Int
  tmIsdst : Int
  deriving DecidableEq, Repr

def secsPerMin : Int := 60
def secsPerHour : Int := 60 * 60
def secsPerDay : Int := 60 * 60 * 24
def daysPerWeek : Int := 7
def yearBase : Int := 1900

def epochAdjustmentDays : Int := 719468
def adjustedEpochYear : Int := 0
def adjustedEpochWday : Int := 3
def daysPerEra : Int := 146097
def daysPerCentury : Int := 36524
def daysPer4Years : Int := 3 * 365 + 366
def daysPerYear : Int := 365
def daysInJanuary : Int := 31
def daysInFebruary : Int := 28
def yearsPerEra : Int := 400

/-- `isleap(y)` as a number. -/
def isleap (y : Int) : Int := if (y.tmod 4 = 0 ∧ y.tmod 100 ≠ 0) ∨ y.tmod 400 = 0 then 1 else 0

/-- `days` and `rem`, with the remainder made positive. -/
def daysAndRem (lcltime : Word) : Int × Int :=
  let days := lcltime.toInt.tdiv secsPerDay + epochAdjustmentDays
  let rem := lcltime.toInt.tmod secsPerDay
  if rem < 0 then (days - 1, rem + secsPerDay) else (days, rem)

/-- `era`, `erayear` and `yearday`: the years begin in March. -/
def yearOf (days : Int) : Int × Int × Int :=
  let era := (if 0 ≤ days then days else days - (daysPerEra - 1)).tdiv daysPerEra
  let eraday := days - era * daysPerEra
  let erayear := (eraday - eraday.tdiv (daysPer4Years - 1) + eraday.tdiv daysPerCentury -
    eraday.tdiv (daysPerEra - 1)).tdiv 365
  (era, erayear, eraday - (daysPerYear * erayear + erayear.tdiv 4 - erayear.tdiv 100))

/-- `gmtime_r`. The numbers stay in the ranges of their types: but for the month, of
which 10 is taken only from 10 and 11, the unsigned ones are not taken below zero. -/
def gmtimeR (timP : Word) : Tm :=
  let (days, rem) := daysAndRem timP
  let hour := rem.tdiv secsPerHour
  let rem := rem.tmod secsPerHour
  let weekday := (adjustedEpochWday + days).tmod daysPerWeek
  let weekday := if weekday < 0 then weekday + daysPerWeek else weekday
  let (era, erayear, yearday) := yearOf days
  let month := (5 * yearday + 2).tdiv 153
  let day := yearday - (153 * month + 2).tdiv 5 + 1
  let month := month + if month < 10 then 2 else -10
  let year := adjustedEpochYear + erayear + era * yearsPerEra + if month ≤ 1 then 1 else 0
  { tmSec := rem.tmod secsPerMin
    tmMin := rem.tdiv secsPerMin
    tmHour := hour
    tmMday := day
    tmMon := month
    tmYear := year - yearBase
    tmWday := weekday
    tmYday :=
      if yearday ≥ daysPerYear - daysInJanuary - daysInFebruary then
        yearday - (daysPerYear - daysInJanuary - daysInFebruary)
      else yearday + daysInJanuary + daysInFebruary + isleap erayear
    tmIsdst := 0 }

/-! ## Days of an era -/

/-- The day of an era of 400 years, by its century, its four years in that, its year
in these and its day in that year, which begins in March. -/
structure EraDay (eraday c b k yearday : Int) : Prop where
  century : 0 ≤ c ∧ c ≤ 3
  fourYears : 0 ≤ b ∧ b ≤ 24
  year : 0 ≤ k ∧ k ≤ 3
  day : 0 ≤ yearday ∧ yearday ≤ 365
  leapDay : yearday = 365 → k = 3 ∧ (b < 24 ∨ c = 3)
  sum : eraday = 36524 * c + 1461 * b + 365 * k + yearday

theorem exists_eraDay {eraday : Int} (low : 0 ≤ eraday) (high : eraday < 146097) :
    ∃ c b k yearday, EraDay eraday c b k yearday := by
  -- the last day of an era is in its fourth century, and leap days are in fourth years
  obtain ⟨c, century⟩ : ∃ c, c = min (eraday / 36524) 3 := ⟨_, rfl⟩
  obtain ⟨b, fourYears⟩ : ∃ b, b = (eraday - 36524 * c) / 1461 := ⟨_, rfl⟩
  obtain ⟨k, year⟩ : ∃ k, k = min ((eraday - 36524 * c - 1461 * b) / 365) 3 := ⟨_, rfl⟩
  refine ⟨c, b, k, eraday - 36524 * c - 1461 * b - 365 * k, ?_⟩
  constructor <;> omega

namespace EraDay
variable {eraday c b k yearday : Int}

/-- The year, from the days less the leap days that they make up for. -/
theorem erayear (parts : EraDay eraday c b k yearday) :
    (eraday - eraday / 1460 + eraday / 36524 - eraday / 146096) / 365 = 100 * c + 4 * b + k := by
  obtain ⟨century, fourYears, year, day, leapDay, sum⟩ := parts
  obtain ⟨behind, isBehind⟩ : ∃ behind : Int, behind = if 24 * c + b + 365 * k + yearday < 1460 then 0 else 1 :=
    ⟨_, rfl⟩
  have leaps : eraday / 1460 = 25 * c + b + behind := by
    rw [isBehind]
    split <;> omega
  by_cases last : eraday = 146096
  · omega
  · have centuries : eraday / 36524 = c := by omega
    have era : eraday / 146096 = 0 := by omega
    have days : eraday - eraday / 1460 + eraday / 36524 - eraday / 146096 =
        365 * (100 * c + 4 * b + k) + (yearday - behind) := by omega
    have within : 0 ≤ yearday - behind ∧ yearday - behind < 365 := by
      rw [isBehind]
      split <;> omega
    rw [days]
    omega

theorem yearday_eq (parts : EraDay eraday c b k yearday) :
    eraday - (365 * (100 * c + 4 * b + k) + (100 * c + 4 * b + k) / 4 - (100 * c + 4 * b + k) / 100) = yearday := by
  obtain ⟨century, fourYears, year, day, leapDay, sum⟩ := parts
  omega

/-- The number of the first of March. -/
theorem firstOfMarch (parts : EraDay eraday c b k yearday) (era : Int) :
    firstDay (400 * era + 100 * c + 4 * b + k) + daysBeforeMonth (isLeap (400 * era + 100 * c + 4 * b + k)) 2 =
      146097 * era + (eraday - yearday) - 719468 := by
  have length (leap : Bool) : (daysBeforeMonth leap 2 : Int) = if leap then 60 else 59 := by cases leap <;> rfl
  obtain ⟨century, fourYears, year, day, leapDay, sum⟩ := parts
  have fours : (400 * era + 100 * c + 4 * b + k - 1) / 4 = 100 * era + 25 * c + b + (k - 1) / 4 := by omega
  have hundreds : (400 * era + 100 * c + 4 * b + k - 1) / 100 = 4 * era + c + (4 * b + k - 1) / 100 := by omega
  have eras : (400 * era + 100 * c + 4 * b + k - 1) / 400 = era + (100 * c + 4 * b + k - 1) / 400 := by omega
  rw [length]
  simp only [firstDay, leapsBefore, isLeap, decide_eq_true_eq, fours, hundreds, eras]
  split <;> omega

/-- A year with a leap day at its end is before a leap year. -/
theorem isLeap_next (parts : EraDay eraday c b k yearday) (last : yearday = 365) (era : Int) :
    isLeap (400 * era + 100 * c + 4 * b + k + 1) = true := by
  obtain ⟨century, fourYears, year, day, leapDay, sum⟩ := parts
  have leap := leapDay last
  simp only [isLeap, decide_eq_true_eq]
  omega

end EraDay

/-! ## Months -/

/-- The months from March on: the days before them, and their lengths. -/
theorem march_months : ∀ leap, ∀ m < 10, daysBeforeMonth leap (m + 2) = daysBeforeMonth leap 2 + (153 * m + 2) / 5 ∧
    (153 * (m + 1) + 2) / 5 = (153 * m + 2) / 5 + daysInMonth leap (m + 2) := by decide

theorem daysInMonth_february (leap : Bool) : 28 ≤ daysInMonth leap 1 := by cases leap <;> decide

theorem march_year (leap : Bool) : daysBeforeMonth leap 12 = daysBeforeMonth leap 2 + 306 := by cases leap <;> rfl

/-- The month from March on of a day of the year. -/
def marchMonth (yearday : Nat) : Nat := (5 * yearday + 2) / 153

theorem marchMonth_spec (yearday : Nat) : (153 * marchMonth yearday + 2) / 5 ≤ yearday ∧
    yearday < (153 * (marchMonth yearday + 1) + 2) / 5 := by
  simp only [marchMonth]
  omega

/-- What `gmtime_r` computes is a date, and the one with the number of the day. -/
theorem exists_date {eraday c b k : Int} {yearday : Nat} (parts : EraDay eraday c b k yearday) (era : Int) :
    ∃ date : Date, date.dayNumber = 146097 * era + eraday - 719468 ∧
      date.day = yearday - (153 * marchMonth yearday + 2) / 5 + 1 ∧
      if marchMonth yearday < 10 then
        date.year = 400 * era + 100 * c + 4 * b + k ∧ date.month = marchMonth yearday + 2 ∧
          date.yearDay = yearday + daysBeforeMonth (isLeap (400 * era + 100 * c + 4 * b + k)) 2
      else
        date.year = 400 * era + 100 * c + 4 * b + k + 1 ∧ date.month + 10 = marchMonth yearday ∧
          date.yearDay + 306 = yearday := by
  obtain ⟨begins, ends⟩ := marchMonth_spec yearday
  have march := parts.firstOfMarch era
  obtain ⟨year, isYear⟩ : ∃ year, year = 400 * era + 100 * c + 4 * b + k := ⟨_, rfl⟩
  rw [← isYear] at march ⊢
  by_cases spring : marchMonth yearday < 10
  · obtain ⟨before, length⟩ := march_months (isLeap year) (marchMonth yearday) spring
    obtain ⟨date, isYear', month, day⟩ : ∃ date : Date, date.year = year ∧ date.month = marchMonth yearday + 2 ∧
        date.day = yearday - (153 * marchMonth yearday + 2) / 5 + 1 :=
      ⟨⟨_, _, _, by omega, Nat.succ_pos _, by omega⟩, rfl, rfl, rfl⟩
    have yearDay : date.yearDay = yearday + daysBeforeMonth (isLeap year) 2 := by
      rw [Date.yearDay, isYear', month, day]
      omega
    refine ⟨date, ?_, day, ?_⟩
    · rw [Date.dayNumber, yearDay, isYear']
      omega
    · rw [if_pos spring]
      exact ⟨isYear', month, yearDay⟩
  · have next := firstDay_succ year
    rw [march_year] at next
    have within := parts.day
    -- January or February of the next year
    obtain ⟨january, isMonth⟩ : ∃ m, marchMonth yearday = m + 10 ∧ m < 2 := by
      refine ⟨marchMonth yearday - 10, ?_, ?_⟩ <;> simp only [marchMonth] at spring ⊢ <;> omega
    obtain ⟨before, inMonth⟩ : daysBeforeMonth (isLeap (year + 1)) january + 306 = (153 * (january + 10) + 2) / 5 ∧
        yearday - (153 * (january + 10) + 2) / 5 + 1 ≤ daysInMonth (isLeap (year + 1)) january := by
      rw [isMonth.1] at begins ends
      obtain first | second : january = 0 ∨ january = 1 := by omega
      · subst first
        exact ⟨rfl, by show _ ≤ 31; omega⟩
      · subst second
        refine ⟨rfl, ?_⟩
        by_cases last : (yearday : Int) = 365
        · rw [isYear, parts.isLeap_next last era]
          show _ ≤ 29
          omega
        · have longest := daysInMonth_february (isLeap (year + 1))
          omega
    obtain ⟨date, isYear', month, day⟩ : ∃ date : Date, date.year = year + 1 ∧ date.month = january ∧
        date.day = yearday - (153 * (january + 10) + 2) / 5 + 1 :=
      ⟨⟨_, _, _, by omega, Nat.succ_pos _, inMonth⟩, rfl, rfl, rfl⟩
    have yearDay : date.yearDay + 306 = yearday := by
      rw [isMonth.1] at begins
      rw [Date.yearDay, isYear', month, day]
      omega
    refine ⟨date, ?_, by rw [day, isMonth.1], ?_⟩
    · rw [Date.dayNumber, isYear']
      omega
    · rw [if_neg spring]
      exact ⟨isYear', by omega, yearDay⟩

/-! ## The time -/

/-- The fields give the date, and the time of day up to that many seconds since the
first of January 1970. -/
structure Tells (tm : Tm) (date : Date) (seconds : Int) : Prop where
  year : tm.tmYear = date.year - 1900
  month : tm.tmMon = date.month
  day : tm.tmMday = date.day
  yearDay : tm.tmYday = date.yearDay
  weekday : tm.tmWday = (date.dayNumber + 4) % 7
  hour : 0 ≤ tm.tmHour ∧ tm.tmHour < 24
  min : 0 ≤ tm.tmMin ∧ tm.tmMin < 60
  sec : 0 ≤ tm.tmSec ∧ tm.tmSec < 60
  total : seconds = date.dayNumber * 86400 + tm.tmHour * 3600 + tm.tmMin * 60 + tm.tmSec
  isdst : tm.tmIsdst = 0

theorem daysAndRem_eq (lcltime : Word) :
    daysAndRem lcltime = (lcltime.toInt / 86400 + 719468, lcltime.toInt % 86400) := by
  have parts := Int.mul_tdiv_add_tmod lcltime.toInt 86400
  simp only [daysAndRem, secsPerDay, epochAdjustmentDays, show (60 * 60 * 24 : Int) = 86400 by decide]
  by_cases positive : 0 ≤ lcltime.toInt
  · have low := Int.tmod_nonneg 86400 positive
    have high := Int.tmod_lt_of_pos lcltime.toInt (show 0 < 86400 by decide)
    rw [if_neg (by omega), Prod.mk.injEq]
    omega
  · have low : (-lcltime.toInt).tmod 86400 = -(lcltime.toInt.tmod 86400) := Int.neg_tmod ..
    have first := Int.tmod_nonneg 86400 (show 0 ≤ -lcltime.toInt by omega)
    have high := Int.tmod_lt_of_pos (-lcltime.toInt) (show 0 < 86400 by decide)
    split <;> rw [Prod.mk.injEq] <;> omega

theorem yearOf_eq {days era c b k yearday : Int} (positive : 0 ≤ days) (isEra : era = days / 146097)
    (parts : EraDay (days - era * 146097) c b k yearday) : yearOf days = (era, 100 * c + 4 * b + k, yearday) := by
  obtain ⟨eraday, isEraday⟩ : ∃ eraday, eraday = days - era * 146097 := ⟨_, rfl⟩
  have quotient : days.tdiv 146097 = era := by rw [Int.tdiv_eq_ediv_of_nonneg positive, isEra]
  have fromZero : 0 ≤ eraday := by omega
  have dividend : 0 ≤ eraday - eraday / 1460 + eraday / 36524 - eraday / 146096 := by omega
  have year := parts.erayear
  have left := parts.yearday_eq
  rw [← isEraday] at year left
  have yearPositive : 0 ≤ 100 * c + 4 * b + k := by omega
  simp only [yearOf, if_pos positive, daysPerEra, daysPerCentury, daysPer4Years, daysPerYear, quotient, ← isEraday,
    show (3 * 365 + 366 - 1 : Int) = 1460 by decide, show (146097 - 1 : Int) = 146096 by decide,
    Int.tdiv_eq_ediv_of_nonneg fromZero, Int.tdiv_eq_ediv_of_nonneg dividend, year,
    Int.tdiv_eq_ediv_of_nonneg yearPositive, left]

/-- The fields, from the parts of the number of the day. -/
theorem gmtimeR_eq {timP : Word} {days rem era erayear : Int} {yearday : Nat}
    (parts : daysAndRem timP = (days, rem)) (positive : 0 ≤ days) (inDay : 0 ≤ rem)
    (year : yearOf days = (era, erayear, (yearday : Int))) :
    gmtimeR timP =
      { tmSec := rem % 3600 % 60
        tmMin := rem % 3600 / 60
        tmHour := rem / 3600
        tmMday := yearday - (153 * (marchMonth yearday : Int) + 2) / 5 + 1
        tmMon := marchMonth yearday + if (marchMonth yearday : Int) < 10 then 2 else -10
        tmYear := erayear + era * 400 +
          (if (marchMonth yearday : Int) + (if (marchMonth yearday : Int) < 10 then 2 else -10) ≤ 1 then 1 else 0) - 1900
        tmWday := (days + 3) % 7
        tmYday := if (yearday : Int) ≥ 306 then (yearday : Int) - 306 else yearday + 59 + isleap erayear
        tmIsdst := 0 } := by
  have month : (5 * (yearday : Int) + 2).tdiv 153 = marchMonth yearday := by
    rw [Int.tdiv_eq_ediv_of_nonneg (by omega)]
    simp only [marchMonth]
    omega
  have before : (153 * (marchMonth yearday : Int) + 2).tdiv 5 = (153 * (marchMonth yearday : Int) + 2) / 5 :=
    Int.tdiv_eq_ediv_of_nonneg (by omega)
  have weekday : (3 + days).tmod 7 = (days + 3) % 7 := by
    rw [Int.tmod_eq_emod_of_nonneg (by omega), Int.add_comm]
  have inHour : 0 ≤ rem % 3600 := by omega
  have notNegative : ¬ (days + 3) % 7 < 0 := by omega
  simp only [gmtimeR, parts, year, secsPerHour, secsPerMin, daysPerWeek, yearBase, adjustedEpochYear,
    adjustedEpochWday, daysPerYear, daysInJanuary, daysInFebruary, yearsPerEra, month, before, weekday,
    if_neg notNegative, show (60 * 60 : Int) = 3600 by decide, Int.tdiv_eq_ediv_of_nonneg inDay,
    Int.tmod_eq_emod_of_nonneg inDay, Int.tdiv_eq_ediv_of_nonneg inHour, Int.tmod_eq_emod_of_nonneg inHour,
    show (365 - 31 - 28 : Int) = 306 by decide, Int.zero_add, Int.add_assoc, show (31 + 28 : Int) = 59 by decide]

theorem isleap_eq {erayear : Int} (positive : 0 ≤ erayear) (era : Int) :
    isleap erayear + 59 = daysBeforeMonth (isLeap (400 * era + erayear)) 2 := by
  have length (leap : Bool) : (daysBeforeMonth leap 2 : Int) = if leap then 60 else 59 := by cases leap <;> rfl
  rw [length]
  simp only [isleap, isLeap, decide_eq_true_eq, Int.tmod_eq_emod_of_nonneg positive]
  split <;> split <;> omega

/-- **The date and the time of day** are those of the word read as a signed number. -/
theorem gmtimeR_tells (timP : Word) : ∃ date, Tells (gmtimeR timP) date timP.toInt := by
  have least := BitVec.le_toInt timP
  obtain ⟨days, isDays⟩ : ∃ days, days = timP.toInt / 86400 + 719468 := ⟨_, rfl⟩
  obtain ⟨rem, isRem⟩ : ∃ rem, rem = timP.toInt % 86400 := ⟨_, rfl⟩
  have split := daysAndRem_eq timP
  rw [← isDays, ← isRem] at split
  have positive : 0 ≤ days := by omega
  obtain ⟨era, isEra⟩ : ∃ era, era = days / 146097 := ⟨_, rfl⟩
  obtain ⟨c, b, k, yearday, parts⟩ := exists_eraDay (show 0 ≤ days - era * 146097 by omega)
    (show days - era * 146097 < 146097 by omega)
  obtain ⟨yearday, rfl⟩ := Int.eq_ofNat_of_zero_le parts.day.1
  obtain ⟨date, number, day, rest⟩ := exists_date parts era
  have year := yearOf_eq positive isEra parts
  obtain ⟨erayear, isErayear⟩ : ∃ erayear, erayear = 100 * c + 4 * b + k := ⟨_, rfl⟩
  have whole : 400 * era + 100 * c + 4 * b + k = 400 * era + erayear := by omega
  have fromZero : 0 ≤ erayear := by
    obtain ⟨century, fourYears, inFour, -, -, -⟩ := parts
    omega
  rw [← isErayear] at year
  rw [whole] at rest
  have leap := isleap_eq fromZero era
  obtain ⟨begins, ends⟩ := marchMonth_spec yearday
  have last : marchMonth yearday ≤ 11 := by
    have within := parts.day
    simp only [marchMonth]
    omega
  refine ⟨date, ?_⟩
  rw [gmtimeR_eq split positive (by omega) year]
  constructor
  case day => simp only; omega
  case weekday => simp only; omega
  case hour => simp only; omega
  case min => simp only; omega
  case sec => simp only; omega
  case total => simp only; omega
  case isdst => rfl
  case year =>
    by_cases spring : marchMonth yearday < 10
    · rw [if_pos spring] at rest
      simp only
      split <;> omega
    · rw [if_neg spring] at rest
      simp only
      split <;> omega
  case month =>
    by_cases spring : marchMonth yearday < 10
    · rw [if_pos spring] at rest
      simp only
      omega
    · rw [if_neg spring] at rest
      simp only
      omega
  case yearDay =>
    by_cases spring : marchMonth yearday < 10
    · rw [if_pos spring] at rest
      simp only
      omega
    · rw [if_neg spring] at rest
      simp only
      omega

example : gmtimeR 951782400#32 = ⟨0, 0, 0, 29, 1, 100, 2, 59, 0⟩ := by decide

/-- The fields tell one date. -/
theorem Tells.unique {tm : Tm} {date other : Date} {seconds later : Int} (tells : Tells tm date seconds)
    (too : Tells tm other later) : date = other ∧ seconds = later := by
  have sameYear := tells.year.symm.trans too.year
  have sameMonth := tells.month.symm.trans too.month
  have sameDay := tells.day.symm.trans too.day
  have same : date = other := Date.ext (by omega) (by omega) (by omega)
  subst same
  exact ⟨rfl, tells.total.trans too.total.symm⟩

/-- A day later `gmtime_r` gives the next date of the calendar, at the same time of day. -/
theorem gmtimeR_next_day {timP : Word} {date next : Date} (tells : Tells (gmtimeR timP) date timP.toInt)
    (later : (timP + 86400#32).toInt = timP.toInt + 86400)
    (tellsNext : Tells (gmtimeR (timP + 86400#32)) next (timP + 86400#32).toInt) :
    next = date.next ∧ (gmtimeR (timP + 86400#32)).tmHour = (gmtimeR timP).tmHour ∧
      (gmtimeR (timP + 86400#32)).tmMin = (gmtimeR timP).tmMin ∧
      (gmtimeR (timP + 86400#32)).tmSec = (gmtimeR timP).tmSec := by
  obtain ⟨-, -, -, -, -, hour, min, sec, total, -⟩ := tells
  obtain ⟨-, -, -, -, -, hour', min', sec', total', -⟩ := tellsNext
  have number : next.dayNumber = date.next.dayNumber := by
    rw [Date.dayNumber_next]
    omega
  have same := Date.dayNumber_injective number
  rw [same, Date.dayNumber_next] at total'
  exact ⟨same, by omega, by omega, by omega⟩

/-- **The dates of `gmtime_r`**: the fields are those of one date of the calendar and a
time of that day, which are right exactly for the times before 2^31 seconds. -/
theorem gmtimeR_right_iff (timP : Word) :
    (∃ date, Tells (gmtimeR timP) date timP.toInt ∧
      ∀ other seconds, Tells (gmtimeR timP) other seconds → other = date) ∧
      ((∃ date, Tells (gmtimeR timP) date timP.toNat) ↔ timP.toNat < 2 ^ 31) := by
  obtain ⟨date, tells⟩ := gmtimeR_tells timP
  refine ⟨⟨date, tells, fun other seconds too => (too.unique tells).1⟩, ?_⟩
  have signed := BitVec.toInt_eq_toNat_cond timP
  constructor
  · rintro ⟨other, right⟩
    have same := (right.unique tells).2
    split at signed <;> omega
  · intro early
    rw [if_pos (by omega)] at signed
    exact ⟨date, signed ▸ tells⟩

end FluxOS.Gmtime
