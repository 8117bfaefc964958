import Mathlib.Data.Int.Basic

/-! The Gregorian calendar, reckoned back before it was introduced: dates, the day
after a date, and the number of a day, counted from the first of January 1970. -/
namespace FluxOS

namespace Calendar

/-- Every fourth year, but for the centuries that are not divisible by 400. -/
def isLeap (year : Int) : Bool := (year % 4 = 0 ∧ year % 100 ≠ 0) ∨ year % 400 = 0

/-- The days of a month; January is month 0. -/
def daysInMonth (leap : Bool) : Nat → Nat
  | 1 => if leap then 29 else 28
  | 3 | 5 | 8 | 10 => 30
  | _ => 31

/-- The days of the year before a month. -/
def daysBeforeMonth (leap : Bool) : Nat → Nat
  | 0 => 0
  | month + 1 => daysBeforeMonth leap month + daysInMonth leap month

/-- The leap years from year 1 to the year before. -/
def leapsBefore (year : Int) : Int := (year - 1) / 4 - (year - 1) / 100 + (year - 1) / 400

/-- The number of the first of January. -/
def firstDay (year : Int) : Int := 365 * (year - 1970) + leapsBefore year - leapsBefore 1970

theorem daysInMonth_pos (leap : Bool) (month : Nat) : 1 ≤ daysInMonth leap month := by
  unfold daysInMonth
  split <;> (try split) <;> omega

end Calendar

open Calendar

/-- A date that the calendar has. -/
@[ext]
structure Date where
  year : Int
  month : Nat
  day : Nat
  inYear : month < 12
  positive : 0 < day
  inMonth : day ≤ daysInMonth (isLeap year) month

namespace Date

/-- The days of the year before this one. -/
def yearDay (d : Date) : Nat := daysBeforeMonth (isLeap d.year) d.month + d.day - 1

/-- The days since the first of January 1970. -/
def dayNumber (d : Date) : Int := firstDay d.year + d.yearDay

/-- The day after. -/
def next (d : Date) : Date :=
  if more : d.day < daysInMonth (isLeap d.year) d.month then
    ⟨d.year, d.month, d.day + 1, d.inYear, Nat.succ_pos _, more⟩
  else if same : d.month + 1 < 12 then
    ⟨d.year, d.month + 1, 1, same, Nat.one_pos, daysInMonth_pos _ _⟩
  else ⟨d.year + 1, 0, 1, by decide, Nat.one_pos, daysInMonth_pos _ _⟩

end Date

namespace Calendar

theorem daysBeforeMonth_mono (leap : Bool) {m n : Nat} (le : m ≤ n) :
    daysBeforeMonth leap m ≤ daysBeforeMonth leap n := by
  induction n, le using Nat.le_induction with
  | base => exact Nat.le_refl _
  | succ n _ ih => exact Nat.le_trans ih (Nat.le_add_right _ _)

/-- The length of a year, between two first days. -/
theorem firstDay_succ (year : Int) : firstDay (year + 1) = firstDay year + daysBeforeMonth (isLeap year) 12 := by
  have length : (daysBeforeMonth (isLeap year) 12 : Int) = if isLeap year then 366 else 365 := by
    cases isLeap year <;> rfl
  rw [length]
  simp only [firstDay, leapsBefore, isLeap, decide_eq_true_eq]
  split <;> omega

theorem firstDay_mono {year later : Int} (le : year ≤ later) : firstDay year ≤ firstDay later := by
  simp only [firstDay, leapsBefore]
  omega

end Calendar

namespace Date

/-- The month ends within the year. -/
theorem month_end_le (d : Date) : daysBeforeMonth (isLeap d.year) d.month + daysInMonth (isLeap d.year) d.month ≤
    daysBeforeMonth (isLeap d.year) 12 := daysBeforeMonth_mono _ (show d.month + 1 ≤ 12 from d.inYear)

theorem dayNumber_lt (d : Date) : d.dayNumber < firstDay (d.year + 1) := by
  have within := d.month_end_le
  have positive := d.positive
  have last := d.inMonth
  rw [firstDay_succ, dayNumber, yearDay]
  omega

/-- **The next day** has the next number. -/
theorem dayNumber_next (d : Date) : d.next.dayNumber = d.dayNumber + 1 := by
  have positive := d.positive
  have last := d.inMonth
  unfold next
  split
  · simp only [dayNumber, yearDay]
    omega
  · rename_i isLast
    split
    · simp only [dayNumber, yearDay, daysBeforeMonth]
      omega
    · rename_i isDecember
      have month : d.month = 11 := by
        have inYear := d.inYear
        omega
      have length := firstDay_succ d.year
      rw [month] at isLast last
      simp only [dayNumber, yearDay, length, month, daysBeforeMonth] at isLast last ⊢
      omega

/-- Dates are told apart by their numbers. -/
theorem dayNumber_injective : Function.Injective dayNumber := by
  intro d e same
  have starts (d : Date) : firstDay d.year ≤ d.dayNumber := by
    simp only [dayNumber]
    omega
  have year : d.year = e.year := by
    have first := starts d
    have second := starts e
    have third := d.dayNumber_lt
    have fourth := e.dayNumber_lt
    by_contra different
    obtain before | after := Int.lt_or_gt_of_ne different
    · have later := firstDay_mono (show d.year + 1 ≤ e.year by omega)
      omega
    · have later := firstDay_mono (show e.year + 1 ≤ d.year by omega)
      omega
  have days : d.yearDay = e.yearDay := by
    simp only [dayNumber, year] at same
    omega
  have month : d.month = e.month := by
    have ends {d e : Date} (year : d.year = e.year) (days : d.yearDay = e.yearDay) : ¬ d.month < e.month := by
      intro before
      have later := daysBeforeMonth_mono (isLeap e.year) (show d.month + 1 ≤ e.month from before)
      have first := d.positive
      have second := d.inMonth
      have third := e.positive
      simp only [yearDay, daysBeforeMonth, year] at days later second
      omega
    have first := ends year days
    have second := ends year.symm days.symm
    omega
  have day : d.day = e.day := by
    have first := d.positive
    have second := e.positive
    simp only [yearDay, year, month] at days
    omega
  exact Date.ext year month day

end Date

end FluxOS
