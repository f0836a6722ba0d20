/-!
# Dates

Dates of the Gregorian calendar, carried back to all earlier years; there is a year 0. The calendar ends
at `firstYear` and `lastYear`, and a `Date` carries the proof that it is in the calendar. Days are numbered
in one row without gaps: day 1 is 1 January of year 1, a Monday, so the number's remainder by 7 is the
weekday with Sunday as 0.
-/

namespace CronSchedule

/-- Every fourth year, of the years that end a century every fourth only. -/
def IsLeapYear (year : Int) : Prop :=
  year % 4 = 0 ∧ (year % 100 = 0 → year % 400 = 0)

instance (year : Int) : Decidable (IsLeapYear year) :=
  inferInstanceAs (Decidable (_ ∧ (_ → _)))

/-- The number of days of a month, 0 for a number that is no month's. -/
def monthLength (year : Int) : Nat → Nat
  | 1 => 31
  | 2 => if IsLeapYear year then 29 else 28
  | 3 => 31
  | 4 => 30
  | 5 => 31
  | 6 => 30
  | 7 => 31
  | 8 => 31
  | 9 => 30
  | 10 => 31
  | 11 => 30
  | 12 => 31
  | _ => 0

def firstYear : Int := -262143

def lastYear : Int := 262142

def IsDate (year : Int) (month day : Nat) : Prop :=
  (firstYear ≤ year ∧ year ≤ lastYear) ∧ 1 ≤ day ∧ day ≤ monthLength year month

instance (year : Int) (month day : Nat) : Decidable (IsDate year month day) :=
  inferInstanceAs (Decidable (_ ∧ _))

structure Date where
  year : Int
  month : Nat
  day : Nat
  isDate : IsDate year month day
  deriving DecidableEq

/-! ## Counting days -/

/-- The days of the years from 1 to the one before, negative for earlier years. -/
def daysBeforeYear (year : Int) : Int :=
  365 * (year - 1) + (year - 1) / 4 - (year - 1) / 100 + (year - 1) / 400

/-- The days of the months of `year` before `month`. -/
def daysBeforeMonth (year : Int) : Nat → Nat
  | 0 => 0
  | month + 1 => daysBeforeMonth year month + monthLength year month

namespace Date

def ofParts? (year : Int) (month day : Nat) : Option Date :=
  if h : IsDate year month day then some ⟨year, month, day, h⟩ else none

def dayNumber (d : Date) : Int :=
  daysBeforeYear d.year + daysBeforeMonth d.year d.month + d.day

/-- The day of the week from Sunday, which is 0. -/
def weekday (d : Date) : Nat :=
  (d.dayNumber % 7).toNat

theorem ofParts?_eq_some_iff {year : Int} {month day : Nat} {d : Date} :
    ofParts? year month day = some d ↔ d.year = year ∧ d.month = month ∧ d.day = day := by
  simp only [ofParts?]
  constructor
  · intro h
    split at h
    · cases h; exact ⟨rfl, rfl, rfl⟩
    · cases h
  · rintro ⟨rfl, rfl, rfl⟩
    simp [d.isDate]

theorem weekday_lt (d : Date) : d.weekday < 7 := by
  simp only [weekday]
  omega

end Date

end CronSchedule
