import CronSchedule.Calendar.DateTime

/-!
# From numbers back to dates

Days are found again by their numbers. The calendar repeats after 400 years, which are 146097 days, so the year is
looked for among 400, and the month among the twelve of that year. Systems count their time in nanoseconds: the whole
days in it are a number of days, and the rest is taken apart into a time of day.
-/

namespace CronSchedule

/-- Days of 400 years. -/
def cycleDays : Int := 146097

/-- The year, counted from 0, that holds the day number `offset` of a cycle, whose first day is 0. -/
def yearOfCycle (offset : Int) : Nat :=
  (List.range 399).countP fun (k : Nat) => daysBeforeYear (k + 2) ≤ offset

/-- The month that holds the day number `offset` of a year, whose first day is 0. -/
def monthOfYear (year : Int) (offset : Nat) : Nat :=
  (List.range 12).countP fun k => daysBeforeMonth year (k + 1) ≤ offset

def Date.ofDayNumber? (n : Int) : Option Date :=
  let offset := (n - 1) % cycleDays
  let year := 400 * ((n - 1) / cycleDays) + yearOfCycle offset + 1
  let dayOfYear := (n - 1 - daysBeforeYear year).toNat
  let month := monthOfYear year dayOfYear
  Date.ofParts? year month (dayOfYear - daysBeforeMonth year month + 1)

/-- The number of 1 January 1970, from whose beginning systems count their time. -/
def firstSystemDay : Int := 719163

/-- The time that lies `n` nanoseconds after the beginning of the first system day. -/
def DateTime.ofSystemTime? (n : Int) : Option DateTime :=
  let seconds := n / nanoseconds
  (Date.ofDayNumber? (firstSystemDay + seconds / 86400)).bind fun date =>
    let second := (seconds % 86400).toNat
    ofParts? date (second / 3600) (second / 60 % 60) (second % 60) (n % nanoseconds).toNat

end CronSchedule
