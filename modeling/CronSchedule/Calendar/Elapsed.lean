import CronSchedule.Calendar.Count

/-!
# Times apart from each other

A date some days later is found by its number, and a time of day some days later is that of the later date. The time
between two times is counted in nanoseconds. Clocks do not show a leap second as one of their own, so it counts only if
it has been entered at one of the two times and the clock shows a later second at the other.
-/

namespace CronSchedule

def Date.daysLater? (d : Date) (n : Nat) : Option Date :=
  ofDayNumber? (d.dayNumber + n)

namespace DateTime

/-- The nanoseconds of a day without a leap second. -/
def dayLength : Nat := 86400 * nanoseconds

def secondOfDay (t : DateTime) : Nat :=
  (t.hour * 60 + t.minute) * 60 + t.second

def InLeapSecond (t : DateTime) : Prop :=
  nanoseconds ≤ t.nanosecond

instance (t : DateTime) : Decidable t.InLeapSecond :=
  inferInstanceAs (Decidable (_ ≤ _))

/-- The nanoseconds from `start` to `t`. -/
def since (t start : DateTime) : Int :=
  let leapSeconds : Int :=
    if start.secondOfDay < t.secondOfDay ∧ start.InLeapSecond then 1
    else if t.secondOfDay < start.secondOfDay ∧ t.InLeapSecond then -1
    else 0
  let seconds := (t.date.dayNumber - start.date.dayNumber) * 86400 + (t.secondOfDay - start.secondOfDay) + leapSeconds
  seconds * nanoseconds + (t.nanosecond - start.nanosecond)

end DateTime

end CronSchedule
