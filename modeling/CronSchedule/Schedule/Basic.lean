import CronSchedule.Calendar.DateTime
import CronSchedule.ValueSet

/-!
# Schedules

A schedule holds the values of its five fields, and for the two day fields whether they were written with a star
in front. It fires at the minutes whose month, hour and minute are among its values and whose day is one of
its days. A starred day field leaves the days to the other one; if neither is starred, a day of either counts.
-/

namespace CronSchedule

structure Schedule where
  minutes : ValueSet
  hours : ValueSet
  daysOfMonth : ValueSet
  months : ValueSet
  daysOfWeek : ValueSet
  dayOfMonthStarred : Bool
  dayOfWeekStarred : Bool
  deriving DecidableEq

namespace Schedule

def values (c : Schedule) : Field → ValueSet
  | .minute => c.minutes
  | .hour => c.hours
  | .dayOfMonth => c.daysOfMonth
  | .month => c.months
  | .dayOfWeek => c.daysOfWeek

/-- Whether the weekday of a date is among the values; Sunday may be there as 0 or as 7. -/
def hasWeekday (c : Schedule) (d : Date) : Bool :=
  d.weekday ∈ c.daysOfWeek || (d.weekday == 0 && 7 ∈ c.daysOfWeek)

def firesOn (c : Schedule) (d : Date) : Bool :=
  if c.dayOfWeekStarred then d.day ∈ c.daysOfMonth
  else if c.dayOfMonthStarred then c.hasWeekday d
  else d.day ∈ c.daysOfMonth || c.hasWeekday d

/-- Whether the schedule fires in the minute in which `t` lies. -/
def fires (c : Schedule) (t : DateTime) : Bool :=
  t.date.month ∈ c.months && c.firesOn t.date && t.hour ∈ c.hours && t.minute ∈ c.minutes

theorem fires_iff {c : Schedule} {t : DateTime} :
    c.fires t = true ↔
      t.date.month ∈ c.months ∧ c.firesOn t.date = true ∧ t.hour ∈ c.hours ∧ t.minute ∈ c.minutes := by
  simp only [fires, Bool.and_eq_true, decide_eq_true_eq, and_assoc]

end Schedule

end CronSchedule
