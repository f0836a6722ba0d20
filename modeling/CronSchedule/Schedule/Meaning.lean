import CronSchedule.Calendar.DateTime
import CronSchedule.Expression
import CronSchedule.Term.Grammar

/-!
# What the texts of a schedule mean

Said of the five expressions alone: which values each stands for by the grammar of terms, which days the two day
fields choose between them, and at which times a schedule with these texts fires. No set is built and nothing is
read; that comes to the same for a schedule that was read.
-/

namespace CronSchedule

/-- The values of the terms that stand between the commas. -/
def StandsFor (f : Field) (expression : List Char) (v : Nat) : Prop :=
  ∃ piece ∈ pieces expression, ∃ t, Spells f piece t ∧ t.Contains f v

/-- Whether the weekday of a date is among the values; a Sunday is 0 or 7. -/
def MeansWeekday (dayOfWeek : List Char) (d : Date) : Prop :=
  StandsFor .dayOfWeek dayOfWeek d.weekday ∨ d.weekday = 0 ∧ StandsFor .dayOfWeek dayOfWeek 7

/-- The star counts as it is written: `*,5` begins with one and `5,*` does not. -/
def MeansDay (dayOfMonth dayOfWeek : List Char) (d : Date) : Prop :=
  if (trim dayOfWeek).head? = some '*' then StandsFor .dayOfMonth dayOfMonth d.day
  else if (trim dayOfMonth).head? = some '*' then MeansWeekday dayOfWeek d
  else StandsFor .dayOfMonth dayOfMonth d.day ∨ MeansWeekday dayOfWeek d

structure MeansTime (texts : Field → List Char) (t : DateTime) : Prop where
  minute : StandsFor .minute (texts .minute) t.minute
  hour : StandsFor .hour (texts .hour) t.hour
  month : StandsFor .month (texts .month) t.date.month
  day : MeansDay (texts .dayOfMonth) (texts .dayOfWeek) t.date

end CronSchedule
