import CronSchedule.Calendar.Written
import CronSchedule.Term.Error

/-!
# Why a schedule gives no time

Either the schedule cannot be read, or the search for a time comes to its bound. The second error keeps the
time from which the search was asked for, down to its nanosecond.
-/

namespace CronSchedule

inductive ReadError where
  | fieldCount (found : Nat)
  | invalidTerm (e : TermError)
  deriving DecidableEq

/-- No time was found before 1 January of `boundYear`. -/
structure Exhausted where
  since : DateTime
  boundYear : Int
  deriving DecidableEq

inductive ScheduleError where
  | unreadable (e : ReadError)
  | exhausted (e : Exhausted)
  deriving DecidableEq

def ReadError.message : ReadError → String
  | fieldCount found =>
    "expected " ++ String.ofList (numeral Field.all.length) ++ " cron fields, got " ++ String.ofList (numeral found)
  | invalidTerm e => e.message

def Exhausted.message (e : Exhausted) : String :=
  "no matching time after " ++ String.ofList e.since.text ++ " before the year " ++
    String.ofList (integerText e.boundYear)

def ScheduleError.message : ScheduleError → String
  | unreadable e => e.message
  | exhausted e => e.message

end CronSchedule
