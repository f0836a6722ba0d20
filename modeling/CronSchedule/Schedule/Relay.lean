import CronSchedule.Calendar.Reading
import CronSchedule.Schedule.Search

/-!
# Runs that hand their times on

What one run prints can be the time that the next one starts from. A relay is such a row of runs: nothing but the
printed argument goes from one to the next.
-/

namespace CronSchedule

/-- The time in an argument, as the program that it is meant for reads it. -/
def DateTime.ofArgument? (argument : List Char) : Option DateTime :=
  let label := "--time=".toList
  if label.isPrefixOf argument then (read (argument.drop label.length)).toOption else none

/-- The answers to `n` runs, each after the time that the run before it printed. -/
def Schedule.relay (c : Schedule) : Nat → Option DateTime → List (Option DateTime)
  | 0, _ => []
  | n + 1, t =>
    let found := t.bind fun t => (c.nextAfter t).toOption
    found :: c.relay n (found.bind fun t => DateTime.ofArgument? t.argument)

end CronSchedule
