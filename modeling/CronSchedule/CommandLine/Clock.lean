import CronSchedule.Calendar.Count
import Std.Time.Zoned.Database

/-!
# The clock

Reads the time that a run of the command starts from if it is given none: the system's time, in the local zone
or as universal time.
-/

namespace CronSchedule

/-- The time on the clock of a zone that is `offset` seconds ahead of universal time. -/
def clockTime (offset : Int) (now : Std.Time.Timestamp) : IO DateTime :=
  match DateTime.ofSystemTime? (now.toNanosecondsSinceUnixEpoch.val + offset * nanoseconds) with
  | some t => return t
  | none => throw (.userError "the system's time is not in the calendar")

def universalTime : IO DateTime := do
  clockTime 0 (← Std.Time.Timestamp.now)

/-- The rules of the local zone may be missing from a system; its time is universal time then. -/
def localTime : IO DateTime := do
  let now ← Std.Time.Timestamp.now
  let offset ← try
      let rules ← Std.Time.Database.defaultGetLocalZoneRules
      pure (rules.timezoneAt now).offset.second.val
    catch _ => pure 0
  clockTime offset now

end CronSchedule
