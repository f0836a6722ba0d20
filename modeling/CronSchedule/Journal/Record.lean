import CronSchedule.Journal
import CronSchedule.Schedule.Description

/-!
# Records of the journal

How an event is written down: with a level, with what happened, and with its data under their names.
-/

namespace CronSchedule

inductive Level where
  | debug
  | warning
  deriving DecidableEq

def Level.name : Level → String
  | debug => "DEBUG"
  | warning => "WARN"

inductive Datum where
  | text (s : List Char)
  | number (n : Int)
  deriving DecidableEq

structure Record where
  level : Level
  message : String
  data : List (String × Datum)
  deriving DecidableEq

def Event.record : Event → Record
  | expanded f expression values =>
    ⟨.debug, "expanded cron field",
      [("field", .text f.name.toList), ("expr", .text expression), ("values", .text values.listing)]⟩
  | searching now c =>
    ⟨.debug, "searching for next matching time", [("now", .text now.text), ("crontab", .text c.description)]⟩
  | found t steps => ⟨.debug, "found next matching time", [("next", .text t.text), ("steps", .number steps)]⟩
  | exhausted e steps =>
    ⟨.warning, "no matching time within search bound",
      [("from", .text e.since.text), ("bound_year", .number e.boundYear), ("steps", .number steps)]⟩

end CronSchedule
