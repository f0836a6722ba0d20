/-!
# The five fields of a schedule

A schedule has five fields, and each takes its values from a range of its own. Months and weekdays have names
as well: the names of a field stand for its values from the least one on. Weekdays count from Sunday, which is
both 0 and 7.
-/

namespace CronSchedule

inductive Field where
  | minute
  | hour
  | dayOfMonth
  | month
  | dayOfWeek
  deriving DecidableEq

namespace Field

/-- The fields in the order in which a line writes them. -/
def all : List Field :=
  [minute, hour, dayOfMonth, month, dayOfWeek]

def min : Field → Nat
  | minute => 0
  | hour => 0
  | dayOfMonth => 1
  | month => 1
  | dayOfWeek => 0

def max : Field → Nat
  | minute => 59
  | hour => 23
  | dayOfMonth => 31
  | month => 12
  | dayOfWeek => 7

def name : Field → String
  | minute => "minute"
  | hour => "hour"
  | dayOfMonth => "day-of-month"
  | month => "month"
  | dayOfWeek => "day-of-week"

/-- The names of the values `min`, `min + 1`, and so on; a field without names has the empty list. -/
def valueNames : Field → List String
  | month =>
    ["january", "february", "march", "april", "may", "june", "july", "august", "september", "october",
     "november", "december"]
  | dayOfWeek => ["sunday", "monday", "tuesday", "wednesday", "thursday", "friday", "saturday"]
  | _ => []

theorem min_lt_max (f : Field) : f.min < f.max := by
  cases f <;> decide

theorem max_lt (f : Field) : f.max < 64 := by
  cases f <;> decide

theorem min_add_lt_of_lt_length {f : Field} {i : Nat} (h : i < f.valueNames.length) : f.min + i ≤ f.max := by
  cases f <;> simp only [valueNames, List.length_cons, List.length_nil] at h <;> simp only [min, max] <;> omega

end Field

end CronSchedule
