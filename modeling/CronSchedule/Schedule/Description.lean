import CronSchedule.Schedule.Basic

/-!
# Descriptions of schedules

A schedule is described by the sets of its fields, on one line or with every set and every value on a line of
its own. Whether a day field was starred is not part of the description.
-/

namespace CronSchedule

def indentation : List Char :=
  List.replicate 4 ' '

def ValueSet.braced (s : ValueSet) : List Char :=
  '\x7b' :: ", ".toList.intercalate (s.toList.map numeral) ++ ['\x7d']

namespace Schedule

def fieldLabel : Field → String
  | .minute => "minutes"
  | .hour => "hours"
  | .dayOfMonth => "days_of_month"
  | .month => "months"
  | .dayOfWeek => "days_of_week"

def label : List Char :=
  "CronTab".toList

def description (c : Schedule) : List Char :=
  let part (f : Field) := (fieldLabel f).toList ++ ':' :: ' ' :: (c.values f).braced
  label ++ " \x7b ".toList ++ ", ".toList.intercalate (Field.all.map part) ++ " \x7d".toList

/-- The lines of one field, each value on one of its own. -/
def fieldLines (c : Schedule) (f : Field) : List (List Char) :=
  let label := (fieldLabel f).toList ++ ": ".toList
  let values := c.values f
  if values.isEmpty then [label ++ "\x7b\x7d,".toList]
  else (label ++ ['\x7b']) :: values.toList.map (fun v => indentation ++ numeral v ++ [',']) ++ ["\x7d,".toList]

def tallDescription (c : Schedule) : List Char :=
  let lines := (Field.all.flatMap c.fieldLines).map (indentation ++ ·)
  ['\n'].intercalate ((label ++ " \x7b".toList) :: lines ++ [['\x7d']])

end Schedule

end CronSchedule
