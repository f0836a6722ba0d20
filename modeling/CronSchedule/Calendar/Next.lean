import CronSchedule.Calendar.DateTime

/-!
# The next day and the next minute

Minutes run over into hours and hours into days, and the day after the last of a month is the first of the next month
or year. The last day and the last minute of the calendar have no next one.
-/

namespace CronSchedule

def Date.tomorrow? (d : Date) : Option Date :=
  if d.day < monthLength d.year d.month then ofParts? d.year d.month (d.day + 1)
  else if d.month < 12 then ofParts? d.year (d.month + 1) 1
  else ofParts? (d.year + 1) 1 1

/-- The start of the minute after the one in which `t` lies. -/
def DateTime.nextMinute? (t : DateTime) : Option DateTime :=
  if t.minute < 59 then ofParts? t.date t.hour (t.minute + 1) 0 0
  else if t.hour < 23 then ofParts? t.date (t.hour + 1) 0 0 0
  else t.date.tomorrow?.bind fun d => ofParts? d 0 0 0 0

/-- The time `t` and the starts of the next minutes, `n` times in all, or fewer if the calendar ends before. -/
def DateTime.minutesFrom : Nat → Option DateTime → List DateTime
  | 0, _ => []
  | _ + 1, none => []
  | n + 1, some t => t :: minutesFrom n t.nextMinute?

def DateTime.InLastMinuteOfYear (t : DateTime) : Prop :=
  t.date.month = 12 ∧ t.date.day = 31 ∧ t.hour = 23 ∧ t.minute = 59

instance (t : DateTime) : Decidable t.InLastMinuteOfYear :=
  inferInstanceAs (Decidable (_ ∧ _))

end CronSchedule
