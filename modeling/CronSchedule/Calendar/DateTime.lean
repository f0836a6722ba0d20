import CronSchedule.Calendar.Date

/-!
# Times

A time is a date with a time of day down to the nanosecond. A leap second is the second second of a second 59:
its nanoseconds run on from 10^9. Schedules know minutes only, so the times that matter most are those at
the start of a minute, and minutes are numbered in one row without gaps.
-/

namespace CronSchedule

def nanoseconds : Nat := 1000000000

def IsTimeOfDay (hour minute second nanosecond : Nat) : Prop :=
  hour < 24 ∧ minute < 60 ∧ second < 60 ∧ nanosecond < (if second = 59 then 2 * nanoseconds else nanoseconds)

instance (hour minute second nanosecond : Nat) : Decidable (IsTimeOfDay hour minute second nanosecond) :=
  inferInstanceAs (Decidable (_ ∧ _))

structure DateTime where
  date : Date
  hour : Nat
  minute : Nat
  second : Nat
  nanosecond : Nat
  isTimeOfDay : IsTimeOfDay hour minute second nanosecond
  deriving DecidableEq

theorem isTimeOfDay_minute {hour minute : Nat} (hh : hour < 24) (hm : minute < 60) :
    IsTimeOfDay hour minute 0 0 :=
  ⟨hh, hm, by decide, by decide⟩

namespace DateTime

def ofParts? (date : Date) (hour minute second nanosecond : Nat) : Option DateTime :=
  if h : IsTimeOfDay hour minute second nanosecond then some ⟨date, hour, minute, second, nanosecond, h⟩ else none

def truncate (t : DateTime) : DateTime where
  date := t.date
  hour := t.hour
  minute := t.minute
  second := 0
  nanosecond := 0
  isTimeOfDay := isTimeOfDay_minute t.isTimeOfDay.1 t.isTimeOfDay.2.1

/-- Whether the time is the start of a minute. -/
def IsMinute (t : DateTime) : Prop :=
  t.second = 0 ∧ t.nanosecond = 0

/-- The number of the minute, from one to the next without a gap. -/
def minuteNumber (t : DateTime) : Int :=
  (t.date.dayNumber * 24 + t.hour) * 60 + t.minute

theorem ofParts?_eq_some_iff {date : Date} {hour minute second nanosecond : Nat} {t : DateTime} :
    ofParts? date hour minute second nanosecond = some t ↔
      t.date = date ∧ t.hour = hour ∧ t.minute = minute ∧ t.second = second ∧ t.nanosecond = nanosecond := by
  simp only [ofParts?]
  constructor
  · intro h
    split at h
    · cases h; exact ⟨rfl, rfl, rfl, rfl, rfl⟩
    · cases h
  · rintro ⟨rfl, rfl, rfl, rfl, rfl⟩
    simp [t.isTimeOfDay]

theorem isMinute_truncate (t : DateTime) : t.truncate.IsMinute :=
  ⟨rfl, rfl⟩

@[simp] theorem minuteNumber_truncate (t : DateTime) : t.truncate.minuteNumber = t.minuteNumber :=
  rfl

end DateTime

end CronSchedule
