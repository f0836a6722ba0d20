import CronSchedule.Calendar.Elapsed
import CronSchedule.Proofs.SlotOrder

/-!
# The order of times

Times are compared by their minutes first and then by what is left of them, with the nanoseconds of a leap second
behind all others of the minute (`lt_iff`). Between times that start a minute only the minutes count, also for the time
from one to the other (`since_of_isMinute`). Such times are those that fill slots, and they come in the order of their
slots (`times_fill_slots`).
-/

namespace CronSchedule

theorem Slot.of_eq_of_iff {a b : DateTime} : Slot.of a = Slot.of b ↔ a.minuteNumber = b.minuteNumber := by
  constructor
  · intro h
    have hab := Slot.rank_of_le_iff.1 (Int.le_of_eq (congrArg Slot.rank h))
    have hba := Slot.rank_of_le_iff.1 (Int.le_of_eq (congrArg Slot.rank h.symm))
    exact Int.le_antisymm hab hba
  · intro h
    have hab := Slot.rank_of_le_iff.2 (Int.le_of_eq h)
    have hba := Slot.rank_of_le_iff.2 (Int.le_of_eq h.symm)
    exact Slot.rank_inj (Slot.inRange_of a) (Slot.inRange_of b) (Int.le_antisymm hab hba)

namespace DateTime

/-- Earlier by year, month, day, hour and minute, then by the second and the nanosecond. -/
def Before (a b : DateTime) : Prop :=
  (Slot.of a).Before (Slot.of b) ∨ Slot.of a = Slot.of b ∧
    (a.second < b.second ∨ a.second = b.second ∧ a.nanosecond < b.nanosecond)

instance : LT DateTime where
  lt := Before

instance : LE DateTime where
  le a b := a < b ∨ a = b

section
variable {a b : DateTime}

theorem lt_iff :
    a < b ↔ a.minuteNumber < b.minuteNumber ∨ a.minuteNumber = b.minuteNumber ∧
      (a.second < b.second ∨ a.second = b.second ∧ a.nanosecond < b.nanosecond) := by
  show a.Before b ↔ _
  unfold Before
  rw [← Slot.rank_lt_iff (Slot.inRange_of a) (Slot.inRange_of b), Slot.rank_of_lt_iff, Slot.of_eq_of_iff]

theorem minuteNumber_le_of_le (h : a ≤ b) : a.minuteNumber ≤ b.minuteNumber := by
  rcases h with h | h
  · rcases lt_iff.1 h with h | h
    · exact Int.le_of_lt h
    · exact Int.le_of_eq h.1
  · exact Int.le_of_eq (congrArg minuteNumber h)

theorem lt_iff_of_isMinute (hb : b.IsMinute) : a < b ↔ a.minuteNumber < b.minuteNumber := by
  rw [lt_iff]
  simp [hb.1, hb.2]

theorem eq_of_minuteNumber_eq (ha : a.IsMinute) (hb : b.IsMinute) (h : a.minuteNumber = b.minuteNumber) : a = b := by
  have ha' : (Slot.of a).time? = some a := Slot.time?_eq_some_iff.2 ⟨rfl, ha⟩
  have hb' : (Slot.of a).time? = some b := Slot.time?_eq_some_iff.2 ⟨(Slot.of_eq_of_iff.2 h).symm, hb⟩
  exact Option.some.inj (ha'.symm.trans hb')

theorem le_of_minuteNumber_le (ha : a.IsMinute) (hb : b.IsMinute) (h : a.minuteNumber ≤ b.minuteNumber) : a ≤ b := by
  by_cases hlt : a.minuteNumber < b.minuteNumber
  · exact Or.inl ((lt_iff_of_isMinute hb).2 hlt)
  · exact Or.inr (eq_of_minuteNumber_eq ha hb (Int.le_antisymm h (Int.not_lt.1 hlt)))

theorem year_le_of_minuteNumber_le (h : a.minuteNumber ≤ b.minuteNumber) : a.date.year ≤ b.date.year :=
  Slot.year_le_of_rank_le (Slot.inRange_of a) (Slot.inRange_of b) (Slot.rank_of_le_iff.2 h)

theorem since_of_isMinute (ha : a.IsMinute) (hb : b.IsMinute) :
    b.since a = (b.minuteNumber - a.minuteNumber) * (60 * nanoseconds) := by
  have hleap : ∀ t : DateTime, t.IsMinute → ¬ t.InLeapSecond := by
    rintro t ⟨-, hn⟩
    unfold InLeapSecond
    rw [hn]
    decide
  unfold since
  simp only [hleap a ha, hleap b hb, and_false, if_false, secondOfDay, minuteNumber, nanoseconds, ha.1, ha.2, hb.1, hb.2]
  omega

end

end DateTime

/-! ## Slots and their times -/

namespace Slot

section
variable {s x : Slot} {t y : DateTime}

theorem time?_eq_none_iff :
    s.time? = none ↔ (s.year < firstYear ∨ lastYear < s.year) ∨ ¬ (1 ≤ s.month ∧ s.month ≤ 12) ∨
      ¬ (1 ≤ s.day ∧ s.day ≤ monthLength s.year s.month) ∨ 23 < s.hour ∨ 59 < s.minute := by
  -- a month that does not exist has no days
  have hmonth := @one_le_monthLength_iff s.year s.month
  rw [Option.eq_none_iff_forall_ne_some, ← not_exists, exists_time?_iff]
  unfold IsDate
  omega

theorem before_iff_of_time? (ht : s.time? = some t) (hy : x.time? = some y) :
    s.Before x ↔ t.minuteNumber < y.minuteNumber := by
  obtain ⟨rfl, -⟩ := time?_eq_some_iff.1 ht
  obtain ⟨rfl, -⟩ := time?_eq_some_iff.1 hy
  rw [← rank_lt_iff (inRange_of t) (inRange_of y), rank_of_lt_iff]

theorem before_iff_since_of_time? (ht : s.time? = some t) (hy : x.time? = some y) : s.Before x ↔ 0 < y.since t := by
  rw [before_iff_of_time? ht hy, DateTime.since_of_isMinute (time?_eq_some_iff.1 ht).2 (time?_eq_some_iff.1 hy).2]
  unfold nanoseconds
  omega

end

/-- **Slots and times.** A time fills a slot if it is the start of a minute and has the parts of the slot, and a slot
stays empty just if there is no such minute in the calendar. The slot of any time, in a leap second or not, is filled by
the start of its minute, and filled slots come in the order of their times. -/
theorem times_fill_slots (s : Slot) (t : DateTime) :
    (s.time? = some t ↔ (t.second = 0 ∧ t.nanosecond = 0) ∧ Slot.of t = s) ∧
      (s.time? = none ↔ (s.year < firstYear ∨ lastYear < s.year) ∨ ¬ (1 ≤ s.month ∧ s.month ≤ 12) ∨
        ¬ (1 ≤ s.day ∧ s.day ≤ monthLength s.year s.month) ∨ 23 < s.hour ∨ 59 < s.minute) ∧
      (Slot.of t).time? = some t.truncate ∧
      ∀ x y, s.time? = some t → x.time? = some y →
        (s.Before x ↔ t.minuteNumber < y.minuteNumber) ∧ (s.Before x ↔ 0 < y.since t) := by
  refine ⟨?_, time?_eq_none_iff, time?_of t, fun x y ht hy => ?_⟩
  · rw [time?_eq_some_iff]
    exact and_comm
  · exact ⟨before_iff_of_time? ht hy, before_iff_since_of_time? ht hy⟩

-- The year 0 is a leap year.
theorem times_fill_slots_leap_day :
    let s : Slot := ⟨0, 2, 29, 23, 59⟩
    let x : Slot := ⟨0, 3, 1, 0, 0⟩
    let t : DateTime := ⟨⟨0, 2, 29, by decide⟩, 23, 59, 0, 0, by decide⟩
    let y : DateTime := ⟨⟨0, 3, 1, by decide⟩, 0, 0, 0, 0, by decide⟩
    s.time? = some t ∧ x.time? = some y ∧ s.Before x ∧ t.minuteNumber < y.minuteNumber ∧ 0 < y.since t := by
  intro s x t y
  have ht : s.time? = some t := (times_fill_slots s t).1.2 ⟨⟨rfl, rfl⟩, rfl⟩
  have hy : x.time? = some y := (times_fill_slots x y).1.2 ⟨⟨rfl, rfl⟩, rfl⟩
  have hnumber : t.minuteNumber < y.minuteNumber := by decide
  obtain ⟨hminutes, hsince⟩ := (times_fill_slots s t).2.2.2 x y ht hy
  have hbefore := hminutes.2 hnumber
  exact ⟨ht, hy, hbefore, hnumber, hsince.1 hbefore⟩

end Slot

end CronSchedule
