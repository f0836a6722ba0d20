import CronSchedule.Calendar.Count

/-!
# The cycle of the calendar

After 400 years the calendar repeats: leap years come back, and since the days of the cycle are a whole number of
weeks, dates fall on the same weekdays (`weekday_of_cyclesLater?`). Years before year 1 follow the same rules, so
a shift by cycles can go either way.
-/

namespace CronSchedule

section
variable (year k : Int)

theorem isLeapYear_add_cycles : IsLeapYear (year + 400 * k) ↔ IsLeapYear year := by
  unfold IsLeapYear
  omega

theorem monthLength_add_cycles (month : Nat) : monthLength (year + 400 * k) month = monthLength year month := by
  unfold monthLength
  split
  case h_2 => simp only [isLeapYear_add_cycles]
  all_goals rfl

theorem daysBeforeMonth_add_cycles (month : Nat) :
    daysBeforeMonth (year + 400 * k) month = daysBeforeMonth year month := by
  induction month with
  | zero => rfl
  | succ month ih => simp only [daysBeforeMonth, ih, monthLength_add_cycles]

theorem daysBeforeYear_add_cycles : daysBeforeYear (year + 400 * k) = daysBeforeYear year + cycleDays * k := by
  unfold daysBeforeYear cycleDays
  omega

end

theorem isDate_add_cycles {year k : Int} (h : firstYear ≤ year ∧ year ≤ lastYear)
    (h' : firstYear ≤ year + 400 * k ∧ year + 400 * k ≤ lastYear) (month day : Nat) :
    IsDate (year + 400 * k) month day ↔ IsDate year month day := by
  unfold IsDate
  rw [monthLength_add_cycles]
  exact and_congr_left fun _ => ⟨fun _ => h, fun _ => h'⟩

namespace Date

/-- The same month and day in the year that is `k` cycles later, or earlier for a negative `k`. -/
def cyclesLater? (k : Int) (d : Date) : Option Date :=
  ofParts? (d.year + 400 * k) d.month d.day

section
variable {k : Int} {d d' : Date}

theorem cyclesLater?_eq_some_iff :
    d.cyclesLater? k = some d' ↔ d'.year = d.year + 400 * k ∧ d'.month = d.month ∧ d'.day = d.day :=
  ofParts?_eq_some_iff

theorem exists_cyclesLater? (h : firstYear ≤ d.year + 400 * k ∧ d.year + 400 * k ≤ lastYear) :
    ∃ d', d.cyclesLater? k = some d' := by
  have hd := (isDate_add_cycles d.isDate.1 h d.month d.day).2 d.isDate
  exact ⟨⟨_, _, _, hd⟩, cyclesLater?_eq_some_iff.2 ⟨rfl, rfl, rfl⟩⟩

theorem dayNumber_of_cyclesLater? (h : d.cyclesLater? k = some d') : d'.dayNumber = d.dayNumber + cycleDays * k := by
  obtain ⟨hy, hm, hd⟩ := cyclesLater?_eq_some_iff.1 h
  unfold dayNumber
  rw [hy, hm, hd, daysBeforeYear_add_cycles, daysBeforeMonth_add_cycles]
  omega

theorem weekday_of_cyclesLater? (h : d.cyclesLater? k = some d') : d'.weekday = d.weekday := by
  have hn := dayNumber_of_cyclesLater? h
  unfold cycleDays at hn
  unfold weekday
  omega

end

end Date

namespace DateTime

/-- The same time of day on the same day, `k` cycles later. -/
def cyclesLater? (k : Int) (t : DateTime) : Option DateTime :=
  (t.date.cyclesLater? k).bind fun date => ofParts? date t.hour t.minute t.second t.nanosecond

section
variable {k : Int} {t t' : DateTime}

theorem cyclesLater?_eq_some_iff :
    t.cyclesLater? k = some t' ↔ t.date.cyclesLater? k = some t'.date ∧
      t'.hour = t.hour ∧ t'.minute = t.minute ∧ t'.second = t.second ∧ t'.nanosecond = t.nanosecond := by
  unfold cyclesLater?
  simp only [Option.bind_eq_some_iff, ofParts?_eq_some_iff]
  constructor
  · rintro ⟨d, hd, rfl, h⟩
    exact ⟨hd, h⟩
  · rintro ⟨hd, h⟩
    exact ⟨t'.date, hd, rfl, h⟩

theorem exists_cyclesLater? (h : firstYear ≤ t.date.year + 400 * k ∧ t.date.year + 400 * k ≤ lastYear) :
    ∃ t', t.cyclesLater? k = some t' := by
  obtain ⟨d, hd⟩ := Date.exists_cyclesLater? h
  exact ⟨⟨d, t.hour, t.minute, t.second, t.nanosecond, t.isTimeOfDay⟩,
    cyclesLater?_eq_some_iff.2 ⟨hd, rfl, rfl, rfl, rfl⟩⟩

end

end DateTime

end CronSchedule
