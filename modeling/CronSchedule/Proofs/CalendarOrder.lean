import CronSchedule.Calendar.DateTime

/-!
# The order of the calendar

Day numbers run through the calendar without gaps, so a date that comes later by year, month and day has the
larger number (`dayNumber_lt_iff`). A year is as long as its twelve months, and every month has the first 28
days, among which each weekday comes up (`exists_day_of_weekday`).
-/

namespace CronSchedule

def yearLength (year : Int) : Nat :=
  if IsLeapYear year then 366 else 365

/-! ## Months -/

theorem one_le_monthLength_iff {year : Int} {month : Nat} :
    1 ≤ monthLength year month ↔ 1 ≤ month ∧ month ≤ 12 := by
  unfold monthLength
  split
  case h_2 => split <;> decide
  case h_13 => grind
  all_goals decide

theorem monthLength_le (year : Int) (month : Nat) : monthLength year month ≤ 31 := by
  unfold monthLength
  split
  case h_2 => split <;> decide
  all_goals decide

theorem le_monthLength (year : Int) {month : Nat} (h₁ : 1 ≤ month) (h₂ : month ≤ 12) :
    28 ≤ monthLength year month := by
  unfold monthLength
  split
  case h_2 => split <;> decide
  case h_13 => grind
  all_goals decide

/-- Only February depends on the year. -/
theorem monthLength_of_ne_two (year year' : Int) {month : Nat} (h : month ≠ 2) :
    monthLength year month = monthLength year' month := by
  unfold monthLength
  split
  case h_2 => exact absurd rfl h
  all_goals rfl

theorem monthLength_february_of_leap {year : Int} (h : IsLeapYear year) : monthLength year 2 = 29 :=
  if_pos h

theorem monthLength_february_of_common {year : Int} (h : ¬ IsLeapYear year) : monthLength year 2 = 28 :=
  if_neg h

theorem monthLength_february_le (year : Int) : monthLength year 2 ≤ 29 := by
  by_cases h : IsLeapYear year
  · exact Nat.le_of_eq (monthLength_february_of_leap h)
  · rw [monthLength_february_of_common h]
    decide

theorem daysBeforeMonth_mono (year : Int) {m n : Nat} (h : m ≤ n) :
    daysBeforeMonth year m ≤ daysBeforeMonth year n := by
  induction h with
  | refl => exact Nat.le_refl _
  | step _ ih => exact Nat.le_trans ih (Nat.le_add_right _ _)

theorem daysBeforeMonth_add_le (year : Int) {m n d : Nat} (h : m < n) (hd : d ≤ monthLength year m) :
    daysBeforeMonth year m + d ≤ daysBeforeMonth year n :=
  Nat.le_trans (Nat.add_le_add_left hd _) (daysBeforeMonth_mono year h)

theorem daysBeforeMonth_thirteen (year : Int) : daysBeforeMonth year 13 = yearLength year := by
  simp only [daysBeforeMonth, monthLength, yearLength]
  split <;> rfl

/-! ## Years -/

theorem daysBeforeYear_succ (year : Int) : daysBeforeYear (year + 1) = daysBeforeYear year + yearLength year := by
  unfold daysBeforeYear yearLength
  by_cases h : IsLeapYear year
  · rw [if_pos h]
    unfold IsLeapYear at h
    omega
  · rw [if_neg h]
    unfold IsLeapYear at h
    omega

theorem daysBeforeYear_mono {a b : Int} (h : a ≤ b) : daysBeforeYear a ≤ daysBeforeYear b := by
  obtain ⟨n, rfl⟩ := Int.le.dest h
  clear h
  induction n with
  | zero => simp
  | succ n ih =>
    have hs := daysBeforeYear_succ (a + n)
    rw [Int.natCast_succ, ← Int.add_assoc, hs]
    omega

/-! ## Dates -/

namespace Date

theorem one_le_day (d : Date) : 1 ≤ d.day :=
  d.isDate.2.1

theorem day_le_monthLength (d : Date) : d.day ≤ monthLength d.year d.month :=
  d.isDate.2.2

theorem day_le_of_february {d : Date} (h : d.month = 2) : d.day ≤ 29 := by
  have hmax := d.day_le_monthLength
  rw [h] at hmax
  exact Nat.le_trans hmax (monthLength_february_le d.year)

theorem day_le (d : Date) : d.day ≤ 31 :=
  Nat.le_trans d.day_le_monthLength (monthLength_le _ _)

theorem month_mem_range (d : Date) : 1 ≤ d.month ∧ d.month ≤ 12 :=
  one_le_monthLength_iff.1 (Nat.le_trans d.one_le_day d.day_le_monthLength)

/-- Earlier by year, then by month, then by day. -/
def Before (a b : Date) : Prop :=
  a.year < b.year ∨ a.year = b.year ∧ (a.month < b.month ∨ a.month = b.month ∧ a.day < b.day)

/-- The number of a day lies above those of earlier years and at most at the end of its own. -/
theorem dayNumber_mem_year (d : Date) :
    daysBeforeYear d.year < d.dayNumber ∧ d.dayNumber ≤ daysBeforeYear (d.year + 1) := by
  have hd := d.one_le_day
  have hm : daysBeforeMonth d.year d.month + d.day ≤ daysBeforeMonth d.year 13 :=
    daysBeforeMonth_add_le d.year (Nat.lt_succ_of_le d.month_mem_range.2) d.day_le_monthLength
  rw [daysBeforeMonth_thirteen] at hm
  rw [daysBeforeYear_succ]
  unfold dayNumber
  omega

theorem dayNumber_lt_of_before {a b : Date} (h : a.Before b) : a.dayNumber < b.dayNumber := by
  rcases h with hy | ⟨hy, hm | ⟨hm, hd⟩⟩
  · -- a whole year of `a` and the years up to that of `b` lie between them
    have ha := a.dayNumber_mem_year.2
    have hab : daysBeforeYear (a.year + 1) ≤ daysBeforeYear b.year := daysBeforeYear_mono hy
    have hb := b.dayNumber_mem_year.1
    omega
  · have hab := daysBeforeMonth_add_le a.year hm a.day_le_monthLength
    have hb := b.one_le_day
    unfold dayNumber
    rw [← hy]
    omega
  · unfold dayNumber
    rw [← hy, ← hm]
    omega

theorem eq_iff {a b : Date} : a = b ↔ a.year = b.year ∧ a.month = b.month ∧ a.day = b.day := by
  cases a
  cases b
  simp only [mk.injEq]

theorem before_trichotomy (a b : Date) : a.Before b ∨ a = b ∨ b.Before a := by
  rw [eq_iff]
  unfold Before
  omega

theorem dayNumber_lt_iff {a b : Date} : a.dayNumber < b.dayNumber ↔ a.Before b := by
  refine ⟨fun h => ?_, dayNumber_lt_of_before⟩
  rcases before_trichotomy a b with hab | rfl | hba
  · exact hab
  · exact absurd h (Int.lt_irrefl _)
  · exact absurd (dayNumber_lt_of_before hba) (Int.lt_asymm h)

theorem dayNumber_eq_iff {a b : Date} :
    a.dayNumber = b.dayNumber ↔ a.year = b.year ∧ a.month = b.month ∧ a.day = b.day := by
  rw [← eq_iff]
  refine ⟨fun h => ?_, fun h => h ▸ rfl⟩
  rcases before_trichotomy a b with hab | rfl | hba
  · exact absurd h (Int.ne_of_lt (dayNumber_lt_of_before hab))
  · rfl
  · exact absurd h.symm (Int.ne_of_lt (dayNumber_lt_of_before hba))

end Date

/-- Each weekday falls on one of the first seven days of a month. -/
theorem exists_day_of_weekday {year : Int} {month w : Nat} (hy : firstYear ≤ year ∧ year ≤ lastYear)
    (hm : 1 ≤ month ∧ month ≤ 12) (hw : w < 7) :
    ∃ d : Date, d.year = year ∧ d.month = month ∧ d.weekday = w := by
  have hl := le_monthLength year hm.1 hm.2
  obtain ⟨day, h₁, h₇, hday⟩ : ∃ day : Nat, 1 ≤ day ∧ day ≤ 7 ∧
      (daysBeforeYear year + daysBeforeMonth year month + day) % 7 = w := by
    refine ⟨((w - (daysBeforeYear year + daysBeforeMonth year month) - 1) % 7).toNat + 1, ?_⟩
    omega
  refine ⟨⟨year, month, day, hy, h₁, by omega⟩, rfl, rfl, ?_⟩
  simp only [Date.weekday, Date.dayNumber]
  omega

end CronSchedule
