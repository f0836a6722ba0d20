import Mathlib.Order.Lattice
import CronSchedule.Calendar.Cycle
import CronSchedule.Calendar.Elapsed
import CronSchedule.Proofs.CalendarOrder

/-!
# Dates and their numbers

A year, and a month in it, is found by counting the years or months that begin by then (`countP_spec`). So the number of
a date leads back to the date (`ofDayNumber?_eq_some_iff`), and no number between those of two dates is left out
(`exists_dayNumber_of_between`).
-/

namespace CronSchedule

/-- Among ascending bounds, counting those that have been reached gives the segment in which a value lies. -/
theorem countP_spec {α : Type} [LinearOrder α] {g : Nat → α} (hg : Monotone g) {x : α} {m : Nat} (h : g 0 ≤ x)
    (h' : x < g (m + 1)) :
    let j := (List.range m).countP fun k => g (k + 1) ≤ x
    j ≤ m ∧ g j ≤ x ∧ x < g (j + 1) := by
  induction m with
  | zero => exact ⟨Nat.le_refl 0, h, h'⟩
  | succ m ih =>
    rw [List.range_succ, List.countP_append]
    by_cases hx : x < g (m + 1)
    · -- the last bound has not been reached, so it is not counted
      obtain ⟨hle, hj⟩ := ih hx
      simp only [List.countP_singleton, decide_eq_true_eq, not_le.mpr hx, if_false, Nat.add_zero]
      exact ⟨Nat.le_succ_of_le hle, hj⟩
    · have hlast : g (m + 1) ≤ x := not_lt.mp hx
      have hall : (List.range m).countP (fun k => decide (g (k + 1) ≤ x)) = m := by
        rw [List.countP_eq_length.mpr, List.length_range]
        intro k hk
        have hk := List.mem_range.mp hk
        simp only [decide_eq_true_eq]
        exact le_trans (hg (by omega)) hlast
      rw [hall, List.countP_singleton, if_pos (decide_eq_true hlast)]
      exact ⟨Nat.le_refl _, hlast, h'⟩

/-! ## Years and months -/

theorem yearOfCycle_spec {offset : Int} (h : 0 ≤ offset) (h' : offset < cycleDays) :
    daysBeforeYear (yearOfCycle offset + 1) ≤ offset ∧ offset < daysBeforeYear (yearOfCycle offset + 2) := by
  have hg : Monotone fun k : Nat => daysBeforeYear (k + 1) := by
    intro i j hij
    apply daysBeforeYear_mono
    omega
  have hnext (k : Nat) : daysBeforeYear ((k + 1 : Nat) + 1) = daysBeforeYear (k + 2) := by
    apply congrArg
    omega
  have hspec := countP_spec hg (m := 399) h h'
  simp only [hnext] at hspec
  exact hspec.2

theorem monthOfYear_spec {year : Int} {offset : Nat} (h : offset < yearLength year) :
    (1 ≤ monthOfYear year offset ∧ monthOfYear year offset ≤ 12) ∧
      daysBeforeMonth year (monthOfYear year offset) ≤ offset ∧
      offset < daysBeforeMonth year (monthOfYear year offset) + monthLength year (monthOfYear year offset) := by
  have hg : Monotone (daysBeforeMonth year) := fun _ _ => daysBeforeMonth_mono year
  rw [← daysBeforeMonth_thirteen] at h
  obtain ⟨hle, hbefore, hin⟩ := countP_spec hg (m := 12) (Nat.zero_le offset) h
  refine ⟨⟨?_, hle⟩, hbefore, hin⟩
  -- no day lies before January
  by_contra hzero
  have hzero : monthOfYear year offset = 0 := by omega
  unfold monthOfYear at hzero
  rw [hzero] at hin
  exact absurd hin (Nat.not_lt_zero _)

theorem isDate_of_lt_yearLength {year : Int} (hy : firstYear ≤ year ∧ year ≤ lastYear) {offset : Nat}
    (h : offset < yearLength year) :
    IsDate year (monthOfYear year offset) (offset - daysBeforeMonth year (monthOfYear year offset) + 1) := by
  obtain ⟨-, hbefore, hin⟩ := monthOfYear_spec h
  exact ⟨hy, by omega, by omega⟩

/-- A year that begins before the end of the calendar and ends after its beginning is in the calendar. -/
theorem year_mem_calendar {year n : Int} (h : daysBeforeYear firstYear < n) (h' : n ≤ daysBeforeYear (lastYear + 1))
    (hbefore : daysBeforeYear year < n) (hin : n ≤ daysBeforeYear (year + 1)) : firstYear ≤ year ∧ year ≤ lastYear := by
  constructor
  · by_contra hlt
    have hle : daysBeforeYear (year + 1) ≤ daysBeforeYear firstYear := by
      apply daysBeforeYear_mono
      omega
    omega
  · by_contra hlt
    have hle : daysBeforeYear (lastYear + 1) ≤ daysBeforeYear year := by
      apply daysBeforeYear_mono
      omega
    omega

namespace Date

/-- The year in which `ofDayNumber?` looks for the day number `n` is the one that has it. -/
theorem daysBeforeYear_ofDayNumber? (n : Int) :
    let year := 400 * ((n - 1) / cycleDays) + yearOfCycle ((n - 1) % cycleDays) + 1
    daysBeforeYear year < n ∧ n ≤ daysBeforeYear (year + 1) := by
  intro year
  have hpos : 0 < cycleDays := by decide
  obtain ⟨h, h'⟩ := yearOfCycle_spec (Int.emod_nonneg (n - 1) (Int.ne_of_gt hpos)) (Int.emod_lt_of_pos (n - 1) hpos)
  have hsum := Int.mul_ediv_add_emod (n - 1) cycleDays
  have hyear : year = yearOfCycle ((n - 1) % cycleDays) + 1 + 400 * ((n - 1) / cycleDays) := by omega
  have hnext : year + 1 = yearOfCycle ((n - 1) % cycleDays) + 2 + 400 * ((n - 1) / cycleDays) := by omega
  rw [hnext, daysBeforeYear_add_cycles, hyear, daysBeforeYear_add_cycles]
  omega

/-- Every number of a day in the calendar is found, and what is found has that number. -/
theorem exists_ofDayNumber? {n : Int} (h : daysBeforeYear firstYear < n) (h' : n ≤ daysBeforeYear (lastYear + 1)) :
    ∃ d, ofDayNumber? n = some d ∧ d.dayNumber = n := by
  obtain ⟨hbefore, hin⟩ := daysBeforeYear_ofDayNumber? n
  unfold ofDayNumber?
  dsimp only
  generalize 400 * ((n - 1) / cycleDays) + yearOfCycle ((n - 1) % cycleDays) + 1 = year at *
  have hcalendar := year_mem_calendar h h' hbefore hin
  rw [daysBeforeYear_succ] at hin
  have hlt : (n - 1 - daysBeforeYear year).toNat < yearLength year := by omega
  refine ⟨⟨_, _, _, isDate_of_lt_yearLength hcalendar hlt⟩, ofParts?_eq_some_iff.2 ⟨rfl, rfl, rfl⟩, ?_⟩
  have hmonth := (monthOfYear_spec hlt).2.1
  simp only [dayNumber]
  omega

/-- The numbers of a year in the calendar are those of days in the calendar. -/
theorem exists_ofDayNumber?_of_year {year n : Int} (hy : firstYear ≤ year ∧ year ≤ lastYear)
    (hbefore : daysBeforeYear year < n) (hin : n ≤ daysBeforeYear (year + 1)) :
    ∃ d, ofDayNumber? n = some d ∧ d.dayNumber = n := by
  have hfirst := daysBeforeYear_mono hy.1
  have hlast := daysBeforeYear_mono (Int.add_le_add_right hy.2 1)
  exact exists_ofDayNumber? (Int.lt_of_le_of_lt hfirst hbefore) (Int.le_trans hin hlast)

theorem ofDayNumber?_dayNumber (d : Date) : ofDayNumber? d.dayNumber = some d := by
  obtain ⟨hbefore, hin⟩ := d.dayNumber_mem_year
  obtain ⟨d', hd', hn⟩ := exists_ofDayNumber?_of_year d.isDate.1 hbefore hin
  rw [hd', eq_iff.2 (dayNumber_eq_iff.1 hn)]

theorem ofDayNumber?_eq_some_iff {n : Int} {d : Date} : ofDayNumber? n = some d ↔ d.dayNumber = n := by
  constructor
  · intro h
    obtain ⟨hbefore, hin⟩ := daysBeforeYear_ofDayNumber? n
    have hyear := (ofParts?_eq_some_iff.1 h).1
    rw [← hyear] at hbefore hin
    obtain ⟨d', hd', hn⟩ := exists_ofDayNumber?_of_year d.isDate.1 hbefore hin
    cases hd'.symm.trans h
    exact hn
  · rintro rfl
    exact ofDayNumber?_dayNumber d

theorem daysLater?_eq_some_iff {d d' : Date} {n : Nat} : d.daysLater? n = some d' ↔ d'.dayNumber = d.dayNumber + n :=
  ofDayNumber?_eq_some_iff

theorem exists_dayNumber_of_between {a b : Date} {n : Int} (ha : a.dayNumber ≤ n) (hb : n ≤ b.dayNumber) :
    ∃ d : Date, d.dayNumber = n := by
  have hfirst := daysBeforeYear_mono a.isDate.1.1
  have hlast := daysBeforeYear_mono (Int.add_le_add_right b.isDate.1.2 1)
  have hbefore := a.dayNumber_mem_year.1
  have hin := b.dayNumber_mem_year.2
  obtain ⟨d, -, hd⟩ := exists_ofDayNumber? (n := n) (by omega) (by omega)
  exact ⟨d, hd⟩

end Date

end CronSchedule
