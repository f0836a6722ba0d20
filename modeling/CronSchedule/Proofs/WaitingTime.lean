import CronSchedule.Proofs.DayNumbers
import CronSchedule.Proofs.DayRule
import CronSchedule.Proofs.Upcoming

/-!
# How long the next time is away

A schedule for all months waits for its days only. If it fires both on the day of a time and `k` days later, then either
the day itself still has a time to come, or all times of the later day are at most `k` days away
(`hasWithin_of_firesOn_both`). So one day suffices where every day is one of the schedule, and a week where its
weekdays count, since each weekday comes back after seven days (`nextAfter_within`).
-/

namespace CronSchedule

/-! ## Days and minutes -/

section
variable {a b : Date}

/-- A few days later it is at most one year later. -/
theorem Date.year_le_of_dayNumber_le (h : b.dayNumber ≤ a.dayNumber + 7) : b.year ≤ a.year + 1 := by
  by_contra hlt
  have ha := a.dayNumber_mem_year.2
  have hb := b.dayNumber_mem_year.1
  have hlater : daysBeforeYear (a.year + 1 + 1) ≤ daysBeforeYear b.year := by
    apply daysBeforeYear_mono
    omega
  have hlength : 365 ≤ yearLength (a.year + 1) := by
    unfold yearLength
    split <;> decide
  rw [daysBeforeYear_succ] at hlater
  omega

theorem Date.exists_weekday_within (a : Date) {w : Nat} (hw : w < 7) :
    ∃ k : Nat, (1 ≤ k ∧ k ≤ 7) ∧ ∀ b : Date, b.dayNumber = a.dayNumber + k → b.weekday = w := by
  refine ⟨((w - a.dayNumber - 1) % 7).toNat + 1, by omega, fun b hb => ?_⟩
  unfold weekday
  rw [hb]
  omega

theorem Date.weekday_eq_of_week (h : b.dayNumber = a.dayNumber + 7) : b.weekday = a.weekday := by
  unfold weekday
  rw [h]
  omega

end

theorem DateTime.minuteNumber_mem_day (t : DateTime) :
    t.date.dayNumber * 1440 ≤ t.minuteNumber ∧ t.minuteNumber < t.date.dayNumber * 1440 + 1440 := by
  obtain ⟨hhour, hminute, -⟩ := t.isTimeOfDay
  unfold minuteNumber
  omega

/-- The seconds of `now`, a leap second among them, only make the time shorter. -/
theorem DateTime.since_le_of_minuteNumber_le {x now : DateTime} (hx : x.IsMinute) {n : Nat}
    (h : x.minuteNumber ≤ now.minuteNumber + n) : x.since now ≤ n * 60 * nanoseconds := by
  obtain ⟨hs, hn⟩ := hx
  unfold minuteNumber at h
  simp only [since, InLeapSecond, secondOfDay, nanoseconds, hs, hn]
  split
  · omega
  split <;> omega

namespace Schedule

section
variable {c : Schedule} {now : DateTime} {d : Date} {k : Nat}

/-- At one time of day the schedule fires on every day that it fires on at all. -/
theorem WellFormed.exists_timeOfDay (hc : c.WellFormed) :
    ∃ n : Nat, n < 1440 ∧ ∀ (now : DateTime) (d : Date), d.month ∈ c.months → c.firesOn d = true →
      now.minuteNumber < d.dayNumber * 1440 + n → d.dayNumber ≤ now.date.dayNumber + 7 →
      ∃ x, c.InReach now x ∧ x.minuteNumber = d.dayNumber * 1440 + n := by
  obtain ⟨h, hh⟩ := hc.exists_mem .hour
  obtain ⟨m, hmi⟩ := hc.exists_mem .minute
  have hh24 := hc.hour_lt hh
  have hm60 := hc.minute_lt hmi
  refine ⟨h * 60 + m, by omega, fun now d hm hd hlater hsoon => ?_⟩
  have hnum : (d.dayNumber * 24 + h) * 60 + m = d.dayNumber * 1440 + (h * 60 + m : Nat) := by omega
  refine ⟨⟨d, h, m, 0, 0, isTimeOfDay_minute hh24 hm60⟩, ⟨⟨rfl, rfl⟩, ?_, ?_, ?_⟩, hnum⟩
  · show now.minuteNumber < (d.dayNumber * 24 + h) * 60 + m
    omega
  · exact fires_iff.2 ⟨hm, hd, hh, hmi⟩
  · have hyear := Date.year_le_of_dayNumber_le hsoon
    have hnext : now.date.year ≤ (Slot.of now).next.year := Slot.year_le_year_next _
    show d.year < _
    omega

/-- Some time after `now` is at most `days` days away. -/
def HasWithin (c : Schedule) (now : DateTime) (days : Nat) : Prop :=
  ∃ x, c.InReach now x ∧ x.minuteNumber ≤ now.minuteNumber + days * 1440

theorem WellFormed.hasWithin_of_firesOn (hc : c.WellFormed) (hmonths : ∀ d : Date, d.month ∈ c.months)
    (hk : 1 ≤ k ∧ k ≤ 6) (hd : d.dayNumber = now.date.dayNumber + k) (hf : c.firesOn d = true) : c.HasWithin now 7 := by
  obtain ⟨n, hn, hday⟩ := hc.exists_timeOfDay
  have hnow := now.minuteNumber_mem_day
  obtain ⟨x, hx, hxn⟩ := hday now d (hmonths d) hf (by omega) (by omega)
  exact ⟨x, hx, by omega⟩

theorem WellFormed.hasWithin_of_firesOn_both (hc : c.WellFormed) (hmonths : ∀ d : Date, d.month ∈ c.months)
    (hk : 1 ≤ k ∧ k ≤ 7) (hd : d.dayNumber = now.date.dayNumber + k) (htoday : c.firesOn now.date = true)
    (hf : c.firesOn d = true) : c.HasWithin now k := by
  obtain ⟨n, hn, hday⟩ := hc.exists_timeOfDay
  have hnow := now.minuteNumber_mem_day
  by_cases hlater : now.minuteNumber < now.date.dayNumber * 1440 + n
  · obtain ⟨x, hx, hxn⟩ := hday now now.date (hmonths now.date) htoday hlater (by omega)
    exact ⟨x, hx, by omega⟩
  · -- the time of day has passed, so on the later day it comes before `k` days are over
    obtain ⟨x, hx, hxn⟩ := hday now d (hmonths d) hf (by omega) (by omega)
    exact ⟨x, hx, by omega⟩

theorem HasWithin.nextAfter (h : c.HasWithin now k) :
    ∃ x, c.nextAfter now = .ok x ∧ x.since now ≤ k * DateTime.dayLength := by
  obtain ⟨y, hy, hle⟩ := h
  have hA := nextAfter_isAnswer_inReach c now
  obtain ⟨x, hx⟩ := hA.succeeds_iff.2 ⟨y, hy⟩
  have hE := (hA.ok_iff x).1 hx
  have hxy := hE.le y hy
  have hmin : x.minuteNumber ≤ now.minuteNumber + (k * 1440 : Nat) := by omega
  have hsince := DateTime.since_le_of_minuteNumber_le hE.mem.isMinute hmin
  refine ⟨x, hx, ?_⟩
  unfold nanoseconds at hsince
  unfold DateTime.dayLength nanoseconds
  omega

theorem WellFormed.hasWithin_week (hc : c.WellFormed) (hmonths : ∀ d : Date, d.month ∈ c.months)
    (hs : c.dayOfWeekStarred = false) {week : Date} (hweek : now.date.daysLater? 7 = some week) :
    c.HasWithin now 7 := by
  obtain ⟨w, hw⟩ := hc.exists_mem .dayOfWeek
  have hfires : ∀ d : Date, d.weekday = w % 7 → c.firesOn d = true := fun d hd =>
    firesOn_of_hasWeekday hs (hasWeekday_of_mem hw (hc.mem_range .dayOfWeek w hw).2 hd)
  obtain ⟨k, hk, hday⟩ := now.date.exists_weekday_within (Nat.mod_lt w (by decide))
  have hseven := Date.daysLater?_eq_some_iff.1 hweek
  obtain ⟨d, hd⟩ := Date.exists_dayNumber_of_between (a := now.date) (b := week) (n := now.date.dayNumber + k)
    (by omega) (by omega)
  by_cases h7 : k = 7
  · -- today has that weekday as well
    subst h7
    have htoday := Date.weekday_eq_of_week hd
    exact hc.hasWithin_of_firesOn_both hmonths hk hd (hfires _ (htoday ▸ hday d hd)) (hfires d (hday d hd))
  · exact hc.hasWithin_of_firesOn hmonths (by omega) hd (hfires d (hday d hd))

end

/-- **Waiting time.** With all months among its values and the next week in the calendar, a schedule that fires every
day fires within a day, and one whose weekdays count fires within a week. -/
theorem nextAfter_within {texts : Field → List Char} {c : Schedule} (h : ofFields (Field.all.map texts) = .ok c)
    (hmonths : c.months = .full .month) {now : DateTime} {week : Date} (hweek : now.date.daysLater? 7 = some week) :
    ((∀ d, c.firesOn d = true) → ∃ x, c.nextAfter now = .ok x ∧ x.since now ≤ DateTime.dayLength) ∧
      ((trim (texts .dayOfWeek)).head? ≠ some '*' →
        ∃ x, c.nextAfter now = .ok x ∧ x.since now ≤ 7 * DateTime.dayLength) := by
  have hc := wellFormed_of_ofFields h
  have hmonth : ∀ d : Date, d.month ∈ c.months := by
    intro d
    rw [hmonths]
    exact ValueSet.mem_full.2 d.month_mem_range
  constructor
  · intro hall
    have hseven := Date.daysLater?_eq_some_iff.1 hweek
    obtain ⟨d, hd⟩ := Date.exists_dayNumber_of_between (a := now.date) (b := week) (n := now.date.dayNumber + 1)
      (by omega) (by omega)
    have hwithin := hc.hasWithin_of_firesOn_both (k := 1) hmonth (by decide) hd (hall _) (hall d)
    obtain ⟨x, hx, hle⟩ := hwithin.nextAfter
    exact ⟨x, hx, by omega⟩
  · intro hstar
    have hs : c.dayOfWeekStarred = false := by
      rw [((ofFields_map_eq_ok_iff texts).1 h).2.2, Bool.eq_false_iff]
      exact mt isStarred_iff.1 hstar
    exact (hc.hasWithin_week hmonth hs hweek).nextAfter

-- In a leap second, just after midnight, with the next midnight on 29 February.
theorem nextAfter_within_leap_day :
    let texts := assign "0".toList "0".toList "1-31".toList "*".toList "mon".toList
    let c : Schedule := ⟨.ofList [0], .ofList [0], .full .dayOfMonth, .full .month, .ofList [1], false, false⟩
    let now : DateTime := ⟨⟨2024, 2, 28, by decide⟩, 0, 0, 59, 1500000000, by decide⟩
    ofFields (Field.all.map texts) = .ok c ∧ now.date.daysLater? 7 = some ⟨2024, 3, 6, by decide⟩ ∧
      (∀ d, c.firesOn d = true) ∧ (trim (texts .dayOfWeek)).head? ≠ some '*' ∧
      (∃ x, c.nextAfter now = .ok x ∧ x.since now ≤ DateTime.dayLength) ∧
      ∃ x, c.nextAfter now = .ok x ∧ x.since now ≤ 7 * DateTime.dayLength := by
  intro texts c now
  have hc : ofFields (Field.all.map texts) = .ok c := by decide +kernel
  have hweek : now.date.daysLater? 7 = some ⟨2024, 3, 6, by decide⟩ := Date.daysLater?_eq_some_iff.2 (by decide)
  have hall : ∀ d, c.firesOn d = true := by
    intro d
    have hday : d.day ∈ c.daysOfMonth := ValueSet.mem_full.2 ⟨d.one_le_day, d.day_le⟩
    simp [firesOn, hday]
  have hstar : (trim (texts .dayOfWeek)).head? ≠ some '*' := by decide
  obtain ⟨hday, hseven⟩ := nextAfter_within hc rfl hweek
  exact ⟨hc, hweek, hall, hstar, hday hall, hseven hstar⟩

end Schedule

end CronSchedule
