import CronSchedule.Proofs.DayRule
import CronSchedule.Proofs.EarliestTime

/-!
# When a search is exhausted

A search sees the whole year after the one in which it begins. Weekdays come up in every month, so only a
schedule whose days are days of the month can fail: if no month of a common year has one of its days, and no
29 February helps (`nextAfter_fails_iff`).
-/

namespace CronSchedule

theorem monthLength_le_of_common {year : Int} (h : ¬ IsLeapYear year) (year' : Int) (month : Nat) :
    monthLength year month ≤ monthLength year' month := by
  by_cases hm : month = 2
  · subst hm
    rw [monthLength_february_of_common h]
    exact le_monthLength year' (by decide) (by decide)
  · exact Nat.le_of_eq (monthLength_of_ne_two year year' hm)

/-- A day that common years do not have is 29 February. -/
theorem eq_february_of_common_lt {d : Date} (h : ∀ year, ¬ IsLeapYear year → monthLength year d.month < d.day) :
    IsLeapYear d.year ∧ d.month = 2 ∧ d.day = 29 := by
  have hle := d.day_le_monthLength
  have hm : d.month = 2 := by
    refine Classical.byContradiction fun hm => ?_
    have := h 1 (by decide)
    rw [monthLength_of_ne_two 1 d.year hm] at this
    omega
  have hl : IsLeapYear d.year := by
    refine Classical.byContradiction fun hl => ?_
    have := h d.year hl
    omega
  have h₁ := h 1 (by decide)
  rw [hm, monthLength_february_of_common (by decide)] at h₁
  rw [hm, monthLength_february_of_leap hl] at hle
  exact ⟨hl, hm, by omega⟩

namespace Schedule

section
variable {c : Schedule}

/-- On a day of the next year there is a time that the search can find. -/
theorem WellFormed.exists_isCandidate (hc : c.WellFormed) {first : Slot} (hf : first.InRange) {d : Date}
    (hy : d.year = first.year + 1) (hm : d.month ∈ c.months) (hd : c.firesOn d = true) :
    ∃ x, c.IsCandidate first (first.year + 2) x := by
  obtain ⟨h, hh⟩ := hc.exists_mem .hour
  obtain ⟨m, hmi⟩ := hc.exists_mem .minute
  refine ⟨⟨d, h, m, 0, 0, isTimeOfDay_minute (hc.hour_lt hh) (hc.minute_lt hmi)⟩, ⟨rfl, rfl⟩, ?_, ?_, ?_⟩
  · refine Int.le_of_lt ((Slot.rank_lt_iff hf (Slot.inRange_of _)).2 (Or.inl ?_))
    simp only [Slot.of]
    omega
  · simp only
    omega
  · exact fires_iff.2 ⟨hm, hd, hh, hmi⟩

theorem WellFormed.exists_isCandidate_of_weekdays (hc : c.WellFormed) (hs : c.dayOfWeekStarred = false) {first : Slot}
    (hf : first.InRange) (hy : firstYear ≤ first.year + 1 ∧ first.year + 1 ≤ lastYear) :
    ∃ x, c.IsCandidate first (first.year + 2) x := by
  obtain ⟨m, hm⟩ := hc.exists_mem .month
  obtain ⟨w, hw⟩ := hc.exists_mem .dayOfWeek
  obtain ⟨d, hdy, hdm, hdw⟩ := exists_day_of_weekday hy (hc.month_mem_range hm) (Nat.mod_lt w (by decide))
  refine hc.exists_isCandidate hf hdy (hdm ▸ hm) (firesOn_of_hasWeekday hs ?_)
  exact hasWeekday_of_mem hw (hc.mem_range .dayOfWeek w hw).2 hdw

/-! ## Days of the month -/

/-- Some month of a common year has one of the days. -/
def HasCommonDay (c : Schedule) : Prop :=
  ∃ year m d, ¬ IsLeapYear year ∧ m ∈ c.months ∧ d ∈ c.daysOfMonth ∧ d ≤ monthLength year m

/-- The schedule has 29 February, and there is one next year, or this year with a minute of it still to come. -/
def HasLeapDay (c : Schedule) (first : Slot) : Prop :=
  2 ∈ c.months ∧ 29 ∈ c.daysOfMonth ∧
    (IsLeapYear (first.year + 1) ∨ IsLeapYear first.year ∧
      ∃ h ∈ c.hours, ∃ m ∈ c.minutes, ¬ (⟨first.year, 2, 29, h, m⟩ : Slot).Before first)

theorem WellFormed.exists_isCandidate_of_day (hc : c.WellFormed) (hs : c.dayOfWeekStarred = true) {first : Slot}
    (hf : first.InRange) (hy : firstYear ≤ first.year + 1 ∧ first.year + 1 ≤ lastYear) {m d : Nat}
    (hm : m ∈ c.months) (hd : d ∈ c.daysOfMonth) (hle : d ≤ monthLength (first.year + 1) m) :
    ∃ x, c.IsCandidate first (first.year + 2) x := by
  have hd₁ : 1 ≤ d := (hc.mem_range .dayOfMonth d hd).1
  exact hc.exists_isCandidate (d := ⟨first.year + 1, m, d, hy, hd₁, hle⟩) hf rfl hm
    ((firesOn_iff_of_dayOfWeekStarred hs).2 hd)

theorem WellFormed.exists_isCandidate_of_commonDay (hc : c.WellFormed) (hs : c.dayOfWeekStarred = true) {first : Slot}
    (hf : first.InRange) (hy : firstYear ≤ first.year + 1 ∧ first.year + 1 ≤ lastYear) (h : c.HasCommonDay) :
    ∃ x, c.IsCandidate first (first.year + 2) x := by
  obtain ⟨year, m, d, hcommon, hm, hd, hle⟩ := h
  exact hc.exists_isCandidate_of_day hs hf hy hm hd (Nat.le_trans hle (monthLength_le_of_common hcommon _ m))

theorem WellFormed.exists_isCandidate_of_leapDay (hc : c.WellFormed) (hs : c.dayOfWeekStarred = true) {first : Slot}
    (hf : first.InRange) (hy : firstYear ≤ first.year ∧ first.year + 1 ≤ lastYear) (h : c.HasLeapDay first) :
    ∃ x, c.IsCandidate first (first.year + 2) x := by
  obtain ⟨hm, hd, hl | ⟨hl, hour, hh, minute, hmi, hb⟩⟩ := h
  · exact hc.exists_isCandidate_of_day hs hf (by omega) hm hd (Nat.le_of_eq (monthLength_february_of_leap hl).symm)
  · -- this year has the day, and the minute found there is the candidate
    have hle : 29 ≤ monthLength first.year 2 := Nat.le_of_eq (monthLength_february_of_leap hl).symm
    let x : DateTime :=
      ⟨⟨first.year, 2, 29, by omega, by decide, hle⟩, hour, minute, 0, 0,
        isTimeOfDay_minute (hc.hour_lt hh) (hc.minute_lt hmi)⟩
    have hrank : ¬ (Slot.of x).rank < first.rank := by
      rw [Slot.rank_lt_iff (Slot.inRange_of x) hf]
      exact hb
    refine ⟨x, ⟨rfl, rfl⟩, by omega, ?_, fires_iff.2 ⟨hm, (firesOn_iff_of_dayOfWeekStarred hs).2 hd, hh, hmi⟩⟩
    simp only [x]
    omega

theorem hasDay_of_isCandidate (hs : c.dayOfWeekStarred = true) {first : Slot} (hf : first.InRange) {x : DateTime}
    (hx : c.IsCandidate first (first.year + 2) x) : c.HasCommonDay ∨ c.HasLeapDay first := by
  obtain ⟨hm, hd, hh, hmi⟩ := fires_iff.1 hx.fires
  rw [firesOn_iff_of_dayOfWeekStarred hs] at hd
  refine Classical.or_iff_not_imp_left.2 fun hn => ?_
  obtain ⟨hl, hm₂, hd₂⟩ := eq_february_of_common_lt (d := x.date) fun year hy =>
    Nat.lt_of_not_le fun hle => hn ⟨year, _, _, hy, hm, hd, hle⟩
  refine ⟨hm₂ ▸ hm, hd₂ ▸ hd, ?_⟩
  have hle : first.year ≤ x.date.year := Slot.year_le_of_rank_le hf (Slot.inRange_of x) hx.le_rank
  have hlt := hx.year_lt
  by_cases hy : x.date.year = first.year
  · refine Or.inr ⟨hy ▸ hl, x.hour, hh, x.minute, hmi, ?_⟩
    have hslot : (⟨first.year, 2, 29, x.hour, x.minute⟩ : Slot) = Slot.of x := by
      simp only [Slot.of, hy, hm₂, hd₂]
    rw [hslot, ← Slot.rank_lt_iff (Slot.inRange_of x) hf]
    have := hx.le_rank
    omega
  · have hy' : x.date.year = first.year + 1 := by omega
    exact Or.inl (hy' ▸ hl)

theorem WellFormed.exists_isCandidate_iff (hc : c.WellFormed) {first : Slot} (hf : first.InRange)
    (hy : firstYear ≤ first.year ∧ first.year + 1 ≤ lastYear) :
    (∃ x, c.IsCandidate first (first.year + 2) x) ↔
      c.dayOfWeekStarred = false ∨ c.HasCommonDay ∨ c.HasLeapDay first := by
  refine ⟨fun h => ?_, fun h => ?_⟩
  · obtain ⟨x, hx⟩ := h
    by_cases hs : c.dayOfWeekStarred = true
    · exact Or.inr (hasDay_of_isCandidate hs hf hx)
    · exact Or.inl (Bool.eq_false_iff.mpr hs)
  · by_cases hs : c.dayOfWeekStarred = true
    · rcases h with h | h | h
      · rw [hs] at h; cases h
      · exact hc.exists_isCandidate_of_commonDay hs hf (by omega) h
      · exact hc.exists_isCandidate_of_leapDay hs hf hy h
    · exact hc.exists_isCandidate_of_weekdays (Bool.eq_false_iff.mpr hs) hf (by omega)

end

/-- **Exhaustion.** With the next year in the calendar, a search fails just if the weekday field is starred, no
month of a common year has one of the days, and no 29 February helps. -/
theorem nextAfter_fails_iff {minute hour dayOfMonth month dayOfWeek : List Char} {c : Schedule}
    (h : ofFields [minute, hour, dayOfMonth, month, dayOfWeek] = .ok c) (now : DateTime)
    (hy : (Slot.of now).next.year + 1 ≤ lastYear) :
    ((∃ e, c.nextAfter now = .error e) ↔
        (trim dayOfWeek).head? = some '*' ∧ ¬ c.HasCommonDay ∧ ¬ c.HasLeapDay (Slot.of now).next) ∧
      ((trim dayOfWeek).head? ≠ some '*' → ∃ x, c.nextAfter now = .ok x) := by
  have hc := wellFormed_of_ofFields h
  have hs : c.dayOfWeekStarred = true ↔ (trim dayOfWeek).head? = some '*' := by
    rw [((ofFields_map_eq_ok_iff (assign minute hour dayOfMonth month dayOfWeek)).1 h).2.2]
    exact isStarred_iff
  have hr := Slot.inRange_of now
  have hfirst : firstYear ≤ (Slot.of now).next.year := by
    have hle := Slot.year_le_of_rank_le hr hr.next (by rw [Slot.rank_next hr]; omega)
    exact Int.le_trans now.date.isDate.1.1 hle
  have hP := hc.exists_isCandidate_iff hr.next ⟨hfirst, hy⟩
  have hA := nextAfter_isAnswer c now
  refine ⟨?_, fun hn => ?_⟩
  · rw [hA.fails_iff, hP, ← hs]
    simp
  · rw [hA.succeeds_iff, hP]
    exact Or.inl (Bool.eq_false_iff.mpr fun h => hn (hs.1 h))

-- At noon of 29 February, the only minute of the schedule in 2024 has just begun.
theorem nextAfter_fails_at_leap_noon :
    ∃ c, ofFields ["0".toList, "12".toList, " 29".toList, "feb".toList, "*/2".toList] = .ok c ∧
      (Slot.of ⟨⟨2024, 2, 29, by decide⟩, 12, 0, 30, 0, by decide⟩).next.year + 1 ≤ lastYear ∧
      ∃ e, c.nextAfter ⟨⟨2024, 2, 29, by decide⟩, 12, 0, 30, 0, by decide⟩ = .error e := by
  have hc : ofFields ["0".toList, "12".toList, " 29".toList, "feb".toList, "*/2".toList] =
      .ok ⟨.ofList [0], .ofList [12], .ofList [29], .ofList [2], .ofList [0, 2, 4, 6], false, true⟩ := rfl
  refine ⟨_, hc, by decide, (nextAfter_fails_iff hc _ (by decide)).1.2 ⟨by decide, fun h => ?_, fun h => ?_⟩⟩
  · obtain ⟨year, m, d, hy, hm, hd, hle⟩ := h
    simp only [ValueSet.mem_ofList, List.mem_singleton] at hm hd
    rw [hm.1, hd.1, monthLength_february_of_common hy] at hle
    exact absurd hle (by decide)
  · obtain ⟨-, -, hl | ⟨-, hour, hh, minute, hmi, hb⟩⟩ := h
    · exact absurd hl (by decide)
    · simp only [ValueSet.mem_ofList, List.mem_singleton] at hh hmi
      rw [hh.1, hmi.1] at hb
      exact hb (by simp [Slot.Before, Slot.of, Slot.next])

end Schedule

end CronSchedule
