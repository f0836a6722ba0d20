import CronSchedule.Calendar.Next
import CronSchedule.Proofs.EarliestTime

/-!
# A search after a time is one from the next minute on

The slot after the last one of a month need not be a date, while the next minute of the calendar is the first of a
month. Still the same minutes come after both, and both lie in the same year (`year_next_of_nextMinute?`), so a search
that begins at the one has the answer of a search that begins at the other (`nextAfter_eq_nextFrom_nextMinute`).
-/

namespace CronSchedule

section
variable {d d' : Date} {t t' : DateTime}

theorem Date.dayNumber_tomorrow? (h : d.tomorrow? = some d') : d'.dayNumber = d.dayNumber + 1 := by
  have hle := d.day_le_monthLength
  have hm := d.month_mem_range
  unfold tomorrow? at h
  unfold dayNumber
  split at h
  · obtain ⟨hy, hm, hd⟩ := ofParts?_eq_some_iff.1 h
    rw [hy, hm, hd]
    omega
  have hlast : d.day = monthLength d.year d.month := by omega
  split at h
  · obtain ⟨hy, hm, hd⟩ := ofParts?_eq_some_iff.1 h
    rw [hy, hm, hd, daysBeforeMonth]
    omega
  · -- the last day of December closes the twelve months of the year
    obtain ⟨hy, hm', hd⟩ := ofParts?_eq_some_iff.1 h
    have hdec : d.month = 12 := by omega
    have hyear : daysBeforeMonth d.year 12 + monthLength d.year 12 = yearLength d.year :=
      daysBeforeMonth_thirteen d.year
    have hjan : daysBeforeMonth (d.year + 1) 1 = 0 := rfl
    rw [hdec] at hlast ⊢
    rw [hy, hm', hd, hjan, daysBeforeYear_succ]
    omega

theorem DateTime.minuteNumber_nextMinute? (h : t.nextMinute? = some t') : t'.minuteNumber = t.minuteNumber + 1 := by
  obtain ⟨hh, hmi, -⟩ := t.isTimeOfDay
  unfold nextMinute? at h
  unfold minuteNumber
  split at h
  · obtain ⟨hd, hh', hm', -⟩ := ofParts?_eq_some_iff.1 h
    rw [hd, hh', hm']
    omega
  split at h
  · obtain ⟨hd, hh', hm', -⟩ := ofParts?_eq_some_iff.1 h
    rw [hd, hh', hm']
    omega
  · obtain ⟨d, hd, ht⟩ := Option.bind_eq_some_iff.1 h
    obtain ⟨hd', hh', hm', -⟩ := ofParts?_eq_some_iff.1 ht
    rw [hd', hh', hm', Date.dayNumber_tomorrow? hd]
    omega

/-! ## The year -/

theorem Date.year_tomorrow? (h : d.tomorrow? = some d') :
    d'.year = if d.month = 12 ∧ d.day = 31 then d.year + 1 else d.year := by
  have hle := d.day_le_monthLength
  have hm := d.month_mem_range
  unfold tomorrow? at h
  split at h
  · have hmax := monthLength_le d.year d.month
    rw [if_neg (by omega)]
    exact (ofParts?_eq_some_iff.1 h).1
  split at h
  · rw [if_neg (by omega)]
    exact (ofParts?_eq_some_iff.1 h).1
  · have hdec : d.month = 12 := by omega
    have hday : monthLength d.year d.month = 31 := by
      rw [hdec]
      rfl
    rw [if_pos (by omega)]
    exact (ofParts?_eq_some_iff.1 h).1

theorem DateTime.year_nextMinute? (h : t.nextMinute? = some t') :
    t'.date.year = if t.InLastMinuteOfYear then t.date.year + 1 else t.date.year := by
  obtain ⟨hh, hmi, -⟩ := t.isTimeOfDay
  unfold nextMinute? at h
  split at h
  · have hlast : ¬ t.InLastMinuteOfYear := by
      intro hl
      exact absurd hl.2.2.2 (by omega)
    rw [if_neg hlast, (ofParts?_eq_some_iff.1 h).1]
  split at h
  · have hlast : ¬ t.InLastMinuteOfYear := by
      intro hl
      exact absurd hl.2.2.1 (by omega)
    rw [if_neg hlast, (ofParts?_eq_some_iff.1 h).1]
  · obtain ⟨d, hd, ht⟩ := Option.bind_eq_some_iff.1 h
    have hlast : t.InLastMinuteOfYear ↔ t.date.month = 12 ∧ t.date.day = 31 := by
      unfold InLastMinuteOfYear
      omega
    rw [(ofParts?_eq_some_iff.1 ht).1, Date.year_tomorrow? hd]
    simp only [hlast]

/-- The next minute lies in the year of the next slot, whether or not that slot is a date. -/
theorem year_next_of_nextMinute? (h : t.nextMinute? = some t') : (Slot.of t).next.year = t'.date.year := by
  rw [DateTime.year_nextMinute? h]
  exact Slot.year_next (Slot.inRange_of t)

end

/-! ## The two searches -/

namespace Schedule

section
variable {c : Schedule} {t t' : DateTime}

theorem isCandidate_next_iff (h : t.nextMinute? = some t') (bound : Int) (x : DateTime) :
    c.IsCandidate (Slot.of t).next bound x ↔ c.IsCandidate (Slot.of t') bound x := by
  have hn := DateTime.minuteNumber_nextMinute? h
  have hrank : (Slot.of t).next.rank ≤ (Slot.of x).rank ↔ (Slot.of t').rank ≤ (Slot.of x).rank := by
    rw [Slot.rank_next_of_le_iff, Slot.rank_of_le_iff]
    omega
  constructor
  · intro hx
    exact ⟨hx.isMinute, hrank.1 hx.le_rank, hx.year_lt, hx.fires⟩
  · intro hx
    exact ⟨hx.isMinute, hrank.2 hx.le_rank, hx.year_lt, hx.fires⟩

end

/-- **Exclusive and inclusive search.** The search after `t` is the search from the next minute on; where both fail,
their errors differ only in the time that was asked for. -/
theorem nextAfter_eq_nextFrom_nextMinute (c : Schedule) {t t' : DateTime} (h : t.nextMinute? = some t') :
    (∀ x, c.nextAfter t = .ok x ↔ c.nextFrom t' = .ok x) ∧
      ((∃ e, c.nextAfter t = .error e) ↔ ∃ e, c.nextFrom t' = .error e) ∧
      ∀ e e', c.nextAfter t = .error e → c.nextFrom t' = .error e' →
        e.boundYear = e'.boundYear ∧ e.since = t ∧ e'.since = t' := by
  have hyear := year_next_of_nextMinute? h
  have hafter := (nextAfter_isAnswer c t).congr (isCandidate_next_iff h _)
  have hfrom := nextFrom_isAnswer c t'
  rw [hyear] at hafter
  refine ⟨fun x => ?_, ?_, fun e e' he he' => ?_⟩
  · rw [hafter.ok_iff, hfrom.ok_iff]
  · rw [hafter.fails_iff, hfrom.fails_iff]
  · obtain ⟨rfl, -⟩ := (hafter.error_iff e).1 he
    obtain ⟨rfl, -⟩ := (hfrom.error_iff e').1 he'
    exact ⟨rfl, rfl, rfl⟩

-- At the end of a February of 28 days the one search begins at a slot that is no date, the other on 1 March.
theorem nextAfter_eq_nextFrom_nextMinute_february :
    let c : Schedule := ⟨.ofList [0], .ofList [0], .full .dayOfMonth, .full .month, .full .dayOfWeek, true, true⟩
    let t : DateTime := ⟨⟨2023, 2, 28, by decide⟩, 23, 59, 45, 0, by decide⟩
    let t' : DateTime := ⟨⟨2023, 3, 1, by decide⟩, 0, 0, 0, 0, by decide⟩
    t.nextMinute? = some t' ∧ (Slot.of t).next.date? = none ∧ c.nextFrom t' = .ok t' ∧ c.nextAfter t = .ok t' := by
  intro c t t'
  have ht : t.nextMinute? = some t' := by decide
  have hfrom : c.nextFrom t' = .ok t' := by
    show (c.search t' (Slot.of t')).outcome = _
    rw [outcome_search, walk_of_fires (t := t') (by decide) (by decide)]
  exact ⟨ht, by decide, hfrom, ((nextAfter_eq_nextFrom_nextMinute c ht).1 t').2 hfrom⟩

end Schedule

end CronSchedule
