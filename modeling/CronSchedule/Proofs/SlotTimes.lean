import Mathlib.Data.List.Iterate
import CronSchedule.Calendar.Next
import CronSchedule.Proofs.SlotCounting
import CronSchedule.Proofs.TimeOrder

/-!
# The times in a row of slots

Slots that no date fills stand at the end of a month only, so the first time from a slot on is its own or that of the
first slot of the next month (`firstTime?`). A step past a time leads to the next minute of the calendar, and a step
past an empty slot changes nothing (`firstTime?_next_of_some`, `firstTime?_next_of_none`). So the times in a row of
slots are the minutes of the calendar one by one (`times_of_slots`).
-/

namespace CronSchedule

namespace Slot

section
variable {s : Slot} {t : DateTime}

/-! ## Months that are over -/

theorem exists_time? (h : s.InRange) (hy : firstYear ≤ s.year ∧ s.year ≤ lastYear)
    (hd : s.day ≤ monthLength s.year s.month) : ∃ t, s.time? = some t :=
  exists_time?_iff.2 ⟨⟨hy, h.2.1.1, hd⟩, h.2.2⟩

theorem year_mem_calendar_of_time? (h : s.time? = some t) : firstYear ≤ s.year ∧ s.year ≤ lastYear := by
  obtain ⟨rfl, -⟩ := time?_eq_some_iff.1 h
  exact t.date.isDate.1

theorem day_le_of_time? (h : s.time? = some t) : s.day ≤ monthLength s.year s.month := by
  obtain ⟨rfl, -⟩ := time?_eq_some_iff.1 h
  exact t.date.day_le_monthLength

/-- December has a day for each of its slots, so a month that is over is followed by one of the same year. -/
theorem after_month_of_over (h : s.InRange) (hd : monthLength s.year s.month < s.day) :
    s.after .month = ⟨s.year, s.month + 1, 1, 0, 0⟩ := by
  have hdec : s.month ≠ 12 := by
    intro heq
    rw [heq] at hd
    exact absurd hd (Nat.not_lt.mpr h.2.1.2)
  have hmonth := h.1.2
  rw [after_month, if_pos (by omega)]

theorem day_le_of_startsMonth (h : s.InRange) (hs : s.StartsUnit .month) : s.day ≤ monthLength s.year s.month := by
  rw [hs.1]
  exact one_le_monthLength_iff.2 h.1

/-! ## The first time from a slot on -/

/-- The time of the slot, or that of the first slot of the next month if the month of the slot is over. -/
def firstTime? (s : Slot) : Option DateTime :=
  if s.day ≤ monthLength s.year s.month then s.time? else (s.after .month).time?

theorem firstTime?_of_le (h : s.day ≤ monthLength s.year s.month) : s.firstTime? = s.time? :=
  if_pos h

theorem firstTime?_of_over (h : monthLength s.year s.month < s.day) : s.firstTime? = (s.after .month).time? :=
  if_neg (Nat.not_le.mpr h)

theorem firstTime?_of_time? (h : s.time? = some t) : s.firstTime? = some t := by
  rw [firstTime?_of_le (day_le_of_time? h), h]

theorem firstTime?_after_month (h : s.InRange) : (s.after .month).firstTime? = (s.after .month).time? :=
  firstTime?_of_le (day_le_of_startsMonth (h.after .month) (s.startsUnit_after .month))

theorem time?_of_firstTime? (h : s.firstTime? = some t) : (Slot.of t).time? = some t := by
  have hm : t.IsMinute := by
    unfold firstTime? at h
    split at h
    · exact (time?_eq_some_iff.1 h).2
    · exact (time?_eq_some_iff.1 h).2
  exact time?_eq_some_iff.2 ⟨rfl, hm⟩

theorem exists_firstTime? (h : s.InRange) (hy : firstYear ≤ s.year ∧ s.year ≤ lastYear) :
    ∃ t, s.firstTime? = some t := by
  by_cases hd : s.day ≤ monthLength s.year s.month
  · rw [firstTime?_of_le hd]
    exact exists_time? h hy hd
  · have hover := Nat.not_le.mp hd
    have hday := day_le_of_startsMonth (h.after .month) (s.startsUnit_after .month)
    have hyear : (s.after .month).year = s.year := by rw [after_month_of_over h hover]
    rw [firstTime?_of_over hover]
    exact exists_time? (h.after .month) (hyear.symm ▸ hy) hday

theorem year_le_of_firstTime? (ht : s.firstTime? = some t) : s.year ≤ lastYear := by
  by_cases hd : s.day ≤ monthLength s.year s.month
  · rw [firstTime?_of_le hd] at ht
    exact (year_mem_calendar_of_time? ht).2
  · rw [firstTime?_of_over (Nat.not_le.mp hd)] at ht
    exact Int.le_trans (s.year_le_year_after .month) (year_mem_calendar_of_time? ht).2

theorem firstTime?_eq_none_iff (h : s.InRange) (hy : firstYear ≤ s.year) :
    s.firstTime? = none ↔ lastYear < s.year := by
  constructor
  · intro hnone
    by_contra hlast
    obtain ⟨t, ht⟩ := exists_firstTime? h ⟨hy, Int.not_lt.mp hlast⟩
    rw [hnone] at ht
    cases ht
  · intro hlast
    apply Option.eq_none_iff_forall_ne_some.2
    intro t ht
    exact absurd (year_le_of_firstTime? ht) (Int.not_le.mpr hlast)

/-- A month is over for three days at most. -/
theorem rank_of_firstTime? (h : s.InRange) (ht : s.firstTime? = some t) :
    s.rank ≤ (Slot.of t).rank ∧ (Slot.of t).rank ≤ s.rank + 3 * 1440 := by
  by_cases hd : s.day ≤ monthLength s.year s.month
  · rw [firstTime?_of_le hd] at ht
    rw [(time?_eq_some_iff.1 ht).1]
    omega
  · have hover := Nat.not_le.mp hd
    have hlength := le_monthLength s.year h.1.1 h.1.2
    rw [firstTime?_of_over hover, after_month_of_over h hover] at ht
    rw [(time?_eq_some_iff.1 ht).1]
    unfold InRange at h
    simp only [rank]
    omega

/-! ## One step -/

theorem firstTime?_of_date (d : Date) (hour minute : Nat) :
    (⟨d.year, d.month, d.day, hour, minute⟩ : Slot).firstTime? = DateTime.ofParts? d hour minute 0 0 := by
  have hdate : Date.ofParts? d.year d.month d.day = some d := Date.ofParts?_eq_some_iff.2 ⟨rfl, rfl, rfl⟩
  rw [firstTime?_of_le d.day_le_monthLength]
  simp only [time?, date?, hdate, Option.bind_some]

theorem firstTime?_after_day (t : DateTime) :
    ((Slot.of t).after .day).firstTime? = t.date.tomorrow?.bind fun d => DateTime.ofParts? d 0 0 0 0 := by
  have hle := t.date.day_le_monthLength
  have hmax := monthLength_le t.date.year t.date.month
  have hr := inRange_of t
  unfold Date.tomorrow?
  by_cases hd : t.date.day < monthLength t.date.year t.date.month
  · rw [after_day, if_pos (show (Slot.of t).day < 31 from Nat.lt_of_lt_of_le hd hmax), if_pos hd]
    exact firstTime?_of_le hd
  · -- the day is the last one of its month
    have hmonth : ((Slot.of t).after .month).time? =
        (if t.date.month < 12 then Date.ofParts? t.date.year (t.date.month + 1) 1
          else Date.ofParts? (t.date.year + 1) 1 1).bind fun d => DateTime.ofParts? d 0 0 0 0 := by
      rw [after_month]
      by_cases hdec : t.date.month < 12
      · rw [if_pos hdec, if_pos (show (Slot.of t).month < 12 from hdec)]
        rfl
      · rw [if_neg hdec, if_neg (show ¬ (Slot.of t).month < 12 from hdec)]
        rfl
    rw [if_neg hd, ← hmonth, after_day]
    split
    · exact firstTime?_of_over (Nat.lt_succ_of_le (Nat.not_lt.mp hd))
    · exact firstTime?_after_month hr

theorem firstTime?_next_of_some (h : s.time? = some t) : s.next.firstTime? = t.nextMinute? := by
  obtain ⟨rfl, -⟩ := time?_eq_some_iff.1 h
  unfold DateTime.nextMinute?
  rw [next_eq]
  by_cases hm : t.minute < 59
  · rw [if_pos hm, if_pos (show (Slot.of t).minute < 59 from hm)]
    exact firstTime?_of_date t.date t.hour (t.minute + 1)
  rw [if_neg hm, if_neg (show ¬ (Slot.of t).minute < 59 from hm), after_hour]
  by_cases hh : t.hour < 23
  · rw [if_pos hh, if_pos (show (Slot.of t).hour < 23 from hh)]
    exact firstTime?_of_date t.date (t.hour + 1) 0
  · rw [if_neg hh, if_neg (show ¬ (Slot.of t).hour < 23 from hh)]
    exact firstTime?_after_day t

theorem next_eq_after_month_or (s : Slot) :
    s.next = s.after .month ∨ s.next.year = s.year ∧ s.next.month = s.month ∧ s.day ≤ s.next.day := by
  rw [next_eq, after_hour, after_day]
  split
  · exact Or.inr ⟨rfl, rfl, Nat.le_refl _⟩
  split
  · exact Or.inr ⟨rfl, rfl, Nat.le_refl _⟩
  split
  · exact Or.inr ⟨rfl, rfl, Nat.le_succ _⟩
  · exact Or.inl rfl

theorem firstTime?_next_of_none (h : s.InRange) (hy : firstYear ≤ s.year) (hnone : s.time? = none) :
    s.next.firstTime? = s.firstTime? := by
  have hnext := s.year_le_year_next
  by_cases hlast : lastYear < s.year
  · rw [(firstTime?_eq_none_iff h hy).2 hlast,
      (firstTime?_eq_none_iff h.next (Int.le_trans hy hnext)).2 (Int.lt_of_lt_of_le hlast hnext)]
  have hover : monthLength s.year s.month < s.day := by
    by_contra hd
    obtain ⟨t, ht⟩ := exists_time? h ⟨hy, Int.not_lt.mp hlast⟩ (Nat.not_lt.mp hd)
    rw [ht] at hnone
    cases hnone
  rw [firstTime?_of_over hover]
  rcases s.next_eq_after_month_or with heq | ⟨hyear, hmonth, hday⟩
  · rw [heq, firstTime?_after_month h]
  · have hover' : monthLength s.next.year s.next.month < s.next.day := by
      rw [hyear, hmonth]
      exact Nat.lt_of_lt_of_le hover hday
    rw [firstTime?_of_over hover', after_month_of_over h.next hover', after_month_of_over h hover, hyear, hmonth]

/-! ## Steps in a row -/

theorem year_le_year_iterate_next (s : Slot) (n : Nat) : s.year ≤ (next^[n] s).year := by
  induction n generalizing s with
  | zero => exact Int.le_refl _
  | succ n ih =>
    rw [Function.iterate_succ_apply]
    exact Int.le_trans s.year_le_year_next (ih s.next)

/-- The times in a row of slots are minutes of the calendar that follow on each other. -/
theorem filterMap_time?_iterate (h : s.InRange) (hy : firstYear ≤ s.year) (n : Nat) :
    ∃ m, (List.iterate next s n).filterMap time? = DateTime.minutesFrom m s.firstTime? := by
  induction n generalizing s with
  | zero => exact ⟨0, rfl⟩
  | succ n ih =>
    obtain ⟨m, hm⟩ := ih h.next (Int.le_trans hy s.year_le_year_next)
    rw [List.iterate, List.filterMap_cons]
    cases ht : s.time? with
    | none =>
      rw [firstTime?_next_of_none h hy ht] at hm
      exact ⟨m, hm⟩
    | some t =>
      rw [firstTime?_next_of_some ht] at hm
      rw [firstTime?_of_time? ht, hm]
      exact ⟨m + 1, rfl⟩

/-- Before the first time from a slot on there are only empty slots. -/
theorem filterMap_time?_iterate_eq_nil (h : s.InRange) (hy : firstYear ≤ s.year) (ht : s.firstTime? = some t) {n : Nat}
    (hn : (Slot.of t).rank = s.rank + n) : (List.iterate next s n).filterMap time? = [] := by
  induction n generalizing s with
  | zero => rfl
  | succ n ih =>
    have hnone : s.time? = none := by
      cases hs : s.time? with
      | none => rfl
      | some x =>
        have hx : x = t := Option.some.inj ((firstTime?_of_time? hs).symm.trans ht)
        rw [← hx, (time?_eq_some_iff.1 hs).1] at hn
        omega
    have hrank := rank_next h
    rw [List.iterate, List.filterMap_cons, hnone]
    apply ih h.next (Int.le_trans hy s.year_le_year_next)
    · rw [firstTime?_next_of_none h hy hnone, ht]
    · omega

theorem exists_iterate_eq_of_firstTime? (h : s.InRange) (hy : firstYear ≤ s.year) (ht : s.firstTime? = some t) :
    ∃ n ≤ 3 * 1440, next^[n] s = Slot.of t ∧ (List.iterate next s n).filterMap time? = [] := by
  obtain ⟨hle, hmax⟩ := rank_of_firstTime? h ht
  obtain ⟨n, hn⟩ := Int.le.dest hle
  refine ⟨n, by omega, iterate_next_eq h (inRange_of t) hn.symm, ?_⟩
  exact filterMap_time?_iterate_eq_nil h hy ht hn.symm

/-- Enough slots in a row have as many minutes of the calendar as there are. -/
theorem exists_iterate_filterMap_time? (h : s.InRange) (hy : firstYear ≤ s.year) (m : Nat) :
    ∃ n, (List.iterate next s n).filterMap time? = DateTime.minutesFrom m s.firstTime? := by
  induction m generalizing s with
  | zero => exact ⟨0, rfl⟩
  | succ m ih =>
    cases ht : s.firstTime? with
    | none => exact ⟨0, rfl⟩
    | some t =>
      have htime := time?_of_firstTime? ht
      obtain ⟨k, -, hk, hnil⟩ := exists_iterate_eq_of_firstTime? h hy ht
      have hyear : firstYear ≤ (Slot.of t).next.year := Int.le_trans t.date.isDate.1.1 (Slot.of t).year_le_year_next
      obtain ⟨n, hn⟩ := ih (inRange_of t).next hyear
      rw [firstTime?_next_of_some htime] at hn
      refine ⟨k + (n + 1), ?_⟩
      rw [List.iterate_add, List.filterMap_append, hnil, hk, List.iterate, List.filterMap_cons, htime, hn]
      rfl

end

end Slot

/-- Only the last minute of the calendar has no next one. -/
theorem DateTime.nextMinute?_eq_none_iff {t : DateTime} :
    t.nextMinute? = none ↔ t.date.year = lastYear ∧ t.InLastMinuteOfYear := by
  have htime := Slot.time?_of t
  have hfirst := Int.le_trans t.date.isDate.1.1 (Slot.of t).year_le_year_next
  have hlast := t.date.isDate.1.2
  have hyear : (Slot.of t).next.year = if t.InLastMinuteOfYear then t.date.year + 1 else t.date.year :=
    Slot.year_next (Slot.inRange_of t)
  show t.truncate.nextMinute? = none ↔ _
  rw [← Slot.firstTime?_next_of_some htime, Slot.firstTime?_eq_none_iff (Slot.inRange_of t).next hfirst, hyear]
  by_cases h : t.InLastMinuteOfYear
  · rw [if_pos h]
    simp only [h, and_true]
    omega
  · rw [if_neg h]
    simp only [h, and_false, iff_false]
    omega

namespace Slot

theorem existsUnique_iterate_time? {t x : DateTime} (hx : x.IsMinute) (h : t.minuteNumber ≤ x.minuteNumber) :
    ∃! n, (next^[n] (Slot.of t)).time? = some x := by
  obtain ⟨n, hn⟩ := Int.le.dest (rank_of_le_iff.2 h)
  have hreach : next^[n] (Slot.of t) = Slot.of x := iterate_next_eq (inRange_of t) (inRange_of x) hn.symm
  refine ⟨n, time?_eq_some_iff.2 ⟨hreach.symm, hx⟩, fun k hk => ?_⟩
  have hrank := rank_iterate_next (inRange_of t) k
  rw [← (time?_eq_some_iff.1 hk).1] at hrank
  omega

/-- **Slots and minutes.** The times that fill the slots from that of `t` on are the minutes of the calendar from `t`
on, in order up to the last one, and each of them fills one slot. Before the end of the calendar no more than three
days of slots in a row are empty. -/
theorem times_of_slots (t : DateTime) :
    (∀ n, ∃ m, (List.iterate next (Slot.of t) n).filterMap time? = DateTime.minutesFrom m (some t.truncate)) ∧
      (∀ m, ∃ n, (List.iterate next (Slot.of t) n).filterMap time? = DateTime.minutesFrom m (some t.truncate)) ∧
      (∀ x : DateTime, x.nextMinute? = none ↔ x.date.year = lastYear ∧ x.InLastMinuteOfYear) ∧
      (∀ x : DateTime, x.IsMinute → t.truncate ≤ x → ∃! n, (next^[n] (Slot.of t)).time? = some x) ∧
      ∀ i n, (next^[i] (Slot.of t)).year ≤ lastYear →
        (∀ j, i ≤ j → j < i + n → (next^[j] (Slot.of t)).time? = none) → n ≤ 3 * 1440 := by
  have hr := inRange_of t
  have hy : firstYear ≤ (Slot.of t).year := t.date.isDate.1.1
  have hfirst : (Slot.of t).firstTime? = some t.truncate :=
    firstTime?_of_time? (time?_eq_some_iff.2 ⟨rfl, t.isMinute_truncate⟩)
  refine ⟨?_, ?_, fun _ => DateTime.nextMinute?_eq_none_iff, fun x hx hle => ?_, fun i n hlast hrun => ?_⟩
  · rw [← hfirst]
    exact filterMap_time?_iterate hr hy
  · rw [← hfirst]
    exact exists_iterate_filterMap_time? hr hy
  · have hnumber := DateTime.minuteNumber_le_of_le hle
    exact existsUnique_iterate_time? hx hnumber
  · -- from slot `i` on a time is reached soon, and it ends the run
    have hri := inRange_iterate_next hr i
    have hyi := Int.le_trans hy ((Slot.of t).year_le_year_iterate_next i)
    obtain ⟨x, hx⟩ := exists_firstTime? hri ⟨hyi, hlast⟩
    obtain ⟨k, hk, hreach, -⟩ := exists_iterate_eq_of_firstTime? hri hyi hx
    by_contra hn
    have hnone := hrun (k + i) (by omega) (by omega)
    rw [Function.iterate_add_apply, hreach, time?_of_firstTime? hx] at hnone
    cases hnone

-- A February of 28 days is over for the longest time, here after its last minute and a leap second in it.
theorem times_of_slots_february :
    let t : DateTime := ⟨⟨2023, 2, 28, by decide⟩, 23, 59, 59, 1500000000, by decide⟩
    let x : DateTime := ⟨⟨2023, 3, 1, by decide⟩, 0, 0, 0, 0, by decide⟩
    x.IsMinute ∧ t.truncate ≤ x ∧ (∃! n, (next^[n] (Slot.of t)).time? = some x) ∧
      (next^[1] (Slot.of t)).year ≤ lastYear ∧
      (∀ j, 1 ≤ j → j < 1 + 3 * 1440 → (next^[j] (Slot.of t)).time? = none) ∧
      ¬ ∀ j, 1 ≤ j → j < 1 + (3 * 1440 + 1) → (next^[j] (Slot.of t)).time? = none := by
  intro t x
  have hx : x.IsMinute := ⟨rfl, rfl⟩
  have hle : t.truncate ≤ x := Or.inl ((DateTime.lt_iff_of_isMinute hx).2 (by decide))
  have hyear : (next^[1] (Slot.of t)).year ≤ lastYear := by decide
  obtain ⟨-, -, -, hunique, hrun⟩ := times_of_slots t
  refine ⟨hx, hle, hunique x hx hle, hyear, fun j h₁ hj => ?_, fun h => absurd (hrun 1 _ hyear h) (by decide)⟩
  have hempty : (List.iterate next (Slot.of t).next (3 * 1440)).filterMap time? = [] :=
    filterMap_time?_iterate_eq_nil (t := x) (by decide) (by decide) (by decide) (by decide)
  obtain ⟨k, rfl⟩ := Nat.exists_eq_add_of_le' h₁
  exact List.filterMap_eq_nil_iff.1 hempty _ (List.mem_iterate.2 ⟨k, by omega, rfl⟩)

end Slot

end CronSchedule
