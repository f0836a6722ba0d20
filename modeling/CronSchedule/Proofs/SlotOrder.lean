import CronSchedule.Proofs.CalendarOrder
import CronSchedule.Slot

/-!
# The order of slots

The rank of a slot in range is a number whose digits are the parts of the slot, so ranks compare as the parts do
from the year down (`rank_lt_iff`), and `next` is the slot with the next rank (`rank_next`). Slots filled by a
time come in the order of the minutes (`rank_of_lt_iff`).
-/

namespace CronSchedule

/-- Two numbers with a last digit each compare by what stands before it, and then by that digit. -/
theorem mul_add_lt_iff {a b i j n : Int} (hi : 0 ≤ i ∧ i < n) (hj : 0 ≤ j ∧ j < n) :
    a * n + i < b * n + j ↔ a < b ∨ a = b ∧ i < j := by
  have step : ∀ {a b i j : Int}, 0 ≤ j → i < n → a < b → a * n + i < b * n + j := by
    intro a b i j hj hi hab
    have : (a + 1) * n ≤ b * n := Int.mul_le_mul_of_nonneg_right hab (by omega)
    rw [Int.add_mul, Int.one_mul] at this
    omega
  constructor
  · intro h
    rcases Int.lt_trichotomy a b with hab | hab | hab
    · exact Or.inl hab
    · subst hab
      exact Or.inr ⟨rfl, by omega⟩
    · have := step hi.1 hj.2 hab
      omega
  · rintro (hab | ⟨rfl, hij⟩)
    · exact step hj.1 hi.2 hab
    · omega

namespace Slot

/-- Earlier by year, then by month, day, hour and minute. -/
def Before (s x : Slot) : Prop :=
  s.year < x.year ∨ s.year = x.year ∧
    (s.month < x.month ∨ s.month = x.month ∧
      (s.day < x.day ∨ s.day = x.day ∧
        (s.hour < x.hour ∨ s.hour = x.hour ∧ s.minute < x.minute)))

theorem rank_lt_iff {s x : Slot} (hs : s.InRange) (hx : x.InRange) : s.rank < x.rank ↔ s.Before x := by
  obtain ⟨hs₁, hs₂, hs₃, hs₄⟩ := hs
  obtain ⟨hx₁, hx₂, hx₃, hx₄⟩ := hx
  unfold rank Before
  rw [mul_add_lt_iff (by omega) (by omega), mul_add_lt_iff (by omega) (by omega), mul_add_lt_iff (by omega) (by omega),
    mul_add_lt_iff (by omega) (by omega)]
  omega

theorem not_before_of_rank_le {s x : Slot} (hs : s.InRange) (hx : x.InRange) (h : s.rank ≤ x.rank) :
    ¬ x.Before s := by
  rw [← rank_lt_iff hx hs]
  exact Int.not_lt.mpr h

theorem rank_inj {s x : Slot} (hs : s.InRange) (hx : x.InRange) (h : s.rank = x.rank) : s = x := by
  have hxs := not_before_of_rank_le hs hx (Int.le_of_eq h)
  have hsx := not_before_of_rank_le hx hs (Int.le_of_eq h.symm)
  unfold Before at hsx hxs
  cases s
  cases x
  simp only [mk.injEq] at hsx hxs ⊢
  omega

theorem year_le_of_rank_le {s x : Slot} (hs : s.InRange) (hx : x.InRange) (h : s.rank ≤ x.rank) :
    s.year ≤ x.year := by
  have := not_before_of_rank_le hs hx h
  unfold Before at this
  omega

/-! ## One step -/

theorem next_spec {s : Slot} (h : s.InRange) : s.next.InRange ∧ s.next.rank = s.rank + 1 := by
  unfold next InRange rank at *
  split
  · simp only; omega
  split
  · simp only; omega
  split
  · simp only; omega
  split <;> simp only <;> omega

theorem InRange.next {s : Slot} (h : s.InRange) : s.next.InRange :=
  (next_spec h).1

theorem rank_next {s : Slot} (h : s.InRange) : s.next.rank = s.rank + 1 :=
  (next_spec h).2

theorem year_le_year_next (s : Slot) : s.year ≤ s.next.year := by
  unfold next
  split
  · exact Int.le_refl _
  split
  · exact Int.le_refl _
  split
  · exact Int.le_refl _
  split
  · exact Int.le_refl _
  · exact Int.le_add_one (Int.le_refl _)

/-- Only the last minute of a year is followed by another year. -/
theorem year_next {s : Slot} (h : s.InRange) :
    s.next.year = if s.month = 12 ∧ s.day = 31 ∧ s.hour = 23 ∧ s.minute = 59 then s.year + 1 else s.year := by
  unfold InRange at h
  unfold next
  split
  · rw [if_neg (by omega)]
  split
  · rw [if_neg (by omega)]
  split
  · rw [if_neg (by omega)]
  split
  · rw [if_neg (by omega)]
  · rw [if_pos (by omega)]

/-! ## Units -/

theorem InRange.endOf {s : Slot} (h : s.InRange) (u : TimeUnit) : (s.endOf u).InRange := by
  unfold InRange at *
  cases u <;> simp only [Slot.endOf] <;> omega

theorem InRange.after {s : Slot} (h : s.InRange) (u : TimeUnit) : (s.after u).InRange :=
  (h.endOf u).next

theorem rank_le_rank_endOf {s : Slot} (h : s.InRange) (u : TimeUnit) : s.rank ≤ (s.endOf u).rank := by
  unfold InRange at h
  cases u <;> simp only [endOf, rank] <;> omega

theorem rank_after {s : Slot} (h : s.InRange) (u : TimeUnit) : (s.after u).rank = (s.endOf u).rank + 1 :=
  rank_next (h.endOf u)

theorem year_le_year_after (s : Slot) (u : TimeUnit) : s.year ≤ (s.after u).year := by
  rw [← year_endOf s u]
  exact year_le_year_next _

/-- From a slot to the end of its unit there are only slots of that unit. -/
theorem endOf_eq_of_rank_le {s x : Slot} {u : TimeUnit} (hs : s.InRange) (hx : x.InRange) (h : s.rank ≤ x.rank)
    (h' : x.rank ≤ (s.endOf u).rank) : x.endOf u = s.endOf u := by
  have hxs := not_before_of_rank_le hs hx h
  have hsx := not_before_of_rank_le hx (hs.endOf u) h'
  have hr := hx
  unfold InRange at hr
  unfold Before at hxs hsx
  cases u <;> simp only [endOf] at h' hsx ⊢
  case minute => exact rank_inj hx hs (by omega)
  all_goals
    simp only [mk.injEq, and_true]
    omega

end Slot

/-! ## Slots and times -/

namespace Slot

theorem inRange_of (t : DateTime) : (Slot.of t).InRange :=
  ⟨t.date.month_mem_range, ⟨t.date.one_le_day, t.date.day_le⟩, t.isTimeOfDay.1, t.isTimeOfDay.2.1⟩

theorem time?_eq_some_iff {s : Slot} {t : DateTime} : s.time? = some t ↔ Slot.of t = s ∧ t.IsMinute := by
  unfold time? date?
  simp only [Option.bind_eq_some_iff, Date.ofParts?_eq_some_iff, DateTime.ofParts?_eq_some_iff]
  constructor
  · rintro ⟨d, ⟨hy, hm, hd⟩, rfl, hh, hmi, hs, hn⟩
    refine ⟨?_, hs, hn⟩
    cases s
    simp only [Slot.of, mk.injEq]
    exact ⟨hy, hm, hd, hh, hmi⟩
  · rintro ⟨rfl, hs, hn⟩
    exact ⟨t.date, ⟨rfl, rfl, rfl⟩, rfl, rfl, rfl, hs, hn⟩

/-- The slot of a time is filled by the start of the minute. -/
theorem time?_of (t : DateTime) : (Slot.of t).time? = some t.truncate :=
  time?_eq_some_iff.2 ⟨rfl, t.isMinute_truncate⟩

/-- A slot is filled if its parts are a date and a time of day. -/
theorem exists_time?_iff {s : Slot} :
    (∃ t, s.time? = some t) ↔ IsDate s.year s.month s.day ∧ s.hour < 24 ∧ s.minute < 60 := by
  constructor
  · rintro ⟨t, ht⟩
    obtain ⟨rfl, -⟩ := time?_eq_some_iff.1 ht
    exact ⟨t.date.isDate, t.isTimeOfDay.1, t.isTimeOfDay.2.1⟩
  · rintro ⟨hd, hh, hm⟩
    exact ⟨⟨⟨s.year, s.month, s.day, hd⟩, s.hour, s.minute, 0, 0, isTimeOfDay_minute hh hm⟩,
      time?_eq_some_iff.2 ⟨rfl, rfl, rfl⟩⟩

theorem rank_of_lt_iff {a b : DateTime} : (Slot.of a).rank < (Slot.of b).rank ↔ a.minuteNumber < b.minuteNumber := by
  obtain ⟨ha, ha', -⟩ := a.isTimeOfDay
  obtain ⟨hb, hb', -⟩ := b.isTimeOfDay
  have hlt := @Date.dayNumber_lt_iff a.date b.date
  have heq := @Date.dayNumber_eq_iff a.date b.date
  rw [rank_lt_iff (inRange_of a) (inRange_of b)]
  unfold Date.Before at hlt
  simp only [Before, Slot.of, DateTime.minuteNumber]
  omega

theorem rank_of_le_iff {a b : DateTime} : (Slot.of a).rank ≤ (Slot.of b).rank ↔ a.minuteNumber ≤ b.minuteNumber := by
  rw [← Int.not_lt, rank_of_lt_iff, Int.not_lt]

theorem rank_next_of_le_iff {a b : DateTime} :
    (Slot.of a).next.rank ≤ (Slot.of b).rank ↔ a.minuteNumber < b.minuteNumber := by
  rw [← rank_of_lt_iff, rank_next (inRange_of a)]
  exact Int.add_one_le_iff

end Slot

end CronSchedule
