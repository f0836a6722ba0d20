import Mathlib.Logic.Function.Iterate
import CronSchedule.Proofs.SlotOrder
import CronSchedule.Slot.Units

/-!
# Slots are counted by steps

The parts of a slot are the digits of its rank, and a step carries from one to the next as in a counter. So a number
of steps raises the rank by that number (`rank_iterate_next`), and what leads behind a unit in one go is as many steps
as there are minutes left of it (`after_eq_iterate`). Even a slot whose parts are in no range comes before the next one
(`before_next`).
-/

namespace CronSchedule

namespace Slot

section
variable {s : Slot}

/-! ## Steps in a row -/

theorem iterate_next_spec (h : s.InRange) (n : Nat) : (next^[n] s).InRange ∧ (next^[n] s).rank = s.rank + n := by
  induction n generalizing s with
  | zero => exact ⟨h, (Int.add_zero _).symm⟩
  | succ n ih =>
    obtain ⟨hr, hrank⟩ := ih h.next
    rw [Function.iterate_succ_apply]
    refine ⟨hr, ?_⟩
    rw [hrank, rank_next h]
    omega

theorem inRange_iterate_next (h : s.InRange) (n : Nat) : (next^[n] s).InRange :=
  (iterate_next_spec h n).1

theorem rank_iterate_next (h : s.InRange) (n : Nat) : (next^[n] s).rank = s.rank + n :=
  (iterate_next_spec h n).2

/-- A later slot is reached by as many steps as its rank is higher. -/
theorem iterate_next_eq {x : Slot} {n : Nat} (hs : s.InRange) (hx : x.InRange) (h : x.rank = s.rank + n) :
    next^[n] s = x := by
  apply rank_inj (inRange_iterate_next hs n) hx
  rw [rank_iterate_next hs, h]

/-! ## Carries -/

theorem next_eq (s : Slot) : s.next = if s.minute < 59 then { s with minute := s.minute + 1 } else s.after .hour :=
  rfl

theorem after_hour (s : Slot) :
    s.after .hour = if s.hour < 23 then { s with hour := s.hour + 1, minute := 0 } else s.after .day :=
  rfl

theorem after_day (s : Slot) :
    s.after .day = if s.day < 31 then { s with day := s.day + 1, hour := 0, minute := 0 } else s.after .month :=
  rfl

theorem after_month (s : Slot) :
    s.after .month =
      if s.month < 12 then { s with month := s.month + 1, day := 1, hour := 0, minute := 0 }
      else { year := s.year + 1, month := 1, day := 1, hour := 0, minute := 0 } :=
  rfl

/-- A carry out of the months leads to 1 January, and any other to the first slot of a unit. -/
theorem startsUnit_after (s : Slot) (u : TimeUnit) : (s.after u).StartsUnit u := by
  have hmonth : (s.after .month).StartsUnit .month := by
    rw [after_month]
    split <;> exact ⟨rfl, rfl, rfl⟩
  have hday : (s.after .day).StartsUnit .day := by
    rw [after_day]
    split
    · exact ⟨rfl, rfl⟩
    · exact hmonth.2
  cases u with
  | minute => trivial
  | hour =>
    rw [after_hour]
    split
    · rfl
    · exact hday.2
  | day => exact hday
  | month => exact hmonth

/-- Nothing leads to another year but a carry out of the months. -/
theorem year_next_or (s : Slot) : s.next.year = s.year ∨ s.next = newYear (s.year + 1) := by
  rw [next_eq, after_hour, after_day, after_month]
  split
  · exact Or.inl rfl
  split
  · exact Or.inl rfl
  split
  · exact Or.inl rfl
  split
  · exact Or.inl rfl
  · exact Or.inr rfl

theorem year_after_or (s : Slot) (u : TimeUnit) : (s.after u).year = s.year ∨ s.after u = newYear (s.year + 1) := by
  rw [← s.year_endOf u]
  exact (s.endOf u).year_next_or

theorem unitRank_after (h : s.InRange) (u : TimeUnit) : (s.after u).unitRank u = s.unitRank u + 1 := by
  obtain ⟨hm, hd, hh, -⟩ := id h
  have hmonth : (s.after .month).unitRank .month = s.unitRank .month + 1 := by
    rw [after_month]
    split <;> simp only [unitRank] <;> omega
  have hday : (s.after .day).unitRank .day = s.unitRank .day + 1 := by
    have hstart := startsUnit_after s .month
    rw [after_day]
    split
    · simp only [unitRank]
      omega
    · simp only [unitRank, StartsUnit] at *
      omega
  cases u with
  | minute => exact rank_next h
  | hour =>
    have hstart := startsUnit_after s .day
    rw [after_hour]
    split
    · simp only [unitRank]
      omega
    · simp only [unitRank, StartsUnit] at *
      omega
  | day => exact hday
  | month => exact hmonth

theorem rank_after_eq (h : s.InRange) (u : TimeUnit) : (s.after u).rank = s.rank + s.minutesLeft u := by
  rw [rank_after h]
  unfold InRange at h
  cases u <;> simp only [endOf, rank, minutesLeft] <;> omega

theorem rank_lt_rank_after (h : s.InRange) (u : TimeUnit) : s.rank < (s.after u).rank := by
  rw [rank_after h]
  exact Int.lt_add_one_of_le (rank_le_rank_endOf h u)

theorem after_eq_iterate (h : s.InRange) (u : TimeUnit) : s.after u = next^[s.minutesLeft u] s :=
  (iterate_next_eq h (h.after u) (rank_after_eq h u)).symm

/-- Whatever the parts are, the first one that a step changes grows. -/
theorem before_next (s : Slot) : s.Before s.next := by
  unfold next Before
  split
  · simp
  split
  · simp
  split
  · simp
  split
  · simp
  · exact Or.inl (Int.lt_succ s.year)

end

/-- **Counting slots.** A step raises the rank by 1, and what leads behind a unit is as many steps as there are minutes
left of it, up to the first slot of the next unit. A slot with any parts at all comes before the next one. -/
theorem next_counts (s : Slot) :
    (s.InRange →
        s.next.InRange ∧ s.next.rank = s.rank + 1 ∧
          ∀ u, s.after u = next^[s.minutesLeft u] s ∧ (s.after u).StartsUnit u ∧
            (s.after u).unitRank u = s.unitRank u + 1) ∧
      s.Before s.next := by
  refine ⟨fun h => ⟨h.next, rank_next h, fun u => ?_⟩, s.before_next⟩
  exact ⟨after_eq_iterate h u, s.startsUnit_after u, unitRank_after h u⟩

-- From the evening of 30 December into the year 0, and from parts that lie in no range.
theorem next_counts_december :
    let s : Slot := ⟨-1, 12, 30, 22, 15⟩
    let x : Slot := ⟨2024, 13, 40, 23, 99⟩
    s.InRange ∧ s.after .month = ⟨0, 1, 1, 0, 0⟩ ∧ next^[1545] s = s.after .month ∧ ¬ x.InRange ∧ x.Before x.next := by
  intro s x
  have hs : s.InRange := by decide
  have hleft : s.minutesLeft .month = 1545 := by decide
  obtain ⟨-, -, hunits⟩ := (next_counts s).1 hs
  obtain ⟨hsteps, -, -⟩ := hunits .month
  rw [hleft] at hsteps
  exact ⟨hs, by decide, hsteps.symm, by decide, (next_counts x).2⟩

end Slot

end CronSchedule
