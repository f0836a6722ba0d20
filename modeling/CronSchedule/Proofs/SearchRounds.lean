import CronSchedule.Schedule.Rounds

/-!
# A walk goes round by round

The walk of a search is what its rounds come to: the steps are their number, and they end at the last slot
(`rounds_walk`), where the schedule fires or the bound is reached (`last_walk`).
-/

namespace CronSchedule

namespace Schedule

section
variable {c : Schedule} {bound : Int}

theorem Rounds.eq_zero_of_fires {n : Nat} {s last : Slot} {t : DateTime} (h : c.Rounds bound n s last)
    (hv : c.verdict s = .fires t) : n = 0 := by
  cases h with
  | none => rfl
  | next _ hu _ =>
    rw [hv] at hu
    cases hu

end

theorem rounds_walk (c : Schedule) (bound : Int) (s : Slot) :
    c.Rounds bound (c.walk bound s).steps s (c.walk bound s).last := by
  induction s using walk.induct c bound with
  | case1 s hb t hv =>
    rw [walk_of_fires hb hv]
    exact .none s
  | case2 s hb u hv ih =>
    rw [walk_of_rulesOut hb hv]
    exact .next hb hv ih
  | case3 s hb =>
    rw [walk_of_le (Int.not_lt.mp hb)]
    exact .none s

/-- A walk ends where the schedule fires, or at the bound. -/
theorem last_walk (c : Schedule) (bound : Int) (s : Slot) :
    match (c.walk bound s).found with
    | some t => (c.walk bound s).last.year < bound ∧ c.verdict (c.walk bound s).last = .fires t
    | none => bound ≤ (c.walk bound s).last.year := by
  induction s using walk.induct c bound with
  | case1 s hb t hv =>
    rw [walk_of_fires hb hv]
    exact ⟨hb, hv⟩
  | case2 s hb u hv ih =>
    rw [walk_of_rulesOut hb hv]
    exact ih
  | case3 s hb =>
    rw [walk_of_le (Int.not_lt.mp hb)]
    exact Int.not_lt.mp hb

end Schedule

end CronSchedule
