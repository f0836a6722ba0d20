import CronSchedule.Schedule.Search

/-!
# The search minute by minute

The plainest search looks at every slot in turn and passes over nothing. It is what the search with larger steps
has to agree with.
-/

namespace CronSchedule

namespace Schedule

/-- The first time in which the schedule fires from `s` on and before the year `bound`. -/
def firstFiring? (c : Schedule) (bound : Int) (s : Slot) : Option DateTime :=
  if s.year < bound then
    match c.verdict s with
    | .fires t => some t
    | .rulesOut _ => firstFiring? c bound s.next
  else none
termination_by s.remaining bound
decreasing_by exact Slot.remaining_next_lt ‹_›

theorem firstFiring?_of_le {c : Schedule} {bound : Int} {s : Slot} (h : bound ≤ s.year) :
    c.firstFiring? bound s = none := by
  rw [firstFiring?, if_neg (by omega)]

theorem firstFiring?_of_fires {c : Schedule} {bound : Int} {s : Slot} {t : DateTime} (h : s.year < bound)
    (hv : c.verdict s = .fires t) : c.firstFiring? bound s = some t := by
  rw [firstFiring?, if_pos h, hv]

theorem firstFiring?_of_rulesOut {c : Schedule} {bound : Int} {s : Slot} {u : TimeUnit} (h : s.year < bound)
    (hv : c.verdict s = .rulesOut u) : c.firstFiring? bound s = c.firstFiring? bound s.next := by
  rw [firstFiring?, if_pos h, hv]

def searchByMinute (c : Schedule) (since : DateTime) (first : Slot) : Except Exhausted DateTime :=
  let bound := first.year + searchYears
  match c.firstFiring? bound first with
  | some t => .ok t
  | none => .error ⟨since, bound⟩

end Schedule

end CronSchedule
