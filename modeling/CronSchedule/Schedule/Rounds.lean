import CronSchedule.Schedule.Search

/-!
# The rounds of a search

A search goes round by round: a round looks at a slot before the bound and, if it is turned down, moves on behind
the unit that is ruled out. `Rounds` counts the rounds that have been completed.
-/

namespace CronSchedule

namespace Schedule

/-- In `n` rounds the search comes from the slot `s` to the slot `last`. -/
inductive Rounds (c : Schedule) (bound : Int) : Nat → Slot → Slot → Prop
  | none (s : Slot) : Rounds c bound 0 s s
  | next {n : Nat} {s last : Slot} {u : TimeUnit} : s.year < bound → c.verdict s = .rulesOut u →
      Rounds c bound n (s.after u) last → Rounds c bound (n + 1) s last

end Schedule

end CronSchedule
