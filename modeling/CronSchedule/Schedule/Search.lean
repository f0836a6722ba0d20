import CronSchedule.Journal
import CronSchedule.Schedule.Basic
import CronSchedule.Slot

/-!
# The search for the next time

A search walks through the slots in order and stops at the first in which the schedule fires, or at the first
slot of the year that bounds it. A slot that is turned down is turned down together with all that is left of
the largest unit to blame: a wrong month rules out the rest of the month, a wrong or missing day the rest of the
day, a wrong hour the rest of the hour. The walk goes on after that unit.
-/

namespace CronSchedule

/-- What a schedule says of a slot: it fires there, or a whole unit is ruled out. -/
inductive Verdict where
  | fires (t : DateTime)
  | rulesOut (u : TimeUnit)
  deriving DecidableEq

/-- The slots that a walk turned down, in order, the slot at which it ended and the time that it found there. -/
structure Walk where
  rejected : List Slot
  last : Slot
  found : Option DateTime

def Walk.steps (w : Walk) : Nat :=
  w.rejected.length

/-- A search is given up at the end of the year after the one in which it begins. -/
def searchYears : Nat := 2

namespace Schedule

def verdict (c : Schedule) (s : Slot) : Verdict :=
  if s.month ∉ c.months then .rulesOut .month
  else
    match s.date? with
    | none => .rulesOut .day
    | some d =>
      if !c.firesOn d then .rulesOut .day
      else if s.hour ∉ c.hours then .rulesOut .hour
      else if s.minute ∉ c.minutes then .rulesOut .minute
      else
        match DateTime.ofParts? d s.hour s.minute 0 0 with
        | some t => .fires t
        | none => .rulesOut .minute

/-- The walk from `s` to the first slot of the year `bound` at most. -/
def walk (c : Schedule) (bound : Int) (s : Slot) : Walk :=
  if s.year < bound then
    match c.verdict s with
    | .fires t => ⟨[], s, some t⟩
    | .rulesOut u =>
      let w := walk c bound (s.after u)
      { w with rejected := s :: w.rejected }
  else ⟨[], s, none⟩
termination_by s.remaining bound
decreasing_by exact Slot.remaining_after_lt ‹_›

theorem walk_of_le {c : Schedule} {bound : Int} {s : Slot} (h : bound ≤ s.year) : c.walk bound s = ⟨[], s, none⟩ := by
  rw [walk, if_neg (by omega)]

theorem walk_of_fires {c : Schedule} {bound : Int} {s : Slot} {t : DateTime} (h : s.year < bound)
    (hv : c.verdict s = .fires t) : c.walk bound s = ⟨[], s, some t⟩ := by
  rw [walk, if_pos h, hv]

theorem walk_of_rulesOut {c : Schedule} {bound : Int} {s : Slot} {u : TimeUnit} (h : s.year < bound)
    (hv : c.verdict s = .rulesOut u) :
    c.walk bound s = { c.walk bound (s.after u) with rejected := s :: (c.walk bound (s.after u)).rejected } := by
  rw [walk, if_pos h, hv]

/-- The search that was asked for at the time `since` and begins at `first`. -/
def search (c : Schedule) (since : DateTime) (first : Slot) : Logged Exhausted DateTime :=
  let bound := first.year + searchYears
  let w := c.walk bound first
  match w.found with
  | some t => ⟨[.found t w.steps], .ok t⟩
  | none => ⟨[.exhausted ⟨since, bound⟩ w.steps], .error ⟨since, bound⟩⟩

theorem search_of_found {c : Schedule} {since : DateTime} {first : Slot} {t : DateTime}
    (h : (c.walk (first.year + searchYears) first).found = some t) :
    c.search since first = ⟨[.found t (c.walk (first.year + searchYears) first).steps], .ok t⟩ := by
  simp only [search, h]

theorem search_of_not_found {c : Schedule} {since : DateTime} {first : Slot}
    (h : (c.walk (first.year + searchYears) first).found = none) :
    c.search since first =
      ⟨[.exhausted ⟨since, first.year + searchYears⟩ (c.walk (first.year + searchYears) first).steps],
        .error ⟨since, first.year + searchYears⟩⟩ := by
  simp only [search, h]

def searchFrom (c : Schedule) (inclusive : Bool) (t : DateTime) : Logged Exhausted DateTime :=
  c.search t (if inclusive then Slot.of t else (Slot.of t).next)

/-- The first time after the minute in which `t` lies. -/
def nextAfter (c : Schedule) (t : DateTime) : Except Exhausted DateTime :=
  (c.searchFrom false t).outcome

/-- The first time from the minute in which `t` lies on. -/
def nextFrom (c : Schedule) (t : DateTime) : Except Exhausted DateTime :=
  (c.searchFrom true t).outcome

/-- The answers to `n` searches, each after the time that the one before it found. A search that fails is the last
one: nothing comes after it. -/
def finds (c : Schedule) : Nat → Option DateTime → List (Option DateTime)
  | 0, _ => []
  | n + 1, t =>
    let found := t.bind fun t => (c.nextAfter t).toOption
    found :: c.finds n found

/-- The next `n` times after `t`, with `none` in the place of those that a search did not find. -/
def upcoming (c : Schedule) (t : DateTime) (n : Nat) : List (Option DateTime) :=
  c.finds n (some t)

end Schedule

end CronSchedule
