import CronSchedule.Calendar.DateTime

/-!
# Slots

A slot is a place for a minute in a calendar whose months all have 31 days. A search walks from slot to slot,
so it also comes to slots that no date fills, such as those of 31 April; `date?` and `time?` say which are
filled. `next` is the slot one minute later, and `after u` the first slot of the next hour, day or month.

`rank` numbers the slots, and `remaining` counts those before the first slot of a year: both grow and shrink
with every step of a walk (`remaining_after_lt`).
-/

namespace CronSchedule

/-- What a walk can pass over in one step. -/
inductive TimeUnit where
  | minute
  | hour
  | day
  | month
  deriving DecidableEq

structure Slot where
  year : Int
  month : Nat
  day : Nat
  hour : Nat
  minute : Nat
  deriving DecidableEq

namespace Slot

def of (t : DateTime) : Slot where
  year := t.date.year
  month := t.date.month
  day := t.date.day
  hour := t.hour
  minute := t.minute

def next (s : Slot) : Slot :=
  if s.minute < 59 then { s with minute := s.minute + 1 }
  else if s.hour < 23 then { s with hour := s.hour + 1, minute := 0 }
  else if s.day < 31 then { s with day := s.day + 1, hour := 0, minute := 0 }
  else if s.month < 12 then { s with month := s.month + 1, day := 1, hour := 0, minute := 0 }
  else { year := s.year + 1, month := 1, day := 1, hour := 0, minute := 0 }

def endOf (s : Slot) : TimeUnit → Slot
  | .minute => s
  | .hour => { s with minute := 59 }
  | .day => { s with hour := 23, minute := 59 }
  | .month => { s with day := 31, hour := 23, minute := 59 }

def after (s : Slot) (u : TimeUnit) : Slot :=
  (s.endOf u).next

def date? (s : Slot) : Option Date :=
  Date.ofParts? s.year s.month s.day

def time? (s : Slot) : Option DateTime :=
  s.date?.bind fun date => DateTime.ofParts? date s.hour s.minute 0 0

/-- Whether each part is in its range; the date may be missing from its month all the same. -/
def InRange (s : Slot) : Prop :=
  (1 ≤ s.month ∧ s.month ≤ 12) ∧ (1 ≤ s.day ∧ s.day ≤ 31) ∧ s.hour < 24 ∧ s.minute < 60

instance (s : Slot) : Decidable s.InRange :=
  inferInstanceAs (Decidable (_ ∧ _))

/-! ## Counting slots -/

def rank (s : Slot) : Int :=
  (((s.year * 12 + (s.month - 1)) * 31 + (s.day - 1)) * 24 + s.hour) * 60 + s.minute

/-- Steps that are left before the year `bound`. -/
def remaining (s : Slot) (bound : Int) : Nat :=
  ((((bound - s.year).toNat * 12 + (12 - s.month)) * 31 + (31 - s.day)) * 24 + (23 - s.hour)) * 60 + (59 - s.minute)

theorem remaining_next_lt {s : Slot} {bound : Int} (h : s.year < bound) :
    s.next.remaining bound < s.remaining bound := by
  simp only [next]
  split
  · simp only [remaining]; omega
  · split
    · simp only [remaining]; omega
    · split
      · simp only [remaining]; omega
      · split <;> simp only [remaining] <;> omega

theorem year_endOf (s : Slot) (u : TimeUnit) : (s.endOf u).year = s.year := by
  cases u <;> rfl

theorem remaining_endOf_le (s : Slot) (u : TimeUnit) (bound : Int) :
    (s.endOf u).remaining bound ≤ s.remaining bound := by
  cases u <;> simp only [endOf, remaining] <;> omega

theorem remaining_after_lt {s : Slot} {u : TimeUnit} {bound : Int} (h : s.year < bound) :
    (s.after u).remaining bound < s.remaining bound := by
  have h' : (s.endOf u).year < bound := by rw [year_endOf]; exact h
  exact Nat.lt_of_lt_of_le (remaining_next_lt h') (remaining_endOf_le s u bound)

end Slot

end CronSchedule
