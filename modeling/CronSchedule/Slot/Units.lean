import CronSchedule.Slot

/-!
# Units of slots

Minutes, hours, days and months of slots are numbered each in a row without gaps. A unit starts where the smaller
parts have their least values, and `minutesLeft` is what is left of it from a slot on. The first slot of a year starts
all of them.
-/

namespace CronSchedule

namespace Slot

/-- The number of the unit that the slot lies in. -/
def unitRank (s : Slot) : TimeUnit → Int
  | .month => s.year * 12 + (s.month - 1)
  | .day => (s.year * 12 + (s.month - 1)) * 31 + (s.day - 1)
  | .hour => ((s.year * 12 + (s.month - 1)) * 31 + (s.day - 1)) * 24 + s.hour
  | .minute => s.rank

/-- The slots that are left of the unit, `s` itself among them. -/
def minutesLeft (s : Slot) : TimeUnit → Nat
  | .minute => 1
  | .hour => 60 - s.minute
  | .day => (23 - s.hour) * 60 + 60 - s.minute
  | .month => ((31 - s.day) * 24 + 23 - s.hour) * 60 + 60 - s.minute

def StartsUnit (s : Slot) : TimeUnit → Prop
  | .minute => True
  | .hour => s.minute = 0
  | .day => s.hour = 0 ∧ s.minute = 0
  | .month => s.day = 1 ∧ s.hour = 0 ∧ s.minute = 0

def newYear (year : Int) : Slot :=
  ⟨year, 1, 1, 0, 0⟩

end Slot

end CronSchedule
