import Mathlib.Logic.Function.Iterate
import CronSchedule.ValueSet

/-!
# Stepping value by value

A stepped range can be put in value by value, with the running value in a word of 32 bits. That is over as soon as the
running value is past the end of the range or the next one would not fit in a word; with the step 0 it would go on for
ever.
-/

namespace CronSchedule

/-- The sum of two words, if it fits in a word. -/
def wordSum? (a b : UInt32) : Option UInt32 :=
  if h : a.toNat + b.toNat < UInt32.size then some (.ofNatLT (a.toNat + b.toNat) h) else none

theorem wordSum?_eq_some_iff {a b w : UInt32} : wordSum? a b = some w ↔ w.toNat = a.toNat + b.toNat := by
  unfold wordSum?
  constructor
  · intro h
    split at h
    · cases h
      exact UInt32.toNat_ofNatLT
    · cases h
  · intro h
    rw [dif_pos (h ▸ w.toNat_lt_size)]
    simp only [← h, UInt32.ofNatLT_toNat]

theorem le_of_wordSum?_eq_none {a b : UInt32} (h : wordSum? a b = none) : UInt32.size ≤ a.toNat + b.toNat := by
  unfold wordSum? at h
  split at h
  · cases h
  · next hsize => exact Nat.not_lt.mp hsize

namespace ValueSet

/-- The values so far, and the running value as long as there is one. -/
structure Stepping where
  values : ValueSet
  running : Option UInt32
  deriving DecidableEq

def Stepping.round (last step : UInt32) (p : Stepping) : Stepping :=
  match p.running with
  | none => p
  | some v => if v ≤ last then ⟨p.values.insert v.toNat, wordSum? v step⟩ else ⟨p.values, none⟩

/-- After some rounds from `first` on there is no running value any more, and the values `s` have become `t`. -/
def StepsTo (first last step : UInt32) (s t : ValueSet) : Prop :=
  ∃ n, (Stepping.round last step)^[n] ⟨s, some first⟩ = ⟨t, none⟩

end ValueSet

end CronSchedule
