import Mathlib.Data.Finset.Basic
import Mathlib.Order.Interval.Finset.Nat
import CronSchedule.ValueSet

/-!
# How sets are put together

Every set of values comes from the empty set, from the full sets of fields and from lists, by putting in single values
and by unions, in any number and any order. A construction says how. What it gives as a word of bits is `build`; what
has been put in, as a finite set of numbers, is `given`.
-/

namespace CronSchedule

namespace ValueSet

inductive Construction where
  | empty
  | full (f : Field)
  | ofList (vs : List Nat)
  | insert (e : Construction) (v : Nat)
  | union (e e' : Construction)

namespace Construction

def build : Construction → ValueSet
  | empty => ∅
  | full f => ValueSet.full f
  | ofList vs => ValueSet.ofList vs
  | insert e v => e.build.insert v
  | union e e' => e.build ∪ e'.build

/-- All values that were put in, also those that no set stores. -/
def given : Construction → Finset Nat
  | empty => ∅
  | full f => Finset.Icc f.min f.max
  | ofList vs => vs.toFinset
  | insert e v => {v} ∪ e.given
  | union e e' => e.given ∪ e'.given

/-- The values below 64 that were put in. -/
def values (e : Construction) : Finset Nat :=
  {v ∈ e.given | v < 64}

end Construction

end ValueSet

end CronSchedule
