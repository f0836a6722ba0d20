import CronSchedule.Term.Value
import CronSchedule.Text.Cut
import CronSchedule.ValueSet

/-!
# Terms

A term is one entry of a field's list. It takes every `step`-th value of the whole field or of a range, or a
single value:

    *        every value of the field
    */N      every N-th value, from the least one on
    A-B      every value from A to B
    A-B/N    every N-th value from A to B
    A        the value A

Reading a term decides on its shape first: a star, then a slash, then a hyphen. Of two faults in one term the
first of these is reported: the shape, the start of the range, its end, their order, the step.
-/

namespace CronSchedule

inductive Term where
  | every (step : Nat)
  | range (start stop step : Nat)
  | value (v : Nat)
  deriving DecidableEq

namespace Term

def values (f : Field) : Term → ValueSet
  | every step => .stepped f.min f.max step
  | range start stop step => .stepped start stop step
  | value v => .ofList [v]

/-- A step is a positive number of 32 bits. -/
def stepLimit : Nat := 4294967296

def readStep (f : Field) (term n : List Char) : Except TermError Nat :=
  if isNumeral n then
    if 0 < numeralValue n ∧ numeralValue n < stepLimit then .ok (numeralValue n)
    else .error ⟨f, term, .stepNotPositive⟩
  else .error ⟨f, term, .stepNotNumeric⟩

def readRange (f : Field) (term r : List Char) : Except TermError (Nat × Nat) :=
  match cutAt? '-' r with
  | none => .error ⟨f, term, .stepWithoutRange⟩
  | some (a, b) => do
    let start ← f.readValue .start a
    let stop ← f.readValue .stop b
    if start < stop then .ok (start, stop) else .error ⟨f, term, .unorderedRange⟩

/-- Reads a term that does not begin with a star. -/
def readPlain (f : Field) (term : List Char) : Except TermError Term :=
  match cutAt? '/' term with
  | some (r, n) => do
    let (start, stop) ← readRange f term r
    let step ← readStep f term n
    return range start stop step
  | none =>
    if '-' ∈ term then do
      let (start, stop) ← readRange f term term
      return range start stop 1
    else if term.all Char.isAlphanum then value <$> f.readValue .start term
    else .error ⟨f, term, .unrecognizedTerm⟩

def read (f : Field) (term : List Char) : Except TermError Term :=
  match term with
  | [] => .error ⟨f, term, .emptyTerm⟩
  | ['*'] => .ok (every 1)
  | '*' :: '/' :: n => every <$> readStep f term n
  | '*' :: _ => .error ⟨f, term, .unrecognizedTerm⟩
  | _ => readPlain f term

end Term

end CronSchedule
