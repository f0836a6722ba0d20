import CronSchedule.Field

/-!
# What can be wrong with a term

An error names the field, the text that is to blame and the fault. The text is the whole term where its shape,
the order of its range or its step is at fault, and the single token where that token does not name a value.
-/

namespace CronSchedule

inductive Fault where
  | emptyTerm
  | unrecognizedTerm
  | stepWithoutRange
  | unorderedRange
  | stepNotNumeric
  | stepNotPositive
  | missingValue
  | unknownValue
  | valueOutOfRange
  deriving DecidableEq

def Fault.text : Fault → String
  | emptyTerm => "empty term"
  | unrecognizedTerm => "unrecognized term"
  | stepWithoutRange => "step without a range"
  | unorderedRange => "range start is not before its end"
  | stepNotNumeric => "step is not a number"
  | stepNotPositive => "step must be positive"
  | missingValue => "missing value"
  | unknownValue => "unknown value"
  | valueOutOfRange => "value out of range"

structure TermError where
  field : Field
  term : List Char
  fault : Fault
  deriving DecidableEq

def TermError.message (e : TermError) : String :=
  "Invalid cron expression: " ++ e.fault.text ++ " `" ++ String.ofList e.term ++ "` in " ++ e.field.name ++ " field"

end CronSchedule
