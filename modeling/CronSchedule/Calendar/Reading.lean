import CronSchedule.Calendar.DateTime
import CronSchedule.Text.Blank
import CronSchedule.Text.Decimal

/-!
# Reading times

A time is written as a date and a time of day, `YYYY-MM-DDTHH:MM`, and may go on with `:SS`. Blanks may stand
before each number. A year with a sign has any number of digits, one without has at most four, and every other
number has one or two. Second 60 is the leap second of the minute.

A number is checked against its own range as soon as it is read; that the date exists is checked when the
whole text has been read. The form without seconds is tried first; if neither form fits, the fault is that of
the form with seconds.
-/

namespace CronSchedule

inductive TimeFault where
  | invalid
  | tooShort
  | tooLong
  | outOfRange
  deriving DecidableEq

def TimeFault.text : TimeFault → String
  | invalid => "input contains invalid characters"
  | tooShort => "premature end of input"
  | tooLong => "trailing input"
  | outOfRange => "input is out of range"

def readChar (c : Char) : List Char → Except TimeFault (List Char)
  | [] => .error .tooShort
  | x :: s => if x = c then .ok s else .error .invalid

/-- Reads a number of at most `width` digits. -/
def readNumber (width : Nat) (s : List Char) : Except TimeFault (Nat × List Char) :=
  let digits := (s.take width).takeWhile Char.isDigit
  if s = [] then .error .tooShort
  else if digits = [] then .error .invalid
  else .ok (numeralValue digits, s.drop digits.length)

def readPart (least greatest : Nat) (s : List Char) : Except TimeFault (Nat × List Char) := do
  let (n, s) ← readNumber 2 (trimStart s)
  if least ≤ n ∧ n ≤ greatest then .ok (n, s) else .error .outOfRange

/-- Years are numbers of 32 bits while they are read. -/
def IsReadableYear (year : Int) : Prop :=
  -2147483648 ≤ year ∧ year ≤ 2147483647

instance (year : Int) : Decidable (IsReadableYear year) :=
  inferInstanceAs (Decidable (_ ∧ _))

/-- Reads the digits of a year that has a sign; `sign` puts it on. -/
def readSignedYear (sign : Nat → Int) (s : List Char) : Except TimeFault (Int × List Char) := do
  let (n, s) ← readNumber s.length s
  if IsReadableYear (sign n) then .ok (sign n, s) else .error .outOfRange

def readYear (s : List Char) : Except TimeFault (Int × List Char) :=
  match trimStart s with
  | '-' :: s => readSignedYear (fun n => -n) s
  | '+' :: s => readSignedYear (fun n => n) s
  | s => do
    let (n, s) ← readNumber 4 s
    return (n, s)

def readSecond (s : List Char) : Except TimeFault (Nat × List Char) := do
  let s ← readChar ':' s
  readPart 0 60 s

namespace DateTime

/-- The time that six numbers name, if they name one; second 60 is the leap second. -/
def ofNumbers? (year : Int) (month day hour minute second : Nat) : Option DateTime :=
  (Date.ofParts? year month day).bind fun date =>
    if second = 60 then ofParts? date hour minute 59 nanoseconds else ofParts? date hour minute second 0

def readForm (withSecond : Bool) (s : List Char) : Except TimeFault DateTime := do
  let (year, s) ← readYear s
  let s ← readChar '-' s
  let (month, s) ← readPart 1 12 s
  let s ← readChar '-' s
  let (day, s) ← readPart 1 31 s
  let s ← readChar 'T' s
  let (hour, s) ← readPart 0 23 s
  let s ← readChar ':' s
  let (minute, s) ← readPart 0 59 s
  let (second, s) ← if withSecond then readSecond s else pure (0, s)
  if s ≠ [] then .error .tooLong
  else
    match ofNumbers? year month day hour minute second with
    | some t => .ok t
    | none => .error .outOfRange

def read (s : List Char) : Except TimeFault DateTime :=
  match readForm false s with
  | .ok t => .ok t
  | .error _ => readForm true s

end DateTime

end CronSchedule
