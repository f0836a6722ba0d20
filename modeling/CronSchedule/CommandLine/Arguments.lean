import CronSchedule.Calendar.Reading
import CronSchedule.Field
import CronSchedule.Text.Cut
import CronSchedule.Text.Terminal

/-!
# The arguments of the command

The command takes the five fields of a schedule and, anywhere before `--`, four options. `--now` takes its
value after an equals sign or as the next argument; `--debug` takes one only after an equals sign. Everything
behind `--` is a field.

Arguments are read from left to right, and the first that is at fault ends the reading, as a request for help
or for the version does. The value of `--now` that stands in an argument of its own is looked at only when the
next option or field is reached, or the end: a fault in the text of an argument before that comes first.
-/

namespace CronSchedule

inductive CommandOption where
  | debug
  | now
  | help
  | version
  deriving DecidableEq

namespace CommandOption

def all : List CommandOption :=
  [debug, now, help, version]

def name : CommandOption → String
  | debug => "debug"
  | now => "now"
  | help => "help"
  | version => "version"

def letter? : CommandOption → Option Char
  | help => some 'h'
  | version => some 'V'
  | _ => none

def label : CommandOption → String
  | debug => "--debug[=<DEBUG>]"
  | now => "--now <NOW>"
  | help => "--help"
  | version => "--version"

end CommandOption

/-- The word for a field in messages, in angle brackets. -/
def Field.placeholder : Field → String
  | minute => "<MINUTE>"
  | hour => "<HOUR>"
  | dayOfMonth => "<DAY_OF_MONTH>"
  | month => "<MONTH>"
  | dayOfWeek => "<DAY_OF_WEEK>"

inductive ArgumentError where
  | unexpectedArgument (argument : List Char)
  | unexpectedValue (o : CommandOption) (value : List Char)
  | missingValue (o : CommandOption)
  | repeated (o : CommandOption)
  | invalidTime (value : List Char) (fault : TimeFault)
  | missingFields (given : Nat)
  deriving DecidableEq

namespace ArgumentError

/-- The words for an error, with `mark` on the texts that they quote. -/
def words (mark : String → String) : ArgumentError → String
  | unexpectedArgument a => "unexpected argument '" ++ mark (String.ofList a) ++ "' found"
  | unexpectedValue o v =>
    "unexpected value '" ++ mark (String.ofList v) ++ "' for '" ++ mark o.label ++ "' found; no more were expected"
  | missingValue o => "a value is required for '" ++ mark o.label ++ "' but none was supplied"
  | repeated o => "the argument '" ++ mark o.label ++ "' cannot be used multiple times"
  | invalidTime v fault =>
    let value := String.ofList v
    "invalid value '" ++ mark value ++ "' for '" ++ mark CommandOption.now.label ++ "': invalid time '" ++
      value ++ "': " ++ fault.text
  | missingFields given =>
    "\n  ".intercalate
      ("the following required arguments were not provided:" :: (Field.all.drop given).map Field.placeholder)

/-- The words with a hint behind them. -/
def text (mark : String → String) (e : ArgumentError) : String :=
  e.words mark ++ "\n\nFor more information, try '" ++ mark CommandOption.help.label ++ "'."

/-- The text with its marks, as a terminal shows it. A control sequence in a quoted text reaches to the next mark at
most, and so may take the end of the words with it. -/
def message (e : ArgumentError) : String :=
  shown false (e.text marked)

end ArgumentError

/-- What ends the reading of the arguments before they are all read. -/
inductive Interruption where
  | help (detailed : Bool)
  | version
  | error (e : ArgumentError)
  deriving DecidableEq

/-- What is known of the value of `--now`: nothing is open, it has still to come, or it has not been looked at. -/
inductive Pending where
  | nothing
  | wanted
  | given (value : List Char)
  deriving DecidableEq

structure Invocation where
  fields : List (List Char) := []
  debug : Option (List Char) := none
  now : Option DateTime := none

structure Scan extends Invocation where
  pending : Pending := .nothing
  onlyFields : Bool := false

namespace Scan

def fail {α : Type} (e : ArgumentError) : Except Interruption α :=
  .error (.error e)

def setNow (s : Scan) (value : List Char) : Except Interruption Scan :=
  if s.now.isSome then fail (.repeated .now)
  else
    match DateTime.read value with
    | .ok t => .ok { s with now := some t }
    | .error fault => fail (.invalidTime value fault)

def settle (s : Scan) : Except Interruption Scan :=
  match s.pending with
  | .nothing => .ok s
  | .wanted => fail (.missingValue .now)
  | .given value => setNow { s with pending := .nothing } value

def readOption (s : Scan) (o : CommandOption) (value : Option (List Char)) : Except Interruption Scan :=
  match o, value with
  | .debug, value => do
    let s ← settle s
    if s.debug.isSome then fail (.repeated .debug) else return { s with debug := some (value.getD "true".toList) }
  | .now, some value => do
    let s ← settle s
    setNow s value
  | .now, none => do
    let s ← settle s
    return { s with pending := .wanted }
  | .help, none => do
    let _ ← settle s
    .error (.help true)
  | .version, none => do
    let _ ← settle s
    .error .version
  | o, some value => fail (.unexpectedValue o value)

def readLong (s : Scan) (text : List Char) : Except Interruption Scan :=
  let (name, value) := match cutAt? '=' text with
    | some (name, value) => (name, some value)
    | none => (text, none)
  match CommandOption.all.find? fun o => o.name.toList == name with
  | some o => readOption s o value
  | none => fail (.unexpectedArgument ("--".toList ++ name))

/-- Reads the letter behind a single hyphen; both letters end the reading. -/
def readShort (s : Scan) (c : Char) : Except Interruption Scan :=
  match CommandOption.all.find? fun o => o.letter? == some c with
  | some o => do
    let _ ← settle s
    .error (if o = .help then .help false else .version)
  | none => fail (.unexpectedArgument ['-', c])

def readField (s : Scan) (argument : List Char) : Except Interruption Scan :=
  if Field.all.length ≤ s.fields.length then fail (.unexpectedArgument argument)
  else do
    let s ← settle s
    return { s with fields := s.fields ++ [argument] }

def readArgument (s : Scan) (argument : List Char) : Except Interruption Scan :=
  if s.onlyFields then readField s argument
  else
    match argument with
    | ['-', '-'] => .ok { s with onlyFields := true }
    | '-' :: '-' :: text => readLong s text
    | '-' :: c :: _ => readShort s c
    | _ => if s.pending = .wanted then .ok { s with pending := .given argument } else readField s argument

end Scan

namespace Invocation

def read (arguments : List (List Char)) : Except Interruption Invocation := do
  let s ← arguments.foldlM Scan.readArgument {}
  let s ← s.settle
  if s.fields.length < Field.all.length then Scan.fail (.missingFields s.fields.length) else return s.toInvocation

end Invocation

end CronSchedule
