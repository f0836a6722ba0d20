import CronSchedule.CommandLine.Help
import CronSchedule.CommandLine.Logging
import CronSchedule.Schedule.Reading

/-!
# Running the command

The command prints the first time after `--now`, or after the clock's time, as an argument for another program.
If the debug switch is on, the values of the fields are listed before it. A run that fails prints how the
command is used and nothing else, and puts the error on the error stream. What the run logs stands there as well, in
front of the error.
-/

namespace CronSchedule

structure Outcome where
  exitCode : UInt32
  output : String
  errors : String
  deriving DecidableEq

inductive CommandError where
  | arguments (e : ArgumentError)
  | schedule (e : ScheduleError)
  deriving DecidableEq

def CommandError.message : CommandError → String
  | arguments e => e.message
  | schedule e => e.message

namespace Outcome

def success (output : String) : Outcome :=
  ⟨0, output, ""⟩

def failure (e : CommandError) : Outcome where
  exitCode := 1
  output := usage ++ "\nPrints the next matching time as --time=YYYY-MM-DDTHH:MM:00\n"
  errors := "error: " ++ e.message ++ "\n"

/-- The outcome with a log in front of the error. -/
def behind (o : Outcome) (log : String) : Outcome :=
  { o with errors := log ++ o.errors }

end Outcome

/-- Whether a value turns the debug switch on; no value is refused, and all others leave it off. -/
def isOn (value : List Char) : Bool :=
  (trim value).map Char.toLower ∈ ["1".toList, "true".toList, "yes".toList, "on".toList]

namespace Invocation

/-- The command line has the first word on the debug switch, the environment the second. -/
def debugOn (i : Invocation) (env : Option (List Char)) : Bool :=
  isOn ((i.debug.or env).getD debugDefault.toList)

/-- The schedule that the fields write, and its first time after the one asked for. -/
def next (i : Invocation) (clock : DateTime) : Logged ScheduleError (Schedule × DateTime) := do
  let c ← (Schedule.readLogged i.fields).mapError .unreadable
  let now := i.now.getD clock
  Logged.note (.searching now c)
  let t ← (c.searchFrom false now).mapError .exhausted
  return (c, t)

end Invocation

def Schedule.fieldListing (c : Schedule) : String :=
  "".intercalate (Field.all.map fun f => f.name ++ ": " ++ String.ofList (c.values f).listing ++ "\n")

/-- Runs the command with the value of its environment variable and the time on the clock. -/
def run (logging : Logging) (arguments : List (List Char)) (env : Option (List Char)) (clock : DateTime) : Outcome :=
  match Invocation.read arguments with
  | .error (.help detailed) => .success (helpText detailed (String.ofList (env.getD [])))
  | .error .version => .success versionText
  | .error (.error e) => .failure (.arguments e)
  | .ok i =>
    let next := i.next clock
    let outcome : Outcome :=
      match next.outcome with
      | .error e => .failure (.schedule e)
      | .ok (c, t) =>
        let listing := if i.debugOn env then c.fieldListing else ""
        .success (listing ++ String.ofList t.argument ++ "\n")
    outcome.behind (logging.text (next.events.map Event.record))

end CronSchedule
