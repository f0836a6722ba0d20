import CronSchedule.CommandLine.Clock
import CronSchedule.CommandLine.Run

/-!
# The program

Fetches the arguments, the environment variables and the time, and hands over the outcome.
-/

def main (arguments : List String) : IO UInt32 := do
  let env ← IO.getEnv CronSchedule.debugVariable
  let level ← IO.getEnv CronSchedule.logVariable
  let clock ← CronSchedule.localTime
  let stamp := (← CronSchedule.universalTime).stamp
  let logging : CronSchedule.Logging :=
    ⟨CronSchedule.filterFor (level.map String.toList), fun _ => stamp, CronSchedule.Record.line⟩
  let outcome := CronSchedule.run logging (arguments.map String.toList) (env.map String.toList) clock
  (← IO.getStdout).putStr outcome.output
  (← IO.getStderr).putStr outcome.errors
  return outcome.exitCode
