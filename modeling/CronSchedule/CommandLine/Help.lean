import CronSchedule.CommandLine.Arguments

/-!
# Usage and help

The help lists the fields and the options, each with a line on what it is for. The short form puts a label and
its line side by side, the detailed form one under the other. Both show the present value of the environment
variable that stands in for `--debug`, as far as a terminal would show it.
-/

namespace CronSchedule

def programName : String := "cron-next"

def programVersion : String := "0.1.0"

/-- The environment variable whose value counts where `--debug` is not given. -/
def debugVariable : String := "CRON_NEXT_DEBUG"

/-- The value of `--debug` where neither the command line nor the environment has one. -/
def debugDefault : String := "false"

def usage : String :=
  "Usage: " ++ programName ++ " [OPTIONS] " ++ " ".intercalate (Field.all.map Field.placeholder)

def versionText : String :=
  programName ++ " " ++ programVersion ++ "\n"

def Field.purpose : Field → String
  | minute => "Minute field (0-59)"
  | hour => "Hour field (0-23)"
  | dayOfMonth => "Day-of-month field (1-31)"
  | month => "Month field (1-12 or jan-dec)"
  | dayOfWeek => "Day-of-week field (0-7 or sun-sat, Sunday is 0 or 7)"

namespace CommandOption

def fullLabel (o : CommandOption) : String :=
  match o.letter? with
  | some c => "-" ++ c.toString ++ ", " ++ o.label
  | none => o.label

/-- The names of options without a letter stand under those of the others. -/
def labelIndent (o : CommandOption) : Nat :=
  if o.letter?.isSome then 0 else 4

def purpose (detailed : Bool) : CommandOption → String
  | debug =>
    "Also print the values each field expands to. \"1\", \"true\", \"yes\" or \"on\" enable it, " ++
      "anything else leaves it off"
  | now => "Search from this local time (YYYY-MM-DDTHH:MM) instead of the current time"
  | help => if detailed then "Print help (see a summary with '-h')" else "Print help (see more with '--help')"
  | version => "Print version"

def sources (env : String) : CommandOption → List String
  | debug => ["[env: " ++ debugVariable ++ "=" ++ env ++ "]", "[default: " ++ debugDefault ++ "]"]
  | _ => []

end CommandOption

/-- An entry of the help: its label with the columns that stay free before it, its line, and notes that follow. -/
structure HelpEntry where
  indent : Nat
  label : String
  purpose : String
  notes : List String

namespace HelpEntry

def ofField (f : Field) : HelpEntry :=
  ⟨0, f.placeholder, f.purpose, []⟩

def ofOption (detailed : Bool) (env : String) (o : CommandOption) : HelpEntry :=
  ⟨o.labelIndent, o.fullLabel, o.purpose detailed, o.sources env⟩

def spaces (n : Nat) : String :=
  String.ofList (List.replicate n ' ')

/-- The text with each of its lines after the first moved to the right. -/
def hanging (width : Nat) (s : String) : String :=
  ("\n" ++ spaces width).intercalate (s.splitOn "\n")

def width (e : HelpEntry) : Nat :=
  e.indent + e.label.length

def heading (e : HelpEntry) : String :=
  spaces (2 + e.indent) ++ marked e.label

/-- Label and line side by side, where labels take up `columns` columns. -/
def short (columns : Nat) (e : HelpEntry) : String :=
  e.heading ++ spaces (columns - e.width + 2) ++ hanging (columns + 4) (" ".intercalate (e.purpose :: e.notes))

/-- The line under its label, and the notes under an empty line. -/
def detailed (e : HelpEntry) : String :=
  let notes := if e.notes.isEmpty then [] else "" :: e.notes
  e.heading ++ "\n" ++ spaces 10 ++ hanging 10 ("\n".intercalate (e.purpose :: notes))

def group (detailed : Bool) (title : String) (entries : List HelpEntry) : String :=
  let columns := (entries.map width).foldl max 0
  let body := if detailed then "\n\n".intercalate (entries.map HelpEntry.detailed)
    else "\n".intercalate (entries.map (short columns))
  title ++ ":\n" ++ body ++ "\n"

end HelpEntry

def about (detailed : Bool) : String :=
  let line := "Print the next time a five-field crontab expression fires"
  if detailed then line ++ ".\n\nQuote each field so the shell leaves `*` alone." else line

/-- The help for a terminal, with the present value of the environment variable. -/
def markedHelp (detailed : Bool) (env : String) : String :=
  let fields := Field.all.map HelpEntry.ofField
  let options := CommandOption.all.map (HelpEntry.ofOption detailed env)
  about detailed ++ "\n\n" ++ usage ++ "\n\n" ++ HelpEntry.group detailed "Arguments" fields ++ "\n" ++
    HelpEntry.group detailed "Options" options

def helpText (detailed : Bool) (env : String) : String :=
  shown true (markedHelp detailed env)

end CronSchedule
