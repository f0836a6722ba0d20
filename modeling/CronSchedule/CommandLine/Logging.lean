import CronSchedule.Journal.Record

/-!
# What a run logs

A run writes the records of its journal to the error stream, each on a line of its own and as far as its filter lets
them through. In front of a record stands the time at which it was written. Unless the environment says otherwise,
warnings are let through and nothing else.
-/

namespace CronSchedule

/-- The environment variable that tells which records to let through. -/
def logVariable : String := "RUST_LOG"

/-- The value that counts where the variable has none. -/
def logDefault : String := "warn"

/-- The filter, the times of the records and how a record is laid out behind its time. No two records of one run are the
same, so each can have a time of its own. -/
structure Logging where
  shows : Record → Bool
  stamp : Record → String
  layout : String → Record → String

namespace Logging

def line (l : Logging) (r : Record) : String :=
  l.layout (l.stamp r) r ++ "\n"

def text (l : Logging) (records : List Record) : String :=
  String.join ((records.filter l.shows).map l.line)

theorem text_nil (l : Logging) : l.text [] = "" :=
  rfl

end Logging

/-! ## Filters -/

def showsNothing (_ : Record) : Bool :=
  false

def showsWarnings (r : Record) : Bool :=
  r.level = .warning

def showsAll (_ : Record) : Bool :=
  true

/-- The filter that the value of the variable stands for: the name of the least level that is let through. There are no
records above warnings, nor between them and debugging, and an empty name is that of the highest level. Only levels are
read here: a value that tells parts of the program apart counts as none. -/
def filterFor (value : Option (List Char)) : Record → Bool :=
  match String.ofList ((value.getD logDefault.toList).map Char.toLower) with
  | "" => showsNothing
  | "off" => showsNothing
  | "error" => showsNothing
  | "debug" => showsAll
  | "trace" => showsAll
  | _ => showsWarnings

theorem filterFor_none : filterFor none = showsWarnings :=
  rfl

/-! ## Lines -/

def Datum.words : Datum → String
  | text s => String.ofList s
  | number n => String.ofList (integerText n)

/-- Universal time down to the nanosecond. -/
def DateTime.stamp (t : DateTime) : String :=
  String.ofList (t.minuteText ++ ':' :: t.secondText ++ ['Z'])

/-- The levels end in the same column. -/
def Record.line (stamp : String) (r : Record) : String :=
  let level := "".pushn ' ' (5 - r.level.name.length) ++ r.level.name
  stamp ++ " " ++ level ++ " " ++ r.message ++ String.join (r.data.map fun d => " " ++ d.1 ++ "=" ++ d.2.words)

theorem Logging.exists_line_eq {l : Logging} (h : l.layout = Record.line) (r : Record) :
    ∃ rest, l.line r = l.stamp r ++ rest := by
  unfold Logging.line
  rw [h]
  unfold Record.line
  dsimp only
  simp only [String.append_assoc]
  exact ⟨_, rfl⟩

end CronSchedule
