import CronSchedule.Expression
import CronSchedule.Journal
import CronSchedule.Schedule.Basic
import CronSchedule.Schedule.Search

/-!
# Reading schedules

A schedule is written as five expressions, given one by one or with blanks between them on a line. Their number
is checked first, then they are expanded in the order of the fields, and the first that cannot be expanded is
the error. Each field that does expand is recorded.
-/

namespace CronSchedule

def expandLogged (f : Field) (expression : List Char) : Logged ReadError ValueSet :=
  match expand f expression with
  | .ok values => ⟨[.expanded f (trim expression) values], .ok values⟩
  | .error e => ⟨[], .error (.invalidTerm e)⟩

theorem outcome_expandLogged (f : Field) (expression : List Char) :
    (expandLogged f expression).outcome = (expand f expression).mapError .invalidTerm := by
  simp only [expandLogged]
  cases expand f expression <;> rfl

namespace Schedule

def readLogged : List (List Char) → Logged ReadError Schedule
  | [minute, hour, dayOfMonth, month, dayOfWeek] => do
    let minutes ← expandLogged .minute minute
    let hours ← expandLogged .hour hour
    let daysOfMonth ← expandLogged .dayOfMonth dayOfMonth
    let months ← expandLogged .month month
    let daysOfWeek ← expandLogged .dayOfWeek dayOfWeek
    return {
      minutes, hours, daysOfMonth, months, daysOfWeek
      dayOfMonthStarred := isStarred dayOfMonth
      dayOfWeekStarred := isStarred dayOfWeek }
  | expressions => ⟨[], .error (.fieldCount expressions.length)⟩

def ofFields (expressions : List (List Char)) : Except ReadError Schedule :=
  (readLogged expressions).outcome

def ofLine (line : List Char) : Except ReadError Schedule :=
  ofFields (words line)

theorem ofFields_five (minute hour dayOfMonth month dayOfWeek : List Char) :
    ofFields [minute, hour, dayOfMonth, month, dayOfWeek] = Except.mapError .invalidTerm do
      let minutes ← expand .minute minute
      let hours ← expand .hour hour
      let daysOfMonth ← expand .dayOfMonth dayOfMonth
      let months ← expand .month month
      let daysOfWeek ← expand .dayOfWeek dayOfWeek
      return ⟨minutes, hours, daysOfMonth, months, daysOfWeek, isStarred dayOfMonth, isStarred dayOfWeek⟩ := by
  simp only [ofFields, readLogged, Logged.outcome_bind, Logged.outcome_pure, outcome_expandLogged]
  cases expand .minute minute <;> cases expand .hour hour <;> cases expand .dayOfMonth dayOfMonth <;>
    cases expand .month month <;> cases expand .dayOfWeek dayOfWeek <;> rfl

theorem readLogged_of_length_ne {expressions : List (List Char)} (h : expressions.length ≠ 5) :
    readLogged expressions = ⟨[], .error (.fieldCount expressions.length)⟩ := by
  match expressions, h with
  | [], _ => rfl
  | [_], _ => rfl
  | [_, _], _ => rfl
  | [_, _, _], _ => rfl
  | [_, _, _, _], _ => rfl
  | [_, _, _, _, _], h => exact absurd rfl h
  | _ :: _ :: _ :: _ :: _ :: _ :: _, _ => rfl

theorem ofFields_of_length_ne {expressions : List (List Char)} (h : expressions.length ≠ 5) :
    ofFields expressions = .error (.fieldCount expressions.length) := by
  unfold ofFields
  rw [readLogged_of_length_ne h]

def runLogged (expressions : List (List Char)) (inclusive : Bool) (t : DateTime) : Logged ScheduleError DateTime := do
  let c ← (readLogged expressions).mapError .unreadable
  (c.searchFrom inclusive t).mapError .exhausted

end Schedule

end CronSchedule
