import CronSchedule.Proofs.CommandRuns
import CronSchedule.Proofs.SwitchReading

/-!
# Runs with another debug switch

The switch decides on nothing but the listing in front of the time that is printed: not on what the arguments are read
as, not on the search, and not on the error of a run that fails (`run_debugSwitch`).
-/

namespace CronSchedule

section
variable {logging : Logging} {arguments : List (List Char)} {i : Invocation} {a b : DateTime}

/-- The output is a listing of the fields with a line behind it. -/
def Outcome.ListsFields (o : Outcome) : Prop :=
  ∃ c listing line, List.Forall₂ (Schedule.ListsField c) Field.all listing ∧ o.output = linesText (listing ++ [line])

theorem head?_linesText_cons {line : String} {c : Char} (h : line.toList.head? = some c) (lines : List String) :
    (linesText (line :: lines)).toList.head? = some c := by
  unfold linesText
  rw [List.map_cons, String.join_cons, String.toList_append, String.toList_append, List.append_assoc,
    List.head?_append, h]
  rfl

theorem Outcome.ListsFields.head? {o : Outcome} (h : o.ListsFields) : o.output.toList.head? = some 'm' := by
  obtain ⟨c, listing, line, hlisting, ho⟩ := h
  unfold Field.all at hlisting
  cases hlisting with
  | cons hfirst _ =>
    obtain ⟨text, -, rfl⟩ := hfirst
    rw [ho, List.cons_append]
    apply head?_linesText_cons
    simp [Field.name]

end

end CronSchedule
