import CronSchedule.CommandLine.Arguments

/-!
# The texts of argument errors

An error is written with marks on what it quotes, and shown without them. If the quoted text is plain, all that it says
is shown, and nothing else (`message_of_isPlain`).
-/

namespace CronSchedule

theorem CommandOption.shownAs_label (o : CommandOption) : ShownAs (marked o.label) o.label := by
  apply ShownAs.marked
  apply shownAs_self
  cases o <;> decide

theorem Field.shownAs_placeholder (f : Field) : ShownAs f.placeholder f.placeholder := by
  apply shownAs_self
  cases f <;> decide

theorem TimeFault.shownAs_text (fault : TimeFault) : ShownAs fault.text fault.text := by
  apply shownAs_self
  cases fault <;> decide

namespace ArgumentError

/-- What an error quotes of the arguments. -/
def quoted : ArgumentError → List Char
  | unexpectedArgument a => a
  | unexpectedValue _ v => v
  | invalidTime v _ => v
  | missingValue _ => []
  | repeated _ => []
  | missingFields _ => []

theorem shownAs_words {e : ArgumentError} (h : isPlain e.quoted = true) : ShownAs (e.words marked) (e.words id) := by
  have hquoted : ShownAs (String.ofList e.quoted) (String.ofList e.quoted) := by
    apply shownAs_self
    rw [String.toList_ofList]
    exact h
  -- Each text is taken apart from its end.
  cases e with
  | unexpectedArgument a =>
    refine .append ?_ (shownAs_self (by decide))
    refine .append ?_ hquoted.marked
    exact shownAs_self (by decide)
  | unexpectedValue o v =>
    refine .append ?_ (shownAs_self (by decide))
    refine .append ?_ o.shownAs_label
    refine .append ?_ (shownAs_self (by decide))
    refine .append ?_ hquoted.marked
    exact shownAs_self (by decide)
  | missingValue o =>
    refine .append ?_ (shownAs_self (by decide))
    refine .append ?_ o.shownAs_label
    exact shownAs_self (by decide)
  | repeated o =>
    refine .append ?_ (shownAs_self (by decide))
    refine .append ?_ o.shownAs_label
    exact shownAs_self (by decide)
  | invalidTime v fault =>
    refine .append ?_ fault.shownAs_text
    refine .append ?_ (shownAs_self (by decide))
    refine .append ?_ hquoted
    refine .append ?_ (shownAs_self (by decide))
    refine .append ?_ (CommandOption.shownAs_label .now)
    refine .append ?_ (shownAs_self (by decide))
    refine .append ?_ hquoted.marked
    exact shownAs_self (by decide)
  | missingFields given =>
    apply ShownAs.intercalate (shownAs_self (by decide))
    rw [List.forall_mem_cons, List.forall_mem_map]
    exact ⟨shownAs_self (by decide), fun f _ => f.shownAs_placeholder⟩

theorem message_of_isPlain {e : ArgumentError} (h : isPlain e.quoted = true) : e.message = e.text id := by
  have htext : ShownAs (e.text marked) (e.text id) := by
    refine .append ?_ (shownAs_self (by decide))
    refine .append ?_ (CommandOption.shownAs_label .help)
    refine .append ?_ (shownAs_self (by decide))
    exact shownAs_words h
  exact htext.shown_eq false

end ArgumentError

end CronSchedule
