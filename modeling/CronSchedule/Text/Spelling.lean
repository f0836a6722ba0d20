import CronSchedule.Text.Layout

/-!
# Ways to spell a line

`Respells` is one change to a line that leaves its words the same to a reader: another case of a letter, a zero in front
of a number, another gap, blanks around the line. The plain spelling of a text has small letters only, and no zero in
front of the other digits of a number.
-/

namespace CronSchedule

inductive Respells : List Char → List Char → Prop
  | letter (before after : List Char) {c d : Char} : c.toLower = d.toLower →
      Respells (before ++ c :: after) (before ++ d :: after)
  | zero (before after : List Char) {d : Char} : before.getLast?.any Char.isDigit = false → d.isDigit = true →
      Respells (before ++ d :: after) (before ++ '0' :: d :: after)
  | gap (before after : List Char) {gap gap' : List Char} : IsGap gap → gap ≠ [] → IsGap gap' → gap' ≠ [] →
      Respells (before ++ gap ++ after) (before ++ gap' ++ after)
  | pad {s padded : List Char} : Pads s padded → Respells s padded

/-- The plain spelling of what stands behind a digit, or behind anything else. -/
def plainFrom (afterDigit : Bool) : List Char → List Char
  | [] => []
  | c :: s =>
    if c = '0' ∧ afterDigit = false ∧ s.head?.any Char.isDigit = true then plainFrom false s
    else c.toLower :: plainFrom c.isDigit s

def plain (s : List Char) : List Char :=
  plainFrom false s

end CronSchedule
