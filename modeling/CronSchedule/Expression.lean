import CronSchedule.Term.Basic
import CronSchedule.Text.Blank

/-!
# Field expressions

The expression of a field is a list of terms with commas between them, and it stands for the union of their
values. Blanks around the whole expression do not belong to it; blanks inside it are not allowed. The error of
an expression is that of its leftmost bad term.
-/

namespace CronSchedule

/-- The texts between the commas. -/
def pieces (expression : List Char) : List (List Char) :=
  (trim expression).splitOn ','

def readTerms (f : Field) (expression : List Char) : Except TermError (List Term) :=
  (pieces expression).mapM (Term.read f)

def valuesOf (f : Field) (terms : List Term) : ValueSet :=
  terms.foldr (fun t s => t.values f ∪ s) ∅

def expand (f : Field) (expression : List Char) : Except TermError ValueSet :=
  (readTerms f expression).map (valuesOf f)

/-- Whether an expression begins with a star: such a day field leaves the choice of days to the other one. -/
def isStarred (expression : List Char) : Bool :=
  (trim expression).head? == some '*'

theorem isStarred_iff {expression : List Char} : isStarred expression = true ↔ (trim expression).head? = some '*' := by
  simp [isStarred]

theorem mem_valuesOf {f : Field} {terms : List Term} {v : Nat} :
    v ∈ valuesOf f terms ↔ ∃ t ∈ terms, v ∈ t.values f := by
  induction terms with
  | nil => simp [valuesOf]
  | cons t terms ih =>
    have h : valuesOf f (t :: terms) = t.values f ∪ valuesOf f terms := rfl
    simp [h, ih]

end CronSchedule
