import CronSchedule.Text.Blank

/-!
# Words and the blanks around them

The many ways to write the same words: `Pads` puts blanks around a text, and `Joins` sets words on a line with a gap
between each and the next.
-/

namespace CronSchedule

def IsGap (s : List Char) : Prop :=
  ∀ c ∈ s, isBlank c = true

def IsWord (w : List Char) : Prop :=
  w ≠ [] ∧ ∀ c ∈ w, isBlank c = false

-- Decided character by character of the text: a quantifier over `Char` could also be tried on all characters there are.
instance (s : List Char) : Decidable (IsGap s) :=
  decidable_of_iff (s.all isBlank = true) List.all_eq_true

instance (w : List Char) : Decidable (IsWord w) :=
  decidable_of_iff (w ≠ [] ∧ w.all (fun c => !isBlank c) = true) (by simp [IsWord])

inductive Pads (s : List Char) : List Char → Prop
  | intro {before after : List Char} : IsGap before → IsGap after → Pads s (before ++ s ++ after)

inductive Joins : List (List Char) → List Char → Prop
  | nil : Joins [] []
  | single (w : List Char) : Joins [w] w
  | cons {w gap v s : List Char} {ws : List (List Char)} : IsGap gap → gap ≠ [] → Joins (v :: ws) s →
      Joins (w :: v :: ws) (w ++ gap ++ s)

end CronSchedule
