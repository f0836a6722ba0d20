import CronSchedule.Term.Basic

/-!
# The grammar of terms

Which texts are terms, said without the reader: `Denotes` relates a token to its value, `Spells` a text to the
term that it is, and `Term.Contains` says which values a term takes.
-/

namespace CronSchedule

/-- A token stands for a value of a field: as a numeral in range, or as the first letters of a name. -/
inductive Denotes (f : Field) (e : Edge) : List Char → Nat → Prop
  | numeral {token : List Char} : isNumeral token = true → f.min ≤ numeralValue token → numeralValue token ≤ f.max →
      Denotes f e token (numeralValue token)
  | name {token : List Char} {i : Nat} {name : String} : f.valueNames[i]? = some name → 3 ≤ token.length →
      token.map Char.toLower <+: name.toList → Denotes f e token (f.nameValue e i)

/-- A step is a numeral of any length whose value is positive and below the limit. -/
inductive IsStep : List Char → Nat → Prop
  | numeral {n : List Char} : isNumeral n = true → 0 < numeralValue n → numeralValue n < Term.stepLimit →
      IsStep n (numeralValue n)

inductive Spells (f : Field) : List Char → Term → Prop
  | star : Spells f ['*'] (.every 1)
  | starStep {n : List Char} {k : Nat} : IsStep n k → Spells f ('*' :: '/' :: n) (.every k)
  | range {a b : List Char} {x y : Nat} : Denotes f .start a x → Denotes f .stop b y → x < y →
      Spells f (a ++ '-' :: b) (.range x y 1)
  | rangeStep {a b n : List Char} {x y k : Nat} : Denotes f .start a x → Denotes f .stop b y → x < y → IsStep n k →
      Spells f (a ++ '-' :: b ++ '/' :: n) (.range x y k)
  | value {a : List Char} {x : Nat} : Denotes f .start a x → Spells f a (.value x)

/-- The values of a term: every `k`-th one from the start on and up to the end, or the only one. -/
def Term.Contains (f : Field) (v : Nat) : Term → Prop
  | every k => v ≤ f.max ∧ ∃ i, v = f.min + i * k
  | range x y k => v ≤ y ∧ ∃ i, v = x + i * k
  | value x => v = x

end CronSchedule
