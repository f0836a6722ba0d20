import CronSchedule.Term.Grammar

/-!
# Texts that are no terms

The other side of the grammar: `Faulty` relates a text that is no term to the error that it has. The faults come in a
fixed order (the shape, the start of the range, its end, their order, the step), so each constructor also says that
nothing is wrong with what comes before. `Blames` says what a reader of the error can rely on.
-/

namespace CronSchedule

/-- What is wrong with a token that stands for no value. -/
def Fault.ofToken (token : List Char) : Fault :=
  if token = [] then .missingValue
  else if isNumeral token then .valueOutOfRange
  else .unknownValue

/-- Whether a single value is at fault, and not the term around it. -/
def Fault.isOfValue : Fault → Bool
  | missingValue => true
  | unknownValue => true
  | valueOutOfRange => true
  | _ => false

def Fault.isOfStep : Fault → Bool
  | stepNotNumeric => true
  | stepNotPositive => true
  | _ => false

inductive StepFault (n : List Char) : Fault → Prop
  | notNumeric : isNumeral n = false → StepFault n .stepNotNumeric
  | notPositive : isNumeral n = true → ¬ (0 < numeralValue n ∧ numeralValue n < Term.stepLimit) →
      StepFault n .stepNotPositive

/-- The text has the form of a range: its sides, and what stands behind its slash if it has one. -/
inductive Ranges : List Char → List Char → List Char → Option (List Char) → Prop
  | plain {a b : List Char} : a.head? ≠ some '*' → '-' ∉ a → '/' ∉ a ++ '-' :: b → Ranges (a ++ '-' :: b) a b none
  | stepped {a b n : List Char} : a.head? ≠ some '*' → '-' ∉ a → '/' ∉ a ++ '-' :: b →
      Ranges (a ++ '-' :: b ++ '/' :: n) a b (some n)

inductive Faulty (f : Field) : List Char → TermError → Prop
  | empty : Faulty f [] ⟨f, [], .emptyTerm⟩
  | starred {s : List Char} : s ≠ [] → s.head? ≠ some '/' → Faulty f ('*' :: s) ⟨f, '*' :: s, .unrecognizedTerm⟩
  | starStep {n : List Char} {fault : Fault} : StepFault n fault →
      Faulty f ('*' :: '/' :: n) ⟨f, '*' :: '/' :: n, fault⟩
  | noRange {r n : List Char} : r.head? ≠ some '*' → '/' ∉ r → '-' ∉ r →
      Faulty f (r ++ '/' :: n) ⟨f, r ++ '/' :: n, .stepWithoutRange⟩
  | start {p a b : List Char} {n : Option (List Char)} : Ranges p a b n → (∀ v, ¬ Denotes f .start a v) →
      Faulty f p ⟨f, a, .ofToken a⟩
  | stop {p a b : List Char} {n : Option (List Char)} {x : Nat} : Ranges p a b n → Denotes f .start a x →
      (∀ v, ¬ Denotes f .stop b v) → Faulty f p ⟨f, b, .ofToken b⟩
  | order {p a b : List Char} {n : Option (List Char)} {x y : Nat} : Ranges p a b n → Denotes f .start a x →
      Denotes f .stop b y → y ≤ x → Faulty f p ⟨f, p, .unorderedRange⟩
  | step {p a b n : List Char} {x y : Nat} {fault : Fault} : Ranges p a b (some n) → Denotes f .start a x →
      Denotes f .stop b y → x < y → StepFault n fault → Faulty f p ⟨f, p, fault⟩
  | value {p : List Char} : p ≠ [] → (∀ c ∈ p, c.isAlphanum = true) → (∀ v, ¬ Denotes f .start p v) →
      Faulty f p ⟨f, p, .ofToken p⟩
  | unrecognized {p : List Char} : p.head? ≠ some '*' → '/' ∉ p → '-' ∉ p → ¬ (∀ c ∈ p, c.isAlphanum = true) →
      Faulty f p ⟨f, p, .unrecognizedTerm⟩

/-- The error is that of a single value on its own: of all of `p`, or of a side of the range that `p` has. -/
inductive BlamesValue (f : Field) (p : List Char) (err : TermError) : Prop
  | single : (∀ c ∈ p, c.isAlphanum = true) → err.term = p → f.readValue .start p = .error err → BlamesValue f p err
  | start {a b : List Char} {n : Option (List Char)} : Ranges p a b n → err.term = a →
      f.readValue .start a = .error err → BlamesValue f p err
  | stop {a b : List Char} {n : Option (List Char)} : Ranges p a b n → err.term = b →
      f.readValue .stop b = .error err → BlamesValue f p err

structure Blames (f : Field) (p : List Char) (err : TermError) : Prop where
  field : err.field = f
  within : err.term <:+: p
  value : err.fault.isOfValue = true → BlamesValue f p err
  start : ∀ a b n e, Ranges p a b n → f.readValue .start a = .error e → err = e
  whole : err.fault.isOfValue = false → err.term = p
  order : err.fault = .unorderedRange → ∃ a b n x y, Ranges p a b n ∧ f.readValue .start a = .ok x ∧
    f.readValue .stop b = .ok y ∧ y ≤ x
  step : err.fault.isOfStep = true → ∀ a b n, Ranges p a b n → ∃ x y, f.readValue .start a = .ok x ∧
    f.readValue .stop b = .ok y ∧ x < y

end CronSchedule
