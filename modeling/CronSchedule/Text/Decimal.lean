/-!
# Decimal numerals

Numerals are runs of ASCII digits and stand for natural numbers. Leading zeros and length do not matter when a
numeral is read; `numeral` writes the shortest one, and `padded` fills it up with zeros to a width.
-/

namespace CronSchedule

def isNumeral (s : List Char) : Bool :=
  !s.isEmpty && s.all Char.isDigit

def numeralValue (s : List Char) : Nat :=
  Nat.ofDigitChars 10 s 0

def numeral (n : Nat) : List Char :=
  Nat.toDigits 10 n

def padded (width n : Nat) : List Char :=
  (numeral n).leftpad width '0'

def integerText (n : Int) : List Char :=
  if n < 0 then '-' :: numeral n.natAbs else numeral n.natAbs

theorem numeralValue_numeral (n : Nat) : numeralValue (numeral n) = n :=
  Nat.ofDigitChars_ten_toDigits

theorem numeralValue_padded (width n : Nat) : numeralValue (padded width n) = n := by
  simp [padded, numeralValue, List.leftpad, Nat.ofDigitChars_append, Nat.ofDigitChars_replicate_zero, numeral]

theorem isNumeral_numeral (n : Nat) : isNumeral (numeral n) = true := by
  simp only [isNumeral, numeral, Bool.and_eq_true, Bool.not_eq_true', List.isEmpty_eq_false_iff, List.all_eq_true]
  exact ⟨Nat.toDigits_ne_nil, fun _ h => Nat.isDigit_of_mem_toDigits (by decide) (by decide) h⟩

end CronSchedule
