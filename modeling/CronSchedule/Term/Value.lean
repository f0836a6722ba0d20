import CronSchedule.Term.Error
import CronSchedule.Text.Decimal

/-!
# Tokens for single values

A value is written as a numeral or, in the fields that have names, as the first three or more letters of a
name, in capitals or not. Three letters are enough to tell all names of a field apart. A token also knows where
it stands: Sunday is 0 at the start of a range and 7 at the end of one, so that a range of weekdays can end
with it.
-/

namespace CronSchedule

/-- Where a token stands: alone or at the start of a range, or at the end of a range. -/
inductive Edge where
  | start
  | stop
  deriving DecidableEq

namespace Field

/-- The value that the name with number `i` stands for. -/
def nameValue (f : Field) (e : Edge) (i : Nat) : Nat :=
  if f = dayOfWeek ∧ e = .stop ∧ i = 0 then f.max else f.min + i

/-- The value of the first name that begins with `token`, of which three letters at least must be given. -/
def namedValue? (f : Field) (e : Edge) (token : List Char) : Option Nat :=
  if token.length < 3 then none
  else
    let found := f.valueNames.findIdx? fun name => (token.map Char.toLower).isPrefixOf name.toList
    found.map (f.nameValue e)

def readValue (f : Field) (e : Edge) (token : List Char) : Except TermError Nat :=
  if token = [] then .error ⟨f, token, .missingValue⟩
  else if isNumeral token then
    if f.min ≤ numeralValue token ∧ numeralValue token ≤ f.max then .ok (numeralValue token)
    else .error ⟨f, token, .valueOutOfRange⟩
  else
    match f.namedValue? e token with
    | some v => .ok v
    | none => .error ⟨f, token, .unknownValue⟩

theorem nameValue_mem_range {f : Field} {e : Edge} {i : Nat} (h : i < f.valueNames.length) :
    f.min ≤ f.nameValue e i ∧ f.nameValue e i ≤ f.max := by
  simp only [nameValue]
  split
  · exact ⟨Nat.le_of_lt f.min_lt_max, Nat.le_refl _⟩
  · exact ⟨Nat.le_add_right _ _, min_add_lt_of_lt_length h⟩

theorem namedValue?_mem_range {f : Field} {e : Edge} {token : List Char} {v : Nat}
    (h : f.namedValue? e token = some v) : f.min ≤ v ∧ v ≤ f.max := by
  simp only [namedValue?] at h
  split at h
  · cases h
  · obtain ⟨i, hi, rfl⟩ := Option.map_eq_some_iff.1 h
    exact nameValue_mem_range (List.findIdx?_eq_some_iff_getElem.1 hi).1

theorem readValue_mem_range {f : Field} {e : Edge} {token : List Char} {v : Nat}
    (h : f.readValue e token = .ok v) : f.min ≤ v ∧ v ≤ f.max := by
  simp only [readValue] at h
  split at h
  · cases h
  · split at h
    · split at h
      · next hv => cases h; exact hv
      · cases h
    · split at h
      · next hv => cases h; exact namedValue?_mem_range hv
      · cases h

end Field

end CronSchedule
