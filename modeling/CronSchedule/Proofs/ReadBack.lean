import CronSchedule.Calendar.Reading
import CronSchedule.Calendar.Written
import CronSchedule.Proofs.Layout
import CronSchedule.Proofs.Outcome
import CronSchedule.Proofs.Upcoming
import CronSchedule.Schedule.Relay

/-!
# Printed times can be read back

The argument that a run prints holds all of a minute. Its parts are numbers of fixed width, or end where another
character stands, so each is read back as it was written (`readNumber_append`). A year of at most four digits has no
sign and any other has one, and both spellings are read back (`readYear_yearText`). From that on the two forms of a
time go the same way, up to the seconds (`readForm_minuteText`).

What is found is always the start of a minute, and nothing of it is lost between one run and the next
(`relay_eq_finds`).
-/

namespace CronSchedule

/-! ## Padded numerals -/

section
variable {width n : Nat}

theorem isDigit_of_mem_padded {c : Char} (h : c ∈ padded width n) : c.isDigit = true := by
  unfold padded List.leftpad at h
  rcases List.mem_append.1 h with h | h
  · rw [List.eq_of_mem_replicate h]
    decide
  · exact (isDigit_of_isNumeral (isNumeral_numeral n)).2 c h

theorem isNumeral_padded (width n : Nat) : isNumeral (padded width n) = true := by
  have hne : padded width n ≠ [] := by
    unfold padded List.leftpad
    exact List.append_ne_nil_of_right_ne_nil _ (isDigit_of_isNumeral (isNumeral_numeral n)).1
  unfold isNumeral
  rw [Bool.and_eq_true, Bool.not_eq_true', List.isEmpty_eq_false_iff, List.all_eq_true]
  exact ⟨hne, fun _ => isDigit_of_mem_padded⟩

theorem length_padded (h : (numeral n).length ≤ width) : (padded width n).length = width := by
  unfold padded
  rw [List.length_leftpad]
  exact Nat.max_eq_left h

end

/-! ## Numbers in front of other text -/

section
variable {digits rest : List Char}

theorem trimStart_numeral_append (h : isNumeral digits = true) (rest : List Char) :
    trimStart (digits ++ rest) = digits ++ rest := by
  obtain ⟨hne, hd⟩ := isDigit_of_isNumeral h
  obtain ⟨c, ds, rfl⟩ := List.exists_cons_of_ne_nil hne
  have hc := isBlank_of_isDigit (hd c List.mem_cons_self)
  exact List.dropWhile_cons_of_neg (Bool.eq_false_iff.1 hc)

/-- A number ends where its width is used up, or where the digits are. -/
theorem readNumber_append {width : Nat} (hn : isNumeral digits = true) (hl : digits.length ≤ width)
    (h : digits.length = width ∨ ∀ c, rest.head? = some c → c.isDigit = false) :
    readNumber width (digits ++ rest) = .ok (numeralValue digits, rest) := by
  obtain ⟨hne, hd⟩ := isDigit_of_isNumeral hn
  have hrest : (rest.take (width - digits.length)).takeWhile Char.isDigit = [] := by
    rcases h with h | h
    · rw [h, Nat.sub_self, List.take_zero, List.takeWhile_nil]
    · cases rest with
      | nil => rw [List.take_nil, List.takeWhile_nil]
      | cons c rest =>
        cases width - digits.length with
        | zero => rfl
        | succ k =>
          rw [List.take_succ_cons]
          exact List.takeWhile_cons_of_neg (Bool.eq_false_iff.1 (h c rfl))
  have htake : ((digits ++ rest).take width).takeWhile Char.isDigit = digits := by
    rw [List.take_append, List.take_of_length_le hl, List.takeWhile_append_of_pos hd, hrest, List.append_nil]
  unfold readNumber
  rw [htake, if_neg (List.append_ne_nil_of_left_ne_nil hne _), if_neg hne, List.drop_left]

theorem readPart_padded {least greatest n : Nat} (h : least ≤ n ∧ n ≤ greatest) (hlt : n < 100) (rest : List Char) :
    readPart least greatest (padded 2 n ++ rest) = .ok (n, rest) := by
  have hdigits : (numeral n).length ≤ 2 := (Nat.length_toDigits_le_iff (by decide) (by decide)).2 hlt
  have hl := length_padded hdigits
  unfold readPart
  rw [trimStart_numeral_append (isNumeral_padded 2 n),
    readNumber_append (isNumeral_padded 2 n) (Nat.le_of_eq hl) (.inl hl), numeralValue_padded]
  exact if_pos h

theorem readChar_self (c : Char) (s : List Char) : readChar c (c :: s) = .ok s :=
  if_pos rfl

end

/-! ## Years -/

theorem readSignedYear_padded {sign : Nat → Int} {n : Nat} (h : IsReadableYear (sign n)) (rest : List Char) :
    readSignedYear sign (padded 4 n ++ '-' :: rest) = .ok (sign n, '-' :: rest) := by
  have hl : (padded 4 n).length ≤ (padded 4 n ++ '-' :: rest).length := by
    rw [List.length_append]
    exact Nat.le_add_right _ _
  have hend : ∀ c, ('-' :: rest).head? = some c → c.isDigit = false := by
    intro c hc
    cases hc
    decide
  unfold readSignedYear
  rw [readNumber_append (isNumeral_padded 4 n) hl (.inr hend), numeralValue_padded]
  exact if_pos h

theorem readYear_padded {n : Nat} (h : n < 10000) (rest : List Char) :
    readYear (padded 4 n ++ rest) = .ok ((n : Int), rest) := by
  have hdigits : (numeral n).length ≤ 4 := (Nat.length_toDigits_le_iff (by decide) (by decide)).2 h
  have hl := length_padded hdigits
  have hread : readNumber 4 (padded 4 n ++ rest) = .ok (n, rest) := by
    rw [readNumber_append (isNumeral_padded 4 n) (Nat.le_of_eq hl) (.inl hl), numeralValue_padded]
  have htrim := trimStart_numeral_append (isNumeral_padded 4 n) rest
  unfold readYear
  rw [htrim]
  obtain ⟨c, ds, hc⟩ := List.exists_cons_of_ne_nil (isDigit_of_isNumeral (isNumeral_padded 4 n)).1
  have hd : c.isDigit = true := isDigit_of_mem_padded (hc ▸ List.mem_cons_self)
  -- a digit is neither of the signs
  split
  · rename_i heq
    rw [hc] at heq
    cases heq
    cases hd
  · rename_i heq
    rw [hc] at heq
    cases heq
    cases hd
  · rw [hread]
    rfl

theorem readYear_yearText {year : Int} (h : firstYear ≤ year ∧ year ≤ lastYear) (rest : List Char) :
    readYear (yearText year ++ '-' :: rest) = .ok (year, '-' :: rest) := by
  have hreadable : IsReadableYear year := by
    unfold firstYear lastYear at h
    unfold IsReadableYear
    omega
  unfold yearText
  split
  · rename_i hy
    have hyear : (year.natAbs : Int) = year := by omega
    rw [readYear_padded (by omega), hyear]
  split
  · have hyear : -(year.natAbs : Int) = year := by omega
    rw [← hyear] at hreadable
    change readSignedYear (fun n => -n) (padded 4 year.natAbs ++ '-' :: rest) = _
    rw [readSignedYear_padded hreadable, hyear]
  · have hyear : (year.natAbs : Int) = year := by omega
    rw [← hyear] at hreadable
    change readSignedYear (fun n => n) (padded 4 year.natAbs ++ '-' :: rest) = _
    rw [readSignedYear_padded hreadable, hyear]

namespace DateTime

/-! ## The two forms of a time -/

section
variable (t : DateTime)

theorem ofNumbers?_truncate :
    ofNumbers? t.date.year t.date.month t.date.day t.hour t.minute 0 = some t.truncate := by
  have hd : Date.ofParts? t.date.year t.date.month t.date.day = some t.date :=
    Date.ofParts?_eq_some_iff.2 ⟨rfl, rfl, rfl⟩
  unfold ofNumbers?
  rw [hd, Option.bind_some, if_neg (by decide)]
  exact ofParts?_eq_some_iff.2 ⟨rfl, rfl, rfl, rfl, rfl⟩

/-- Either form reads the minute; what it makes of the rest decides. -/
theorem readForm_minuteText (withSecond : Bool) {rest left : List Char}
    (h : (if withSecond then readSecond rest else pure (0, rest)) = .ok (0, left)) :
    readForm withSecond (t.minuteText ++ rest) = if left ≠ [] then .error .tooLong else .ok t.truncate := by
  obtain ⟨hh, hm, -, -⟩ := t.isTimeOfDay
  have hmonth := t.date.month_mem_range
  have hday := t.date.day_le
  unfold minuteText Date.text clockText readForm
  simp only [List.append_assoc, List.cons_append]
  refine (bind_of_ok (readYear_yearText t.date.isDate.1 _) _).trans ?_
  refine (bind_of_ok (readChar_self '-' _) _).trans ?_
  refine (bind_of_ok (readPart_padded hmonth (by omega) _) _).trans ?_
  refine (bind_of_ok (readChar_self '-' _) _).trans ?_
  refine (bind_of_ok (readPart_padded ⟨t.date.one_le_day, hday⟩ (by omega) _) _).trans ?_
  refine (bind_of_ok (readChar_self 'T' _) _).trans ?_
  refine (bind_of_ok (readPart_padded ⟨Nat.zero_le _, Nat.le_of_lt_succ hh⟩ (by omega) _) _).trans ?_
  refine (bind_of_ok (readChar_self ':' _) _).trans ?_
  refine (bind_of_ok (readPart_padded ⟨Nat.zero_le _, Nat.le_of_lt_succ hm⟩ (by omega) _) _).trans ?_
  cases withSecond with
  | false =>
    cases h
    change (if rest ≠ [] then _ else _) = _
    rw [ofNumbers?_truncate]
  | true =>
    refine (bind_of_ok h _).trans ?_
    rw [ofNumbers?_truncate]

theorem read_minuteText : read t.minuteText = .ok t.truncate := by
  have h := @readForm_minuteText t false [] [] rfl
  rw [List.append_nil, if_neg (by decide)] at h
  unfold read
  rw [h]

theorem readForm_false_withZeros : readForm false (t.minuteText ++ ":00".toList) = .error .tooLong :=
  t.readForm_minuteText false rfl

theorem read_withZeros : read (t.minuteText ++ ":00".toList) = .ok t.truncate := by
  have hzeros : readSecond ":00".toList = .ok (0, []) := by decide
  unfold read
  rw [readForm_false_withZeros]
  exact t.readForm_minuteText true hzeros

/-! ## Arguments -/

theorem ofArgument?_argument : ofArgument? t.argument = some t.truncate := by
  unfold ofArgument? argument
  rw [List.append_assoc]
  have hlabel : "--time=".toList.isPrefixOf ("--time=".toList ++ (t.minuteText ++ ":00".toList)) = true :=
    List.isPrefixOf_iff_prefix.2 (List.prefix_append _ _)
  simp only [hlabel, if_true, List.drop_left, read_withZeros]
  rfl

theorem argument_truncate : t.truncate.argument = t.argument :=
  rfl

end

theorem argument_eq_iff {a b : DateTime} : a.argument = b.argument ↔ a.truncate = b.truncate := by
  constructor
  · intro h
    have hb := b.ofArgument?_argument
    rw [← h, a.ofArgument?_argument] at hb
    exact Option.some.inj hb
  · intro h
    rw [← a.argument_truncate, h, b.argument_truncate]

theorem truncate_eq_self {t : DateTime} (h : t.IsMinute) : t.truncate = t := by
  obtain ⟨hs, hn⟩ := h
  cases t
  cases hs
  cases hn
  rfl

end DateTime

/-! ## Relays -/

namespace Schedule

theorem isMinute_of_nextAfter {c : Schedule} {t x : DateTime} (h : c.nextAfter t = .ok x) : x.IsMinute :=
  (((nextAfter_isAnswer_inReach c t).ok_iff x).1 h).mem.isMinute

/-- A time that was found is the start of a minute, so its argument gives back all of it. -/
theorem ofArgument?_of_found {c : Schedule} {t : Option DateTime} :
    ((t.bind fun t => (c.nextAfter t).toOption).bind fun x => DateTime.ofArgument? x.argument) =
      t.bind fun t => (c.nextAfter t).toOption := by
  cases t with
  | none => rfl
  | some t =>
    rw [Option.bind_some]
    cases hx : c.nextAfter t with
    | error e => rfl
    | ok x =>
      change DateTime.ofArgument? x.argument = some x
      rw [x.ofArgument?_argument, DateTime.truncate_eq_self (isMinute_of_nextAfter hx)]

theorem relay_eq_finds (c : Schedule) (n : Nat) (t : Option DateTime) : c.relay n t = c.finds n t := by
  induction n generalizing t with
  | zero => rfl
  | succ n ih =>
    change _ :: c.relay n _ = _ :: c.finds n _
    rw [ofArgument?_of_found, ih]

end Schedule

/-- **Printed times.** The label is followed by text that names the minute, and the zeros of the seconds. The form
without seconds does not fit all of that, but the text is read with the zeros and without them. So two times are
printed alike just if they lie in one minute, and runs can hand their times on without losing any. -/
theorem argument_readsBack :
    (∀ t : DateTime, ∃ text, t.argument = "--time=".toList ++ (text ++ ":00".toList) ∧
        DateTime.readForm false (text ++ ":00".toList) = .error .tooLong ∧
        DateTime.read (text ++ ":00".toList) = .ok t.truncate ∧ DateTime.read text = .ok t.truncate) ∧
      (∀ a b : DateTime, a.argument = b.argument ↔ a.truncate = b.truncate) ∧
      ∀ (c : Schedule) (t : DateTime) (n : Nat), c.relay n (some t) = c.upcoming t n := by
  refine ⟨fun t => ?_, fun _ _ => DateTime.argument_eq_iff, fun c t n => c.relay_eq_finds n (some t)⟩
  exact ⟨t.minuteText, List.append_assoc _ _ _, t.readForm_false_withZeros, t.read_withZeros, t.read_minuteText⟩

-- The spelling of years changes after the year 9999, and before the year 0.
example : DateTime.ofArgument? "--time=+10000-01-01T00:00:00".toList =
    some ⟨⟨10000, 1, 1, by decide⟩, 0, 0, 0, 0, by decide⟩ := by
  decide

end CronSchedule
