import CronSchedule.Proofs.CalendarOrder
import CronSchedule.Proofs.ReadSchedule

/-!
# The day rule

A starred day field leaves the days to the other one. Of two starred ones it is the weekday field that does so, and
what stands behind its star has no say: with a plain star for the day of month, `*/2` for the weekday means every day
(`plainStar_overruled`). In all other cases a plain star makes the other day field decide (`fires_iff_of_plainStar`).
-/

namespace CronSchedule

theorem mem_iff_of_expand_star {f : Field} {S : ValueSet} (h : expand f ['*'] = .ok S) (v : Nat) :
    v ∈ S ↔ f.min ≤ v ∧ v ≤ f.max := by
  have hs : List.Forall₂ (Spells f) (pieces ['*']) [.every 1] := .cons .star .nil
  have hS : expand f ['*'] = .ok (valuesOf f [.every 1]) := expand_eq_ok_iff.2 ⟨_, hs, rfl⟩
  cases h.symm.trans hS
  rw [mem_valuesOf_iff_contains hs]
  simp only [List.mem_singleton, exists_eq_left, Term.Contains, Nat.mul_one]
  constructor
  · intro hv
    obtain ⟨hle, i, rfl⟩ := hv
    exact ⟨Nat.le_add_right _ _, hle⟩
  · intro hv
    exact ⟨hv.2, v - f.min, by omega⟩

namespace Schedule

section
variable {c : Schedule} {d : Date}

theorem hasWeekday_iff :
    c.hasWeekday d = true ↔ d.weekday ∈ c.daysOfWeek ∨ d.weekday = 0 ∧ 7 ∈ c.daysOfWeek := by
  simp only [hasWeekday, Bool.or_eq_true, Bool.and_eq_true, decide_eq_true_eq, beq_iff_eq]

theorem hasWeekday_of_mem {w : Nat} (hw : w ∈ c.daysOfWeek) (hw' : w ≤ 7) (hd : d.weekday = w % 7) :
    c.hasWeekday d = true := by
  rw [hasWeekday_iff]
  by_cases h : w < 7
  · rw [Nat.mod_eq_of_lt h] at hd
    exact Or.inl (hd ▸ hw)
  · have : w = 7 := by omega
    subst this
    exact Or.inr ⟨hd, hw⟩

theorem firesOn_iff_of_dayOfWeekStarred (h : c.dayOfWeekStarred = true) :
    c.firesOn d = true ↔ d.day ∈ c.daysOfMonth := by
  simp [firesOn, h]

theorem firesOn_iff_of_dayOfMonthStarred (h : c.dayOfMonthStarred = true) (h' : c.dayOfWeekStarred = false) :
    c.firesOn d = true ↔ c.hasWeekday d = true := by
  simp [firesOn, h, h']

theorem firesOn_iff_of_unstarred (h : c.dayOfMonthStarred = false) (h' : c.dayOfWeekStarred = false) :
    c.firesOn d = true ↔ d.day ∈ c.daysOfMonth ∨ c.hasWeekday d = true := by
  simp [firesOn, h, h']

theorem firesOn_of_hasWeekday (h : c.dayOfWeekStarred = false) (hd : c.hasWeekday d = true) : c.firesOn d = true := by
  simp [firesOn, h, hd]

end

/-- **Plain stars.** At a minute, an hour and a month of the schedule, a plain star in one day field leaves it to the
other one whether the schedule fires, except that a weekday field with a star of its own lets every day pass. -/
theorem fires_iff_of_plainStar {texts : Field → List Char} {c : Schedule}
    (h : ofFields (Field.all.map texts) = .ok c) {t : DateTime} (hminute : t.minute ∈ c.minutes)
    (hhour : t.hour ∈ c.hours) (hmonth : t.date.month ∈ c.months) :
    (texts .dayOfMonth = ['*'] →
        ((trim (texts .dayOfWeek)).head? ≠ some '*' → ∀ S, expand .dayOfWeek (texts .dayOfWeek) = .ok S →
          (c.fires t = true ↔ t.date.weekday ∈ S ∨ t.date.weekday = 0 ∧ 7 ∈ S)) ∧
        ((trim (texts .dayOfWeek)).head? = some '*' → c.fires t = true)) ∧
      (texts .dayOfWeek = ['*'] → ∀ S, expand .dayOfMonth (texts .dayOfMonth) = .ok S →
        (c.fires t = true ↔ t.date.day ∈ S)) := by
  obtain ⟨hf, hdom, hdow⟩ := (ofFields_map_eq_ok_iff texts).1 h
  have hfires : c.fires t = true ↔ c.firesOn t.date = true := by
    rw [fires_iff]
    simp [hminute, hhour, hmonth]
  rw [hfires]
  refine ⟨fun hstar => ⟨fun hn S hS => ?_, fun hs => ?_⟩, fun hstar S hS => ?_⟩
  · have hstarred : c.dayOfMonthStarred = true := by
      rw [hdom, hstar]
      rfl
    have hplain : c.dayOfWeekStarred = false := by
      rw [hdow, Bool.eq_false_iff]
      exact mt isStarred_iff.1 hn
    cases (hf .dayOfWeek).symm.trans hS
    rw [firesOn_iff_of_dayOfMonthStarred hstarred hplain]
    exact hasWeekday_iff
  · have hstarred : c.dayOfWeekStarred = true := by
      rw [hdow]
      exact isStarred_iff.2 hs
    have hdays := hf .dayOfMonth
    rw [hstar] at hdays
    rw [firesOn_iff_of_dayOfWeekStarred hstarred]
    exact (mem_iff_of_expand_star hdays _).2 ⟨t.date.one_le_day, t.date.day_le⟩
  · have hstarred : c.dayOfWeekStarred = true := by
      rw [hdow, hstar]
      rfl
    cases (hf .dayOfMonth).symm.trans hS
    exact firesOn_iff_of_dayOfWeekStarred hstarred

-- 3 June 2024 is a Monday, and every other day from Sunday on is meant to leave it out.
theorem fires_iff_of_plainStar_monday :
    let texts := assign "0".toList "0".toList "*".toList "*".toList "0-6/2".toList
    let c : Schedule := ⟨.ofList [0], .ofList [0], .full .dayOfMonth, .full .month, .ofList [0, 2, 4, 6], true, false⟩
    let t : DateTime := ⟨⟨2024, 6, 3, by decide⟩, 0, 0, 0, 0, by decide⟩
    ofFields (Field.all.map texts) = .ok c ∧ expand .dayOfWeek (texts .dayOfWeek) = .ok (.ofList [0, 2, 4, 6]) ∧
      (t.minute ∈ c.minutes ∧ t.hour ∈ c.hours ∧ t.date.month ∈ c.months) ∧ c.fires t = false := by
  intro texts c t
  have hc : ofFields (Field.all.map texts) = .ok c := by decide +kernel
  have hS : expand .dayOfWeek (texts .dayOfWeek) = .ok (.ofList [0, 2, 4, 6]) := by decide +kernel
  refine ⟨hc, hS, by decide, ?_⟩
  have hiff := ((fires_iff_of_plainStar hc (t := t) (by decide) (by decide) (by decide)).1 rfl).1 (by decide) _ hS
  exact Bool.eq_false_iff.mpr (mt hiff.1 (by decide))

/-- The star of `*/2` takes the choice away from the weekdays, and the plain star does not get it back. -/
theorem plainStar_overruled :
    let texts := assign "0".toList "0".toList "*".toList "*".toList "*/2".toList
    let t : DateTime := ⟨⟨2024, 6, 3, by decide⟩, 0, 0, 0, 0, by decide⟩
    ∃ c S, ofFields (Field.all.map texts) = .ok c ∧ expand .dayOfWeek (texts .dayOfWeek) = .ok S ∧
      (t.minute ∈ c.minutes ∧ t.hour ∈ c.hours ∧ t.date.month ∈ c.months) ∧ c.fires t = true ∧
      ¬ (t.date.weekday ∈ S ∨ t.date.weekday = 0 ∧ 7 ∈ S) := by
  intro texts t
  have hc : ofFields (Field.all.map texts) =
      .ok ⟨.ofList [0], .ofList [0], .full .dayOfMonth, .full .month, .ofList [0, 2, 4, 6], true, true⟩ := by
    decide +kernel
  have hS : expand .dayOfWeek (texts .dayOfWeek) = .ok (.ofList [0, 2, 4, 6]) := by decide +kernel
  exact ⟨_, _, hc, hS, by decide, by decide, by decide⟩

end Schedule

end CronSchedule
