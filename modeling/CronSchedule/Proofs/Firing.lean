import CronSchedule.Proofs.DayRule
import CronSchedule.Proofs.SearchRefinement
import CronSchedule.Schedule.Meaning

/-!
# Schedules fire as their texts say

A text spells one term at most, so the set that an expression expands to holds just the values that it stands for
(`mem_iff_standsFor`). The verdict on the slot of a time asks for the parts of a time in an order of its own, but comes
to the same as `fires` (`exists_verdict_eq_fires_iff`), and both say what the five texts mean (`fires_iff_meansTime`).
-/

namespace CronSchedule

section
variable {f : Field} {v : Nat}

theorem Spells.unique {text : List Char} {t t' : Term} (h : Spells f text t) (h' : Spells f text t') : t = t' :=
  Except.ok.inj ((read_of_spells h).symm.trans (read_of_spells h'))

theorem exists_contains_iff {texts : List (List Char)} {terms : List Term}
    (h : List.Forall₂ (Spells f) texts terms) :
    (∃ t ∈ terms, t.Contains f v) ↔ ∃ text ∈ texts, ∃ t, Spells f text t ∧ t.Contains f v := by
  induction h with
  | nil => simp
  | @cons text t texts terms hs _ ih =>
    have hhead : t.Contains f v ↔ ∃ t', Spells f text t' ∧ t'.Contains f v := by
      constructor
      · intro hc
        exact ⟨t, hs, hc⟩
      · rintro ⟨t', hs', hc⟩
        rw [hs.unique hs']
        exact hc
    rw [List.exists_mem_cons_iff, List.exists_mem_cons_iff, ih, hhead]

theorem mem_iff_standsFor {s : List Char} {S : ValueSet} (h : expand f s = .ok S) : v ∈ S ↔ StandsFor f s v := by
  obtain ⟨terms, hs, rfl⟩ := expand_eq_ok_iff.1 h
  rw [mem_valuesOf_iff_contains hs]
  exact exists_contains_iff hs

end

namespace Schedule

section
variable {c : Schedule} {texts : Field → List Char}

theorem hasWeekday_iff_meansWeekday (h : expand .dayOfWeek (texts .dayOfWeek) = .ok c.daysOfWeek) (d : Date) :
    c.hasWeekday d = true ↔ MeansWeekday (texts .dayOfWeek) d := by
  rw [hasWeekday_iff, mem_iff_standsFor h, mem_iff_standsFor h]
  exact Iff.rfl

theorem firesOn_iff_meansDay (h : ofFields (Field.all.map texts) = .ok c) (d : Date) :
    c.firesOn d = true ↔ MeansDay (texts .dayOfMonth) (texts .dayOfWeek) d := by
  obtain ⟨hf, hdom, hdow⟩ := (ofFields_map_eq_ok_iff texts).1 h
  have hday : d.day ∈ c.daysOfMonth ↔ StandsFor .dayOfMonth (texts .dayOfMonth) d.day := mem_iff_standsFor (hf .dayOfMonth)
  have hweek := hasWeekday_iff_meansWeekday (hf .dayOfWeek) d
  unfold firesOn MeansDay
  rw [hdom, hdow]
  simp only [← isStarred_iff, ← hday, ← hweek]
  split
  · exact decide_eq_true_iff
  split
  · exact Iff.rfl
  · rw [Bool.or_eq_true, decide_eq_true_eq]

/-- The order in which a verdict asks for the parts of a time makes no difference to whether it fires. -/
theorem exists_verdict_eq_fires_iff (c : Schedule) (t : DateTime) :
    (∃ x, c.verdict (Slot.of t) = .fires x) ↔ c.fires t = true := by
  have ht := Slot.time?_of t
  constructor
  · rintro ⟨x, hx⟩
    obtain ⟨hs, hf⟩ := verdict_eq_fires_iff.1 hx
    cases Option.some.inj (ht.symm.trans hs)
    exact hf
  · intro hf
    exact ⟨t.truncate, verdict_eq_fires_iff.2 ⟨ht, hf⟩⟩

end

/-- **Meaning of a schedule.** A schedule that was read fires at the times that its texts mean, and so do the verdicts
of its searches. -/
theorem fires_iff_meansTime {c : Schedule} {texts : Field → List Char} (h : ofFields (Field.all.map texts) = .ok c)
    (t : DateTime) :
    (c.fires t = true ↔ MeansTime texts t) ∧ ((∃ x, c.verdict (Slot.of t) = .fires x) ↔ MeansTime texts t) := by
  have hf := ((ofFields_map_eq_ok_iff texts).1 h).1
  have hmonth : t.date.month ∈ c.months ↔ _ := mem_iff_standsFor (hf .month)
  have hhour : t.hour ∈ c.hours ↔ _ := mem_iff_standsFor (hf .hour)
  have hminute : t.minute ∈ c.minutes ↔ _ := mem_iff_standsFor (hf .minute)
  have hfires : c.fires t = true ↔ MeansTime texts t := by
    rw [fires_iff, hmonth, hhour, hminute, firesOn_iff_meansDay h]
    constructor
    · rintro ⟨hm, hd, hh, hmi⟩
      exact ⟨hmi, hh, hm, hd⟩
    · rintro ⟨hmi, hh, hm, hd⟩
      exact ⟨hm, hd, hh, hmi⟩
  exact ⟨hfires, (exists_verdict_eq_fires_iff c t).trans hfires⟩

-- The day of month has a star in front, so the weekday decides, and the range ends with the Sunday that is 7.
theorem fires_iff_meansTime_sunday :
    let texts := assign "0".toList "12".toList "*,5".toList "FEB".toList " fri-sun".toList
    let c : Schedule := ⟨.ofList [0], .ofList [12], .full .dayOfMonth, .ofList [2], .ofList [5, 6, 7], true, false⟩
    let t : DateTime := ⟨⟨2024, 2, 25, by decide⟩, 12, 0, 30, 0, by decide⟩
    ofFields (Field.all.map texts) = .ok c ∧ c.fires t = true ∧ MeansTime texts t := by
  intro texts c t
  have hc : ofFields (Field.all.map texts) = .ok c := by decide +kernel
  have hf : c.fires t = true := by decide
  exact ⟨hc, hf, (fires_iff_meansTime hc t).1.1 hf⟩

end Schedule

end CronSchedule
