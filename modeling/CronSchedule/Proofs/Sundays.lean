import CronSchedule.Proofs.Comparison
import CronSchedule.Proofs.DayRule

/-!
# The two numbers of Sunday

Sunday is 0 and 7, and a set of weekdays keeps the number that was written. It makes no difference: a weekday is among
the values just if it is one of them after 7 has become 0 (`hasWeekday_iff_mem`). So schedules that are the same but for
the number of their Sundays are not equal, but nothing that they answer tells them apart (`ofFields_sundays`).
-/

namespace CronSchedule

namespace ValueSet

/-- The same weekdays, with Sunday as 0. -/
def withSundayZero (S : ValueSet) : ValueSet :=
  .ofList (S.toList.map fun v => if v = 7 then 0 else v)

theorem mem_withSundayZero {S : ValueSet} {v : Nat} : v ∈ S.withSundayZero ↔ v ∈ S ∧ v ≠ 7 ∨ v = 0 ∧ 7 ∈ S := by
  unfold withSundayZero
  rw [mem_ofList, List.mem_map]
  constructor
  · rintro ⟨⟨w, hw, rfl⟩, -⟩
    rw [mem_toList] at hw
    by_cases h : w = 7
    · subst h
      exact Or.inr ⟨rfl, hw⟩
    · rw [if_neg h]
      exact Or.inl ⟨hw, h⟩
  · rintro (⟨h, hne⟩ | ⟨rfl, h⟩)
    · exact ⟨⟨v, mem_toList.2 h, if_neg hne⟩, lt_of_mem h⟩
    · exact ⟨⟨7, mem_toList.2 h, rfl⟩, by decide⟩

end ValueSet

namespace Schedule

section
variable {c c' : Schedule}

theorem hasWeekday_iff_mem {d : Date} : c.hasWeekday d = true ↔ d.weekday ∈ c.daysOfWeek.withSundayZero := by
  have hne : d.weekday ≠ 7 := Nat.ne_of_lt d.weekday_lt
  rw [hasWeekday_iff, ValueSet.mem_withSundayZero]
  simp [hne]

section
variable (hv : ∀ f, f ≠ .dayOfWeek → c.values f = c'.values f) (hm : c.dayOfMonthStarred = c'.dayOfMonthStarred)
  (hw : c.dayOfWeekStarred = c'.dayOfWeekStarred) (hS : c.daysOfWeek.withSundayZero = c'.daysOfWeek.withSundayZero)
include hv hm hw hS

theorem firesOn_eq_of_sundays (d : Date) : c.firesOn d = c'.firesOn d := by
  have hdays : c.daysOfMonth = c'.daysOfMonth := hv .dayOfMonth (by decide)
  have hweek : c.hasWeekday d = c'.hasWeekday d := by
    rw [Bool.eq_iff_iff, hasWeekday_iff_mem, hasWeekday_iff_mem, hS]
  unfold firesOn
  rw [hdays, hweek, hm, hw]

theorem fires_eq_of_sundays (t : DateTime) : c.fires t = c'.fires t := by
  have hminutes : c.minutes = c'.minutes := hv .minute (by decide)
  have hhours : c.hours = c'.hours := hv .hour (by decide)
  have hmonths : c.months = c'.months := hv .month (by decide)
  unfold fires
  rw [hminutes, hhours, hmonths, firesOn_eq_of_sundays hv hm hw hS]

end

end

/-- **Sundays.** Two weekday expressions without a star in front, with the same values once 7 has become 0, give
schedules that fire at the same times, and all searches with them end alike. -/
theorem ofFields_sundays {texts : Field → List Char} (hv : ∀ f, f ≠ .dayOfWeek → ∃ S, expand f (texts f) = .ok S)
    {d d' : List Char} {S S' : ValueSet} (hd : expand .dayOfWeek d = .ok S) (hd' : expand .dayOfWeek d' = .ok S')
    (hstar : (trim d).head? ≠ some '*') (hstar' : (trim d').head? ≠ some '*')
    (hS : S.withSundayZero = S'.withSundayZero) :
    ∃ c c', ofFields (Field.all.map (Function.update texts .dayOfWeek d)) = .ok c ∧
      ofFields (Field.all.map (Function.update texts .dayOfWeek d')) = .ok c' ∧
      (∀ t, c.fires t = c'.fires t) ∧ (∀ now, c.nextAfter now = c'.nextAfter now) ∧
      (∀ now, c.nextFrom now = c'.nextFrom now) ∧ ∀ now n, c.upcoming now n = c'.upcoming now n := by
  obtain ⟨c, hc, hweek, hvalues, hm, hw⟩ := exists_ofFields_update hv hd
  obtain ⟨c', hc', hweek', hvalues', hm', hw'⟩ := exists_ofFields_update hv hd'
  have hsame : ∀ f, f ≠ .dayOfWeek → c.values f = c'.values f := fun f hf =>
    Except.ok.inj ((hvalues f hf).symm.trans (hvalues' f hf))
  rw [Function.update_self, Bool.eq_false_iff.2 (mt isStarred_iff.1 hstar)] at hw
  rw [Function.update_self, Bool.eq_false_iff.2 (mt isStarred_iff.1 hstar')] at hw'
  rw [← hweek, ← hweek'] at hS
  have hfires := fires_eq_of_sundays hsame (hm.trans hm'.symm) (hw.trans hw'.symm) hS
  exact ⟨c, c', hc, hc', hfires, fun _ => nextAfter_congr hfires, fun _ => nextFrom_congr hfires,
    fun now n => finds_congr hfires n (some now)⟩

-- The end of the range is a Sunday written as 7, the list has it as 0, and the two schedules are not equal.
theorem ofFields_sundays_weekend :
    let texts := assign "0".toList "0".toList "13".toList "*".toList "*".toList
    let d := "fri-sun".toList
    let d' := "5,6,0".toList
    (∀ f, f ≠ .dayOfWeek → ∃ S, expand f (texts f) = .ok S) ∧ expand .dayOfWeek d = .ok (.ofList [5, 6, 7]) ∧
      expand .dayOfWeek d' = .ok (.ofList [0, 5, 6]) ∧
      (ValueSet.ofList [5, 6, 7]).withSundayZero = (ValueSet.ofList [0, 5, 6]).withSundayZero ∧
      ∃ c c', ofFields (Field.all.map (Function.update texts .dayOfWeek d)) = .ok c ∧
        ofFields (Field.all.map (Function.update texts .dayOfWeek d')) = .ok c' ∧ c ≠ c' ∧
        (∀ t, c.fires t = c'.fires t) ∧ ∀ now, c.nextAfter now = c'.nextAfter now := by
  intro texts d d'
  have hread : ofFields (Field.all.map texts) =
      .ok ⟨.ofList [0], .ofList [0], .ofList [13], .full .month, .full .dayOfWeek, false, true⟩ := by
    decide +kernel
  have hv : ∀ f, f ≠ .dayOfWeek → ∃ S, expand f (texts f) = .ok S := fun f _ =>
    ⟨_, ((ofFields_map_eq_ok_iff texts).1 hread).1 f⟩
  have hd : expand .dayOfWeek d = .ok (.ofList [5, 6, 7]) := by decide +kernel
  have hd' : expand .dayOfWeek d' = .ok (.ofList [0, 5, 6]) := by decide +kernel
  have hS : (ValueSet.ofList [5, 6, 7]).withSundayZero = (ValueSet.ofList [0, 5, 6]).withSundayZero := by decide +kernel
  obtain ⟨c, c', hc, hc', hfires, hafter, -⟩ := ofFields_sundays hv hd hd' (by decide) (by decide) hS
  refine ⟨hv, hd, hd', hS, c, c', hc, hc', fun heq => ?_, hfires, hafter⟩
  have hsame := hc.trans (heq ▸ hc'.symm)
  exact absurd hsame (by decide +kernel)

end Schedule

end CronSchedule
