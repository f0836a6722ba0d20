import Mathlib.Logic.Function.Basic
import CronSchedule.Proofs.Expansion
import CronSchedule.Schedule.Reading

/-!
# Schedules that were read

Reading gives each field the values of its expression and keeps which day fields were starred
(`ofFields_map_eq_ok_iff`). In a schedule that was read no field is without values, and all values are in range
(`wellFormed_of_ofFields`).
-/

namespace CronSchedule

namespace Schedule

structure WellFormed (c : Schedule) : Prop where
  exists_mem : ∀ f, ∃ v, v ∈ c.values f
  mem_range : ∀ f v, v ∈ c.values f → f.min ≤ v ∧ v ≤ f.max

namespace WellFormed

variable {c : Schedule}

theorem hour_lt (hc : c.WellFormed) {h : Nat} (hh : h ∈ c.hours) : h < 24 :=
  Nat.lt_succ_of_le (hc.mem_range .hour h hh).2

theorem minute_lt (hc : c.WellFormed) {m : Nat} (hm : m ∈ c.minutes) : m < 60 :=
  Nat.lt_succ_of_le (hc.mem_range .minute m hm).2

theorem month_mem_range (hc : c.WellFormed) {m : Nat} (hm : m ∈ c.months) : 1 ≤ m ∧ m ≤ 12 :=
  hc.mem_range .month m hm

end WellFormed

def assign (minute hour dayOfMonth month dayOfWeek : List Char) : Field → List Char
  | .minute => minute
  | .hour => hour
  | .dayOfMonth => dayOfMonth
  | .month => month
  | .dayOfWeek => dayOfWeek

section
variable {c : Schedule} {expressions : List (List Char)}

theorem ofFields_map_eq_ok_iff (texts : Field → List Char) :
    ofFields (Field.all.map texts) = .ok c ↔
      (∀ f, expand f (texts f) = .ok (c.values f)) ∧ c.dayOfMonthStarred = isStarred (texts .dayOfMonth) ∧
        c.dayOfWeekStarred = isStarred (texts .dayOfWeek) := by
  have hmap : Field.all.map texts = [texts .minute, texts .hour, texts .dayOfMonth, texts .month, texts .dayOfWeek] :=
    rfl
  rw [hmap, ofFields_five]
  refine ⟨fun h => ?_, fun h => ?_⟩
  · have h := ok_of_mapError_eq_ok h
    simp only [bind_eq_ok_iff] at h
    obtain ⟨minutes, hmi, hours, hh, daysOfMonth, hd, months, hm, daysOfWeek, hw, h⟩ := h
    cases h
    refine ⟨fun f => ?_, rfl, rfl⟩
    cases f <;> assumption
  · obtain ⟨hf, hd, hw⟩ := h
    rw [hf .minute, hf .hour, hf .dayOfMonth, hf .month, hf .dayOfWeek, ← hd, ← hw]
    rfl

theorem exists_ofFields_of_expand {texts : Field → List Char} (h : ∀ f, ∃ S, expand f (texts f) = .ok S) :
    ∃ c, ofFields (Field.all.map texts) = .ok c := by
  choose S hS using h
  let c : Schedule := ⟨S .minute, S .hour, S .dayOfMonth, S .month, S .dayOfWeek, isStarred (texts .dayOfMonth),
    isStarred (texts .dayOfWeek)⟩
  refine ⟨c, (ofFields_map_eq_ok_iff texts).2 ⟨fun f => ?_, rfl, rfl⟩⟩
  rw [hS f]
  cases f <;> rfl

/-- With another expression in one field, a schedule is read that has its values there and the old ones elsewhere. -/
theorem exists_ofFields_update {texts : Field → List Char} {f : Field} {e : List Char} {S : ValueSet}
    (h : ∀ g, g ≠ f → ∃ S, expand g (texts g) = .ok S) (he : expand f e = .ok S) :
    ∃ c, ofFields (Field.all.map (Function.update texts f e)) = .ok c ∧ c.values f = S ∧
      (∀ g, g ≠ f → expand g (texts g) = .ok (c.values g)) ∧
      c.dayOfMonthStarred = isStarred (Function.update texts f e .dayOfMonth) ∧
      c.dayOfWeekStarred = isStarred (Function.update texts f e .dayOfWeek) := by
  have hexpand : ∀ g, ∃ S, expand g (Function.update texts f e g) = .ok S := by
    intro g
    by_cases hg : g = f
    · subst hg
      rw [Function.update_self]
      exact ⟨S, he⟩
    · rw [Function.update_of_ne hg]
      exact h g hg
  obtain ⟨c, hc⟩ := exists_ofFields_of_expand hexpand
  obtain ⟨hvalues, hm, hw⟩ := (ofFields_map_eq_ok_iff _).1 hc
  refine ⟨c, hc, ?_, fun g hg => ?_, hm, hw⟩
  · have hfield := hvalues f
    rw [Function.update_self] at hfield
    exact Except.ok.inj (hfield.symm.trans he)
  · have hfield := hvalues g
    rw [Function.update_of_ne hg] at hfield
    exact hfield

theorem exists_texts_of_ofFields (h : ofFields expressions = .ok c) :
    ∃ texts : Field → List Char, Field.all.map texts = expressions := by
  by_cases hl : expressions.length = 5
  · match expressions, hl with
    | [minute, hour, dayOfMonth, month, dayOfWeek], _ =>
      exact ⟨assign minute hour dayOfMonth month dayOfWeek, rfl⟩
  · rw [ofFields_of_length_ne hl] at h
    cases h

theorem wellFormed_of_ofFields (h : ofFields expressions = .ok c) : c.WellFormed := by
  obtain ⟨texts, rfl⟩ := exists_texts_of_ofFields h
  have hf := ((ofFields_map_eq_ok_iff texts).1 h).1
  exact ⟨fun f => exists_mem_of_expand (hf f), fun f v hv => mem_range_of_expand (hf f) hv⟩

end

end Schedule

end CronSchedule
