import CronSchedule.Calendar.Next
import CronSchedule.Proofs.Firing
import CronSchedule.Proofs.Upcoming

/-!
# The searches agree

A search from a time on finds that time if the schedule fires then, and what the search after it finds if not; only in
the last minute of a year do the two look at different years. A later start never gives an earlier answer, and it gives
the same one as long as it lies before it (`searches_agree`).
-/

namespace CronSchedule

namespace Schedule

section
variable {c : Schedule} {a b x y : DateTime}

/-! ## From a time on, and after it -/

theorem isCandidate_truncate (h : c.fires a = true) : c.IsCandidate (Slot.of a) (a.date.year + 2) a.truncate := by
  refine ⟨a.isMinute_truncate, Int.le_refl _, ?_, h⟩
  show a.date.year < a.date.year + 2
  omega

theorem nextFrom_eq_truncate_iff : c.nextFrom a = .ok a.truncate ↔ c.fires a = true := by
  rw [(nextFrom_isAnswer c a).ok_iff]
  constructor
  · intro h
    exact h.mem.fires
  · intro h
    exact ⟨isCandidate_truncate h, fun x hx => Slot.rank_of_le_iff.1 hx.le_rank⟩

theorem exists_rulesOut_of_not_fires (h : ¬ c.fires a = true) : ∃ u, c.verdict (Slot.of a) = .rulesOut u := by
  cases hv : c.verdict (Slot.of a) with
  | fires x => exact absurd ((exists_verdict_eq_fires_iff c a).1 ⟨x, hv⟩) h
  | rulesOut u => exact ⟨u, rfl⟩

theorem nextFrom_eq_nextAfter (h : ¬ c.fires a = true) (hlast : ¬ a.InLastMinuteOfYear) :
    c.nextFrom a = c.nextAfter a := by
  have hyear : (Slot.of a).next.year = a.date.year := (Slot.year_next (Slot.inRange_of a)).trans (if_neg hlast)
  have hafter := nextAfter_isAnswer c a
  obtain ⟨u, hu⟩ := exists_rulesOut_of_not_fires h
  rw [hyear] at hafter
  apply (nextFrom_isAnswer c a).outcome_eq
  exact hafter.congr (isCandidate_next (Slot.inRange_of a) hu)

/-! ## Starts one after the other -/

/-- What is found is the earliest time after the start, also among those that the search cannot come to. -/
theorem le_of_fires (hx : IsEarliest (c.InReach a) x) (hm : y.IsMinute) (hf : c.fires y = true)
    (hay : a.minuteNumber < y.minuteNumber) : x.minuteNumber ≤ y.minuteNumber := by
  by_cases hyx : y.minuteNumber ≤ x.minuteNumber
  · have heq := eq_of_le_earliest hx hm hf hay hyx
    exact Int.le_of_eq (congrArg DateTime.minuteNumber heq.symm)
  · exact Int.le_of_lt (Int.not_le.1 hyx)

theorem InReach.of_le (hx : c.InReach a x) (hab : a.minuteNumber ≤ b.minuteNumber)
    (hbx : b.minuteNumber < x.minuteNumber) : c.InReach b x := by
  have ha := Slot.inRange_of a
  have hb := Slot.inRange_of b
  have hrank := Slot.rank_of_le_iff.2 hab
  have hyear : (Slot.of a).next.year ≤ (Slot.of b).next.year := by
    apply Slot.year_le_of_rank_le ha.next hb.next
    rw [Slot.rank_next ha, Slot.rank_next hb]
    omega
  have hlt := hx.year_lt
  exact ⟨hx.isMinute, hbx, hx.fires, by omega⟩

theorem nextAfter_eq_of_lt (ha : c.nextAfter a = .ok x) (hab : a.minuteNumber ≤ b.minuteNumber)
    (hbx : b.minuteNumber < x.minuteNumber) : c.nextAfter b = .ok x := by
  have hx := ((nextAfter_isAnswer_inReach c a).ok_iff x).1 ha
  rw [(nextAfter_isAnswer_inReach c b).ok_iff]
  refine ⟨hx.mem.of_le hab hbx, fun y hy => ?_⟩
  exact le_of_fires hx hy.isMinute hy.fires (Int.lt_of_le_of_lt hab hy.later)

theorem nextAfter_mono (ha : c.nextAfter a = .ok x) (hb : c.nextAfter b = .ok y)
    (hab : a.minuteNumber ≤ b.minuteNumber) : x ≤ y := by
  have hx := ((nextAfter_isAnswer_inReach c a).ok_iff x).1 ha
  have hy := ((nextAfter_isAnswer_inReach c b).ok_iff y).1 hb
  apply DateTime.le_of_minuteNumber_le hx.mem.isMinute hy.mem.isMinute
  exact le_of_fires hx hy.mem.isMinute hy.mem.fires (Int.lt_of_le_of_lt hab hy.mem.later)

end

/-- **Agreement of the searches.** -/
theorem searches_agree (c : Schedule) {a b : DateTime} (hab : a ≤ b) :
    (c.fires a = true ↔ c.nextFrom a = .ok a.truncate) ∧
      (¬ a.InLastMinuteOfYear →
        c.nextFrom a = if c.fires a = true then .ok a.truncate else c.nextAfter a) ∧
      (∀ x, c.nextAfter a = .ok x → b < x → c.nextAfter b = .ok x) ∧
      ∀ x y, c.nextAfter a = .ok x → c.nextAfter b = .ok y → x ≤ y := by
  have hminutes := DateTime.minuteNumber_le_of_le hab
  refine ⟨nextFrom_eq_truncate_iff.symm, fun hlast => ?_, fun x hx hbx => ?_, fun x y hx hy => ?_⟩
  · by_cases hf : c.fires a = true
    · rw [if_pos hf]
      exact nextFrom_eq_truncate_iff.2 hf
    · rw [if_neg hf]
      exact nextFrom_eq_nextAfter hf hlast
  · have hmem := ((nextAfter_isAnswer_inReach c a).ok_iff x).1 hx
    exact nextAfter_eq_of_lt hx hminutes ((DateTime.lt_iff_of_isMinute hmem.mem.isMinute).1 hbx)
  · exact nextAfter_mono hx hy hminutes

-- From the last seconds of February, one of them a leap second, past three days that the month does not have.
theorem searches_agree_february :
    let c : Schedule := ⟨.ofList [0], .ofList [0], .full .dayOfMonth, .full .month, .full .dayOfWeek, true, true⟩
    let a : DateTime := ⟨⟨2023, 2, 28, by decide⟩, 23, 59, 30, 0, by decide⟩
    let b : DateTime := ⟨⟨2023, 2, 28, by decide⟩, 23, 59, 59, 1500000000, by decide⟩
    let x : DateTime := ⟨⟨2023, 3, 1, by decide⟩, 0, 0, 0, 0, by decide⟩
    a ≤ b ∧ b < x ∧ ¬ a.InLastMinuteOfYear ∧ c.fires a = false ∧ c.nextFrom a = .ok x ∧ c.nextAfter a = .ok x ∧
      c.nextAfter b = .ok x := by
  intro c a b x
  have hab : a ≤ b := Or.inl (DateTime.lt_iff.2 (by decide))
  have hbx : b < x := DateTime.lt_iff.2 (by decide)
  have hlast : ¬ a.InLastMinuteOfYear := by decide
  have hx : c.nextAfter a = .ok x := by
    show (c.search a ⟨2023, 2, 29, 0, 0⟩).outcome = _
    have hb : (2023 : Int) < 2025 := by decide
    rw [outcome_search, walk_of_rulesOut (u := .day) hb (by decide), walk_of_rulesOut (u := .day) hb (by decide),
      walk_of_rulesOut (u := .day) hb (by decide), walk_of_fires (t := x) hb (by decide)]
  have hf : c.fires a = false := by decide
  obtain ⟨-, hfrom, hlater, -⟩ := searches_agree c hab
  have hfrom := hfrom hlast
  rw [hf, if_neg Bool.false_ne_true, hx] at hfrom
  exact ⟨hab, hbx, hlast, hf, hfrom, hx, hlater x hx hbx⟩

end Schedule

end CronSchedule
