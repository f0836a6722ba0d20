import CronSchedule.Proofs.SlotOrder
import CronSchedule.Schedule.MinuteWalk

/-!
# Larger steps lose nothing

A verdict names the largest unit that is to blame, and the reason holds of every slot of that unit
(`verdict_of_endOf_eq`). A search that goes on after the unit therefore gives the answer of the one that looks
at each minute (`search_eq_searchByMinute`).
-/

namespace CronSchedule

namespace Schedule

/-! ## Why a unit is ruled out -/

def RulesOut (c : Schedule) (s : Slot) : TimeUnit → Prop
  | .month => s.month ∉ c.months
  | .day => s.month ∈ c.months ∧ ∀ d, s.date? = some d → c.firesOn d = false
  | .hour => s.month ∈ c.months ∧ (∃ d, s.date? = some d ∧ c.firesOn d = true) ∧ s.hour ∉ c.hours
  | .minute =>
    s.month ∈ c.months ∧ (∃ d, s.date? = some d ∧ c.firesOn d = true) ∧ s.hour ∈ c.hours ∧
      (s.minute ∈ c.minutes → ¬ IsTimeOfDay s.hour s.minute 0 0)

section
variable {c : Schedule} {s x : Slot}

theorem verdict_eq_rulesOut_iff {u : TimeUnit} : c.verdict s = .rulesOut u ↔ c.RulesOut s u := by
  unfold verdict
  by_cases hm : s.month ∈ c.months
  · cases hd : s.date? with
    | none => cases u <;> simp [RulesOut, hm, hd]
    | some d =>
      by_cases hf : c.firesOn d = true
      · by_cases hh : s.hour ∈ c.hours
        · by_cases hmi : s.minute ∈ c.minutes
          · by_cases ht : IsTimeOfDay s.hour s.minute 0 0
            · cases u <;> simp [RulesOut, hm, hd, hf, hh, hmi, ht, DateTime.ofParts?]
            · cases u <;> simp [RulesOut, hm, hd, hf, hh, hmi, ht, DateTime.ofParts?]
          · cases u <;> simp [RulesOut, hm, hd, hf, hh, hmi]
        · cases u <;> simp [RulesOut, hm, hd, hf, hh]
      · cases u <;> simp [RulesOut, hm, hd, hf]
  · cases u <;> simp [RulesOut, hm]

theorem date?_of_time? {t : DateTime} (h : s.time? = some t) : s.date? = some t.date := by
  obtain ⟨rfl, -⟩ := Slot.time?_eq_some_iff.1 h
  exact Date.ofParts?_eq_some_iff.2 ⟨rfl, rfl, rfl⟩

theorem fires_iff_of_time? {t : DateTime} (h : s.time? = some t) :
    c.fires t = true ↔
      s.month ∈ c.months ∧ c.firesOn t.date = true ∧ s.hour ∈ c.hours ∧ s.minute ∈ c.minutes := by
  obtain ⟨rfl, -⟩ := Slot.time?_eq_some_iff.1 h
  exact fires_iff

theorem not_fires_of_rulesOut {t : DateTime} {u : TimeUnit} (h : c.RulesOut s u) (ht : s.time? = some t) :
    c.fires t = false := by
  refine Bool.eq_false_iff.mpr fun hf => ?_
  obtain ⟨hm, hd, hh, hmi⟩ := (fires_iff_of_time? ht).1 hf
  cases u with
  | month => exact h hm
  | day => exact absurd hd (Bool.eq_false_iff.mp (h.2 _ (date?_of_time? ht)))
  | hour => exact h.2.2 hh
  | minute =>
    obtain ⟨rfl, -⟩ := Slot.time?_eq_some_iff.1 ht
    exact h.2.2.2 hmi (isTimeOfDay_minute t.isTimeOfDay.1 t.isTimeOfDay.2.1)

theorem fires_of_verdict {t : DateTime} (h : c.verdict s = .fires t) : s.time? = some t ∧ c.fires t = true := by
  unfold verdict at h
  split at h
  · cases h
  rename_i hm
  split at h
  · cases h
  rename_i d hd
  split at h
  · cases h
  rename_i hf
  split at h
  · cases h
  rename_i hh
  split at h
  · cases h
  rename_i hmi
  split at h
  · rename_i ht
    cases h
    have hs : s.time? = some t := by simp [Slot.time?, hd, ht]
    have hdate : d = t.date := Option.some.inj (hd.symm.trans (date?_of_time? hs))
    refine ⟨hs, (fires_iff_of_time? hs).2 ⟨Classical.not_not.mp hm, ?_, Classical.not_not.mp hh, ?_⟩⟩
    · rw [← hdate]
      simpa using hf
    · exact Classical.not_not.mp hmi
  · cases h

/-- A slot passes if a time fills it at which the schedule fires. -/
theorem verdict_eq_fires_iff {t : DateTime} : c.verdict s = .fires t ↔ s.time? = some t ∧ c.fires t = true := by
  refine ⟨fires_of_verdict, fun h => ?_⟩
  cases hv : c.verdict s with
  | fires t' => rw [Option.some.inj ((fires_of_verdict hv).1.symm.trans h.1)]
  | rulesOut u =>
    have := not_fires_of_rulesOut (verdict_eq_rulesOut_iff.1 hv) h.1
    rw [h.2] at this
    cases this

/-- All slots of a ruled out unit are ruled out for the same reason. -/
theorem verdict_of_endOf_eq {u : TimeUnit} (hx : x.endOf u = s.endOf u) (h : c.verdict s = .rulesOut u) :
    c.verdict x = .rulesOut u := by
  rw [verdict_eq_rulesOut_iff] at h ⊢
  cases u <;> simp only [Slot.endOf, Slot.mk.injEq, and_true] at hx
  case minute => exact hx ▸ h
  all_goals simp only [RulesOut, Slot.date?, hx] at h ⊢
  case hour => exact h
  case day => exact h
  case month => exact h

end

/-! ## The two searches -/

section
variable {c : Schedule} {bound : Int} {s : Slot}

theorem firstFiring?_eq_of_rejected {x : Slot} (hs : s.InRange) (hx : x.InRange) (h : s.rank ≤ x.rank)
    (hr : ∀ y : Slot, y.InRange → s.rank ≤ y.rank → y.rank < x.rank →
      y.year < bound ∧ ∃ u, c.verdict y = .rulesOut u) :
    c.firstFiring? bound s = c.firstFiring? bound x := by
  -- by induction on the number of slots from `s` to `x`
  obtain ⟨n, hn⟩ := Int.le.dest h
  induction n generalizing s with
  | zero => rw [Slot.rank_inj hs hx (by omega)]
  | succ n ih =>
    obtain ⟨hy, u, hu⟩ := hr s hs (Int.le_refl _) (by omega)
    have hnext := Slot.rank_next hs
    rw [firstFiring?_of_rulesOut hy hu]
    exact ih hs.next (by omega) (fun y hy hsy => hr y hy (by omega)) (by omega)

theorem firstFiring?_after {u : TimeUnit} (hs : s.InRange) (hb : s.year < bound) (h : c.verdict s = .rulesOut u) :
    c.firstFiring? bound s = c.firstFiring? bound (s.after u) := by
  have hle := Slot.rank_le_rank_endOf hs u
  have hafter := Slot.rank_after hs u
  refine firstFiring?_eq_of_rejected hs (hs.after u) (by omega) fun y hy hsy hyx => ?_
  have hend := Slot.endOf_eq_of_rank_le hs hy hsy (show y.rank ≤ (s.endOf u).rank by omega)
  have hyear : y.year = s.year := by
    rw [← Slot.year_endOf y u, hend, Slot.year_endOf]
  exact ⟨hyear ▸ hb, u, verdict_of_endOf_eq hend h⟩

/-- Walking in units finds what walking in minutes finds. -/
theorem found_walk (hs : s.InRange) : (c.walk bound s).found = c.firstFiring? bound s := by
  induction s using walk.induct c bound with
  | case1 s hb t hv => rw [walk_of_fires hb hv, firstFiring?_of_fires hb hv]
  | case2 s hb u hv ih => rw [walk_of_rulesOut hb hv, firstFiring?_after hs hb hv, ih (hs.after u)]
  | case3 s hb => rw [walk_of_le (Int.not_lt.mp hb), firstFiring?_of_le (Int.not_lt.mp hb)]

end

theorem outcome_search (c : Schedule) (since : DateTime) (first : Slot) :
    (c.search since first).outcome =
      match (c.walk (first.year + searchYears) first).found with
      | some t => .ok t
      | none => .error ⟨since, first.year + searchYears⟩ := by
  simp only [search]
  cases (c.walk (first.year + searchYears) first).found <;> rfl

theorem search_eq_searchByMinute (c : Schedule) (since : DateTime) {first : Slot} (h : first.InRange) :
    (c.search since first).outcome = c.searchByMinute since first := by
  rw [outcome_search, found_walk h]
  rfl

-- 30 February is no date, and the schedule has an hour that no day has.
theorem search_eq_searchByMinute_february :
    (⟨2023, 2, 30, 23, 59⟩ : Slot).InRange ∧
      ((⟨.ofList [30], .ofList [12, 40], .ofList [31], .ofList [2, 3], ∅, false, false⟩ : Schedule).search
          ⟨⟨2023, 2, 28, by decide⟩, 23, 59, 0, 0, by decide⟩ ⟨2023, 2, 30, 23, 59⟩).outcome =
        (⟨.ofList [30], .ofList [12, 40], .ofList [31], .ofList [2, 3], ∅, false, false⟩ : Schedule).searchByMinute
          ⟨⟨2023, 2, 28, by decide⟩, 23, 59, 0, 0, by decide⟩ ⟨2023, 2, 30, 23, 59⟩ :=
  ⟨by decide, search_eq_searchByMinute _ _ (by decide)⟩

end Schedule

end CronSchedule
