import CronSchedule.Proofs.ReadSchedule
import CronSchedule.Proofs.SearchRefinement

/-!
# What a walk turns down

A walk comes to a slot only if the schedule fires in none between its start and that slot (`isOrderly_walk`). On a
day of the schedule it fires at some minute of each of its hours. So no two slots are turned down for the same
minute (`minute_ne`), no two for the same hour (`hour_ne`), and those that are turned down with their days are on
later and later days (`dayRank_lt`).
-/

namespace CronSchedule

namespace Slot

/-- Numbers the days that slots lie on. -/
def dayRank (s : Slot) : Int :=
  (s.year * 12 + (s.month - 1)) * 31 + (s.day - 1)

theorem rank_eq (s : Slot) : s.rank = (s.dayRank * 24 + s.hour) * 60 + s.minute :=
  rfl

theorem rank_endOf_hour (s : Slot) : (s.endOf .hour).rank = (s.dayRank * 24 + s.hour) * 60 + 59 :=
  rfl

theorem rank_endOf_day (s : Slot) : (s.endOf .day).rank = (s.dayRank * 24 + 23) * 60 + 59 :=
  rfl

theorem dayRank_mem_year {s : Slot} (h : s.InRange) : s.year * 372 ≤ s.dayRank ∧ s.dayRank < (s.year + 1) * 372 := by
  unfold InRange at h
  unfold dayRank
  omega

theorem dayRank_eq_of_endOf_eq {s x : Slot} (h : s.endOf .day = x.endOf .day) : s.dayRank = x.dayRank := by
  have hrank := congrArg rank h
  rw [rank_endOf_day, rank_endOf_day] at hrank
  omega

theorem endOf_day_eq_iff {s x : Slot} (hs : s.InRange) (hx : x.InRange) :
    s.endOf .day = x.endOf .day ↔ s.dayRank = x.dayRank := by
  refine ⟨dayRank_eq_of_endOf_eq, fun h => ?_⟩
  apply rank_inj (hs.endOf .day) (hx.endOf .day)
  rw [rank_endOf_day, rank_endOf_day, h]

/-- The slot of a minute on the day of `s`. -/
def atTime (s : Slot) (hour minute : Nat) : Slot :=
  { s with hour, minute }

theorem rank_atTime (s : Slot) (h m : Nat) : (s.atTime h m).rank = (s.dayRank * 24 + h) * 60 + m :=
  rfl

theorem InRange.atTime {s : Slot} (hs : s.InRange) {h m : Nat} (hh : h < 24) (hm : m < 60) : (s.atTime h m).InRange :=
  ⟨hs.1, hs.2.1, hh, hm⟩

end Slot

namespace Schedule

/-! ## Days of the schedule -/

/-- Whether a date on which the schedule fires fills the slot. -/
def hasDay (c : Schedule) (s : Slot) : Bool :=
  s.month ∈ c.months && s.date?.any c.firesOn

section
variable {c : Schedule} {s x y : Slot}

theorem hasDay_iff : c.hasDay s = true ↔ s.month ∈ c.months ∧ ∃ d, s.date? = some d ∧ c.firesOn d = true := by
  simp [hasDay, Option.any_eq_true]

theorem hasDay_eq_of_endOf_eq (h : s.endOf .day = x.endOf .day) : c.hasDay s = c.hasDay x := by
  simp only [Slot.endOf, Slot.mk.injEq, and_true] at h
  simp only [hasDay, Slot.date?, h]

theorem hasDay_iff_of_rulesOut {u : TimeUnit} (h : c.verdict s = .rulesOut u) :
    c.hasDay s = true ↔ u = .minute ∨ u = .hour := by
  rw [verdict_eq_rulesOut_iff] at h
  rw [hasDay_iff]
  cases u with
  | minute => exact ⟨fun _ => Or.inl rfl, fun _ => ⟨h.1, h.2.1⟩⟩
  | hour => exact ⟨fun _ => Or.inr rfl, fun _ => ⟨h.1, h.2.1⟩⟩
  | day =>
    simp only [reduceCtorEq, or_self, iff_false]
    rintro ⟨-, d, hd, hf⟩
    rw [h.2 d hd] at hf
    cases hf
  | month =>
    simp only [reduceCtorEq, or_self, iff_false]
    exact fun hs => h hs.1

/-- On one of its days the schedule fires at each of its minutes in each of its hours. -/
theorem WellFormed.exists_fires_atTime (hc : c.WellFormed) (hs : c.hasDay s = true) {h m : Nat} (hh : h ∈ c.hours)
    (hm : m ∈ c.minutes) : ∃ t, c.verdict (s.atTime h m) = .fires t := by
  obtain ⟨hmonth, d, hd, hf⟩ := hasDay_iff.1 hs
  have ht : IsTimeOfDay h m 0 0 := isTimeOfDay_minute (hc.hour_lt hh) (hc.minute_lt hm)
  have htime : (s.atTime h m).time? = some ⟨d, h, m, 0, 0, ht⟩ := by
    show s.date?.bind (fun date => DateTime.ofParts? date h m 0 0) = _
    simp [hd, DateTime.ofParts?, ht]
  exact ⟨_, verdict_eq_fires_iff.2 ⟨htime, (fires_iff_of_time? htime).2 ⟨hmonth, hf, hh, hm⟩⟩⟩

/-! ## Passing over slots -/

/-- The schedule fires in none of the slots from `s` to `x`, the last one left out. -/
structure Passes (c : Schedule) (s x : Slot) : Prop where
  inRange : x.InRange
  rank_le : s.rank ≤ x.rank
  rulesOut : ∀ y : Slot, y.InRange → s.rank ≤ y.rank → y.rank < x.rank → ∃ u, c.verdict y = .rulesOut u

theorem Passes.refl (hs : s.InRange) : c.Passes s s :=
  ⟨hs, Int.le_refl _, fun _ _ hle hlt => absurd hle (Int.not_le.mpr hlt)⟩

theorem Passes.of_after {u : TimeUnit} (hs : s.InRange) (hv : c.verdict s = .rulesOut u)
    (h : c.Passes (s.after u) x) : c.Passes s x := by
  have hafter := Slot.rank_after hs u
  have hend := Slot.rank_le_rank_endOf hs u
  have hle := h.rank_le
  refine ⟨h.inRange, by omega, fun y hy hsy hyx => ?_⟩
  by_cases hyu : y.rank ≤ (s.endOf u).rank
  · exact ⟨u, verdict_of_endOf_eq (Slot.endOf_eq_of_rank_le hs hy hsy hyu) hv⟩
  · exact h.rulesOut y hy (by omega) hyx

theorem Passes.rank_le_of_fires (h : c.Passes s x) (hy : y.InRange) (hf : ∃ t, c.verdict y = .fires t)
    (hsy : s.rank ≤ y.rank) : x.rank ≤ y.rank := by
  apply Int.not_lt.1
  intro hlt
  obtain ⟨t, ht⟩ := hf
  obtain ⟨u, hu⟩ := h.rulesOut y hy hsy hlt
  rw [ht] at hu
  cases hu

end

end Schedule

/-! ## Walks -/

/-- From its start on, the walk comes to slots before the bound and passes over the others. -/
structure Walk.IsOrderly (c : Schedule) (bound : Int) (s : Slot) (w : Walk) : Prop where
  last : c.Passes s w.last
  rejected : ∀ x ∈ w.rejected, x.year < bound ∧ c.Passes s x ∧
    ∃ u, c.verdict x = .rulesOut u ∧ c.Passes (x.after u) w.last
  pairwise : w.rejected.Pairwise fun x y => ∃ u, c.verdict x = .rulesOut u ∧ c.Passes (x.after u) y

namespace Schedule

theorem isOrderly_walk {c : Schedule} {bound : Int} {s : Slot} (hs : s.InRange) :
    (c.walk bound s).IsOrderly c bound s := by
  induction s using walk.induct c bound with
  | case1 s hb t hv =>
    rw [walk_of_fires hb hv]
    exact ⟨.refl hs, fun x hx => absurd hx List.not_mem_nil, .nil⟩
  | case2 s hb u hv ih =>
    have hw := ih (hs.after u)
    rw [walk_of_rulesOut hb hv]
    refine ⟨hw.last.of_after hs hv, fun x hx => ?_, .cons (fun x hx => ?_) hw.pairwise⟩
    · rcases List.mem_cons.1 hx with rfl | hx
      · exact ⟨hb, .refl hs, u, hv, hw.last⟩
      · obtain ⟨hy, hpass, hrest⟩ := hw.rejected x hx
        exact ⟨hy, hpass.of_after hs hv, hrest⟩
    · exact ⟨u, hv, (hw.rejected x hx).2.1⟩
  | case3 s hb =>
    rw [walk_of_le (Int.not_lt.mp hb)]
    exact ⟨.refl hs, fun x hx => absurd hx List.not_mem_nil, .nil⟩

section
variable {c : Schedule} {x y : Slot}

theorem not_mem_minutes_of_rulesOut (hx : x.InRange) (h : c.verdict x = .rulesOut .minute) :
    x.hour ∈ c.hours ∧ x.minute ∉ c.minutes := by
  obtain ⟨-, -, hh, hm⟩ := verdict_eq_rulesOut_iff.1 h
  exact ⟨hh, fun hmem => hm hmem (isTimeOfDay_minute hx.2.2.1 hx.2.2.2)⟩

theorem not_mem_hours_of_rulesOut (h : c.verdict x = .rulesOut .hour) : x.hour ∉ c.hours :=
  (verdict_eq_rulesOut_iff.1 h).2.2

theorem WellFormed.minute_ne (hc : c.WellFormed) (hx : x.InRange) (hvx : c.verdict x = .rulesOut .minute)
    (hvy : c.verdict y = .rulesOut .minute) (h : c.Passes (x.after .minute) y) : x.minute ≠ y.minute := by
  -- the minute `m` is still to come in the hour of `x`, or has been passed over in that of `y`
  obtain ⟨m, hm⟩ := hc.exists_mem .minute
  have hm60 := hc.minute_lt hm
  obtain ⟨hhx, hmx⟩ := not_mem_minutes_of_rulesOut hx hvx
  obtain ⟨hhy, -⟩ := not_mem_minutes_of_rulesOut h.inRange hvy
  have hfx := hc.exists_fires_atTime ((hasDay_iff_of_rulesOut hvx).2 (Or.inl rfl)) hhx hm
  have hfy := hc.exists_fires_atTime ((hasDay_iff_of_rulesOut hvy).2 (Or.inl rfl)) hhy hm
  have hlex := h.rank_le_of_fires (hx.atTime hx.2.2.1 hm60) hfx
  have hley := h.rank_le_of_fires (h.inRange.atTime h.inRange.2.2.1 hm60) hfy
  have hxy := h.rank_le
  have hne : m ≠ x.minute := fun heq => hmx (heq ▸ hm)
  have hx60 := hx.2.2.2
  have hafter : (x.after .minute).rank = x.rank + 1 := Slot.rank_after hx .minute
  rw [hafter, Slot.rank_atTime] at hlex hley
  rw [hafter] at hxy
  rw [Slot.rank_eq, Slot.rank_eq] at hlex hley hxy
  omega

theorem WellFormed.hour_ne (hc : c.WellFormed) (hx : x.InRange) (hvx : c.verdict x = .rulesOut .hour)
    (hvy : c.verdict y = .rulesOut .hour) (h : c.Passes (x.after .hour) y) : x.hour ≠ y.hour := by
  -- the hour `a` is still to come on the day of `x`, or has been passed over on that of `y`
  obtain ⟨a, ha⟩ := hc.exists_mem .hour
  obtain ⟨m, hm⟩ := hc.exists_mem .minute
  have ha24 := hc.hour_lt ha
  have hm60 := hc.minute_lt hm
  have hfx := hc.exists_fires_atTime ((hasDay_iff_of_rulesOut hvx).2 (Or.inr rfl)) ha hm
  have hfy := hc.exists_fires_atTime ((hasDay_iff_of_rulesOut hvy).2 (Or.inr rfl)) ha hm
  have hlex := h.rank_le_of_fires (hx.atTime ha24 hm60) hfx
  have hley := h.rank_le_of_fires (h.inRange.atTime ha24 hm60) hfy
  have hxy := h.rank_le
  have hne : a ≠ x.hour := fun heq => not_mem_hours_of_rulesOut hvx (heq ▸ ha)
  have hx24 := hx.2.2.1
  have hy60 := h.inRange.2.2.2
  rw [Slot.rank_after hx, Slot.rank_endOf_hour, Slot.rank_atTime] at hlex hley
  rw [Slot.rank_after hx, Slot.rank_endOf_hour] at hxy
  rw [Slot.rank_eq] at hlex hley hxy
  omega

theorem dayRank_lt {u : TimeUnit} (hx : x.InRange) (hv : c.verdict x = .rulesOut u) (hd : c.hasDay x = false)
    (h : c.Passes (x.after u) y) : x.dayRank < y.dayRank := by
  have hu : ¬ (u = .minute ∨ u = .hour) := by
    rw [← hasDay_iff_of_rulesOut hv, hd]
    exact Bool.false_ne_true
  have hend : (x.endOf .day).rank ≤ (x.endOf u).rank := by
    cases u with
    | minute => exact absurd (Or.inl rfl) hu
    | hour => exact absurd (Or.inr rfl) hu
    | day => exact Int.le_refl _
    | month =>
      have := hx.2.1
      simp only [Slot.endOf, Slot.rank]
      omega
  have hle := h.rank_le
  have hy := h.inRange.2.2
  rw [Slot.rank_after hx, Slot.rank_eq y] at hle
  rw [Slot.rank_endOf_day] at hend
  omega

end

end Schedule

end CronSchedule
