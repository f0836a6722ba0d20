import Mathlib.Data.Int.Interval
import CronSchedule.Proofs.EarliestTime
import CronSchedule.Proofs.Rejections
import CronSchedule.Proofs.SearchRounds

/-!
# How long a search takes

The slots that a walk turns down are counted by what sets them apart: their minutes, their hours, or their days. At
most 59 are turned down for their minute and 23 for their hour, since the schedule has a value of each. The others
lie on different days, and on none of its days. A search of two years is therefore over after 825 steps
(`searchFrom_length`).
-/

namespace CronSchedule

/-- Members that a function tells apart are no more than the values it may take. -/
theorem countP_le_card {α β : Type} [DecidableEq β] {l : List α} {p : α → Bool} {f : α → β} {S : Finset β}
    (hS : ∀ x ∈ l, p x = true → f x ∈ S) (hne : l.Pairwise fun x y => p x = true → p y = true → f x ≠ f y) :
    l.countP p ≤ S.card := by
  have hnodup : ((l.filter p).map f).Nodup := by
    apply List.pairwise_map.2
    apply List.pairwise_filter.2
    exact hne
  have hsub : ((l.filter p).map f).toFinset ⊆ S := by
    intro b hb
    simp only [List.mem_toFinset, List.mem_map, List.mem_filter] at hb
    obtain ⟨x, ⟨hx, hp⟩, rfl⟩ := hb
    exact hS x hx hp
  calc l.countP p = ((l.filter p).map f).length := by rw [List.length_map, List.countP_eq_length_filter]
    _ = ((l.filter p).map f).toFinset.card := (List.toFinset_card_of_nodup hnodup).symm
    _ ≤ S.card := Finset.card_le_card hsub

theorem countP_le_add {α : Type} {l : List α} {p q r : α → Bool} (h : ∀ x ∈ l, p x = true → q x = true ∨ r x = true) :
    l.countP p ≤ l.countP q + l.countP r := by
  induction l with
  | nil => exact Nat.le_refl _
  | cons x l ih =>
    have hl := ih fun y hy => h y (List.mem_cons_of_mem x hy)
    have hx := h x List.mem_cons_self
    simp only [List.countP_cons]
    cases hp : p x
    · simp; omega
    · rcases hx hp with hq | hr
      · simp [hq]; omega
      · simp [hr]; omega

namespace Walk.IsOrderly

open Schedule

section
variable {c : Schedule} {bound : Int} {s : Slot} {w : Walk}

theorem inRange (hw : w.IsOrderly c bound s) {x : Slot} (hx : x ∈ w.rejected) : x.InRange :=
  (hw.rejected x hx).2.1.inRange

/-- A part of the slot that differs in all that are turned down for a unit, and is never `v`, bounds their number. -/
theorem countP_rulesOut_le (hw : w.IsOrderly c bound s) {u : TimeUnit} (part : Slot → Nat) {n v : Nat} (hv : v < n)
    (hpart : ∀ x : Slot, x.InRange → c.verdict x = .rulesOut u → part x ≠ v ∧ part x < n)
    (hne : ∀ x y : Slot, x.InRange → c.verdict x = .rulesOut u → c.verdict y = .rulesOut u →
      c.Passes (x.after u) y → part x ≠ part y) :
    w.rejected.countP (fun x => c.verdict x = .rulesOut u) ≤ n - 1 := by
  have hcard : ((Finset.range n).erase v).card = n - 1 := by
    rw [Finset.card_erase_of_mem (Finset.mem_range.2 hv), Finset.card_range]
  rw [← hcard]
  apply countP_le_card (f := part)
  · intro x hx hvx
    obtain ⟨hxv, hxn⟩ := hpart x (hw.inRange hx) (of_decide_eq_true hvx)
    exact Finset.mem_erase.2 ⟨hxv, Finset.mem_range.2 hxn⟩
  · refine hw.pairwise.imp_of_mem fun {x y} hx _ hxy hvx hvy => ?_
    obtain ⟨u', hu, hpass⟩ := hxy
    cases hu.symm.trans (of_decide_eq_true hvx)
    exact hne x y (hw.inRange hx) hu (of_decide_eq_true hvy) hpass

theorem countP_minute_le (hw : w.IsOrderly c bound s) (hc : c.WellFormed) :
    w.rejected.countP (fun x => c.verdict x = .rulesOut .minute) ≤ 59 := by
  obtain ⟨m, hm⟩ := hc.exists_mem .minute
  apply hw.countP_rulesOut_le Slot.minute (hc.minute_lt hm)
  · intro x hx hv
    exact ⟨fun heq => (not_mem_minutes_of_rulesOut hx hv).2 (heq ▸ hm), hx.2.2.2⟩
  · intro x y hx hvx hvy hpass
    exact hc.minute_ne hx hvx hvy hpass

theorem countP_hour_le (hw : w.IsOrderly c bound s) (hc : c.WellFormed) :
    w.rejected.countP (fun x => c.verdict x = .rulesOut .hour) ≤ 23 := by
  obtain ⟨h, hh⟩ := hc.exists_mem .hour
  apply hw.countP_rulesOut_le Slot.hour (hc.hour_lt hh)
  · intro x hx hv
    exact ⟨fun heq => not_mem_hours_of_rulesOut hv (heq ▸ hh), hx.2.2.1⟩
  · intro x y hx hvx hvy hpass
    exact hc.hour_ne hx hvx hvy hpass

theorem countP_hasDay_le (hw : w.IsOrderly c bound s) (hc : c.WellFormed) :
    w.rejected.countP c.hasDay ≤ 59 + 23 := by
  have hsplit : w.rejected.countP c.hasDay ≤
      w.rejected.countP (fun x => c.verdict x = .rulesOut .minute) +
        w.rejected.countP (fun x => c.verdict x = .rulesOut .hour) := by
    apply countP_le_add
    intro x hx hd
    obtain ⟨-, -, u, hu, -⟩ := hw.rejected x hx
    rcases (hasDay_iff_of_rulesOut hu).1 hd with rfl | rfl
    · exact Or.inl (decide_eq_true hu)
    · exact Or.inr (decide_eq_true hu)
  exact Nat.le_trans hsplit (Nat.add_le_add (hw.countP_minute_le hc) (hw.countP_hour_le hc))

/-- Slots that are turned down with their days are no more than the days they may lie on. -/
theorem countP_le_card_days (hw : w.IsOrderly c bound s) {p : Slot → Bool} {S : Finset Int}
    (hp : ∀ x ∈ w.rejected, p x = true → c.hasDay x = false ∧ x.dayRank ∈ S) : w.rejected.countP p ≤ S.card := by
  apply countP_le_card (f := Slot.dayRank)
  · intro x hx hpx
    exact (hp x hx hpx).2
  · refine hw.pairwise.imp_of_mem fun {x y} hx _ hxy hpx _ => ?_
    obtain ⟨u, hu, hpass⟩ := hxy
    exact Int.ne_of_lt (dayRank_lt (hw.inRange hx) hu (hp x hx hpx).1 hpass)

theorem dayRank_mem_years (hw : w.IsOrderly c bound s) (hs : s.InRange) {x : Slot} (hx : x ∈ w.rejected) :
    s.year * 372 ≤ x.dayRank ∧ x.dayRank < bound * 372 := by
  obtain ⟨hlt, hpass, -⟩ := hw.rejected x hx
  have hyear := Slot.year_le_of_rank_le hs hpass.inRange hpass.rank_le
  have hday := Slot.dayRank_mem_year hpass.inRange
  omega

theorem steps_le (hw : w.IsOrderly c bound s) (hc : c.WellFormed) (hs : s.InRange) {years : Nat}
    (hb : bound = s.year + years) : w.steps ≤ 59 + 23 + (372 * years - 1) := by
  let days := Finset.Ico (s.year * 372) (bound * 372)
  have hcard : days.card = 372 * years := by
    rw [Int.card_Ico]
    omega
  have hdays : ∀ x ∈ w.rejected, x.dayRank ∈ days := fun x hx => Finset.mem_Ico.2 (hw.dayRank_mem_years hs hx)
  have hsplit : w.steps = w.rejected.countP c.hasDay + w.rejected.countP fun x => !c.hasDay x := by
    unfold steps
    rw [List.length_eq_countP_add_countP c.hasDay]
    simp
  by_cases h : ∃ z ∈ w.rejected, c.hasDay z = true
  · -- the day of `z` is left to the slots that are turned down for their hour or minute
    obtain ⟨z, hz, hzd⟩ := h
    have hle : (w.rejected.countP fun x => !c.hasDay x) ≤ (days.erase z.dayRank).card := by
      apply hw.countP_le_card_days
      intro x hx hd
      have hxd : c.hasDay x = false := by simpa using hd
      refine ⟨hxd, Finset.mem_erase.2 ⟨fun heq => ?_, hdays x hx⟩⟩
      rw [hasDay_eq_of_endOf_eq ((Slot.endOf_day_eq_iff (hw.inRange hx) (hw.inRange hz)).2 heq), hzd] at hxd
      cases hxd
    rw [Finset.card_erase_of_mem (hdays z hz), hcard] at hle
    rw [hsplit]
    exact Nat.add_le_add (hw.countP_hasDay_le hc) hle
  · have hnone : w.rejected.countP c.hasDay = 0 := by
      rw [List.countP_eq_zero]
      exact fun z hz hzd => h ⟨z, hz, hzd⟩
    have hle : (w.rejected.countP fun x => !c.hasDay x) ≤ days.card := by
      apply hw.countP_le_card_days
      intro x hx hd
      exact ⟨by simpa using hd, hdays x hx⟩
    rw [hsplit, hnone]
    omega

/-! ## Day by day -/

theorem countP_day_le_one (hw : w.IsOrderly c bound s) {x : Slot} (hd : c.hasDay x = false) :
    w.rejected.countP (fun y => y.endOf .day = x.endOf .day) ≤ 1 := by
  rw [← Finset.card_singleton x.dayRank]
  apply hw.countP_le_card_days
  intro y _ hyx
  have hend := of_decide_eq_true hyx
  exact ⟨(hasDay_eq_of_endOf_eq hend).trans hd, Finset.mem_singleton.2 (Slot.dayRank_eq_of_endOf_eq hend)⟩

theorem countP_day_le (hw : w.IsOrderly c bound s) (hc : c.WellFormed) (x : Slot) :
    w.rejected.countP (fun y => y.endOf .day = x.endOf .day) ≤ 59 + 23 := by
  by_cases hd : c.hasDay x = true
  · have hmono : w.rejected.countP (fun y => y.endOf .day = x.endOf .day) ≤ w.rejected.countP c.hasDay := by
      apply List.countP_mono_left
      intro y _ hyx
      rw [hasDay_eq_of_endOf_eq (of_decide_eq_true hyx), hd]
    exact Nat.le_trans hmono (hw.countP_hasDay_le hc)
  · exact Nat.le_trans (hw.countP_day_le_one (Bool.eq_false_iff.mpr hd)) (by decide)

/-- On a later day of the schedule than that of its start the walk ends. -/
theorem hasDay_eq_false_of_later (hw : w.IsOrderly c bound s) (hc : c.WellFormed) (hs : s.InRange) {x : Slot}
    (hx : x ∈ w.rejected) (hfirst : x.endOf .day ≠ s.endOf .day) (hlast : x.endOf .day ≠ w.last.endOf .day) :
    c.hasDay x = false := by
  obtain ⟨-, hpass, u, hu, hrest⟩ := hw.rejected x hx
  have hxr := hpass.inRange
  have hlr := hw.last.inRange
  rw [Ne, Slot.endOf_day_eq_iff hxr hs] at hfirst
  rw [Ne, Slot.endOf_day_eq_iff hxr hlr] at hlast
  apply Bool.eq_false_iff.mpr
  intro hd
  obtain ⟨h, hh⟩ := hc.exists_mem .hour
  obtain ⟨m, hm⟩ := hc.exists_mem .minute
  have hh24 := hc.hour_lt hh
  have hm60 := hc.minute_lt hm
  have hsx := hpass.rank_le
  have hxl := hrest.rank_le
  have hend := Slot.rank_le_rank_endOf hxr u
  have hlf := hw.last.rank_le_of_fires (hxr.atTime hh24 hm60) (hc.exists_fires_atTime hd hh hm)
  rw [Slot.rank_atTime, Slot.rank_eq s, Slot.rank_eq w.last] at hlf
  rw [Slot.rank_eq s, Slot.rank_eq x] at hsx
  rw [Slot.rank_after hxr, Slot.rank_eq w.last] at hxl
  rw [Slot.rank_eq x] at hend
  have hs' := hs.2.2
  have hx' := hxr.2.2
  have hl' := hlr.2.2
  omega

theorem countP_later_day_le_one (hw : w.IsOrderly c bound s) (hc : c.WellFormed) (hs : s.InRange) {x : Slot}
    (hfirst : x.endOf .day ≠ s.endOf .day) (hlast : x.endOf .day ≠ w.last.endOf .day) :
    w.rejected.countP (fun y => y.endOf .day = x.endOf .day) ≤ 1 := by
  by_cases hd : c.hasDay x = true
  · have hnone : w.rejected.countP (fun y => y.endOf .day = x.endOf .day) = 0 := by
      rw [List.countP_eq_zero]
      intro y hy hyx
      have hend := of_decide_eq_true hyx
      have hyd := hw.hasDay_eq_false_of_later hc hs hy (hend ▸ hfirst) (hend ▸ hlast)
      rw [hasDay_eq_of_endOf_eq hend, hd] at hyd
      cases hyd
    exact Nat.le_trans (Nat.le_of_eq hnone) (Nat.zero_le 1)
  · exact hw.countP_day_le_one (Bool.eq_false_iff.mpr hd)

end

end Walk.IsOrderly

namespace Schedule

theorem search_reports (c : Schedule) (since : DateTime) (first : Slot) :
    let w := c.walk (first.year + searchYears) first
    (∃ x, c.search since first = ⟨[.found x w.steps], .ok x⟩ ∧ w.last = Slot.of x) ∨
      ∃ e, c.search since first = ⟨[.exhausted e w.steps], .error e⟩ ∧ first.year + searchYears ≤ w.last.year := by
  intro w
  have hlast := last_walk c (first.year + searchYears) first
  cases hw : w.found with
  | some x =>
    rw [show (c.walk _ first).found = some x from hw] at hlast
    have htime := (verdict_eq_fires_iff.1 hlast.2).1
    exact Or.inl ⟨x, search_of_found hw, (Slot.time?_eq_some_iff.1 htime).1.symm⟩
  | none =>
    rw [show (c.walk _ first).found = none from hw] at hlast
    exact Or.inr ⟨_, search_of_not_found hw, hlast⟩

/-- **Length of a search.** After at most 825 steps it is said what was found, or that the search is exhausted. No more
than 59 + 23 slots are turned down on days of the schedule, nor on any one day, and on a day that is neither the first
one nor the one on which the walk ends there is one at most. -/
theorem searchFrom_length {expressions : List (List Char)} {c : Schedule} (h : ofFields expressions = .ok c)
    (inclusive : Bool) (t : DateTime) :
    let first := if inclusive then Slot.of t else (Slot.of t).next
    let w := c.walk (first.year + searchYears) first
    let onDay (s : Slot) := w.rejected.countP fun x => x.endOf .day = s.endOf .day
    ((∃ x, c.searchFrom inclusive t = ⟨[.found x w.steps], .ok x⟩ ∧ w.last = Slot.of x) ∨
        ∃ e, c.searchFrom inclusive t = ⟨[.exhausted e w.steps], .error e⟩ ∧ first.year + 2 ≤ w.last.year) ∧
      w.steps ≤ 825 ∧
      (∀ x ∈ w.rejected, x.InRange ∧ first.rank ≤ x.rank ∧ x.year < first.year + 2) ∧
      w.rejected.countP c.hasDay ≤ 59 + 23 ∧ (∀ s, onDay s ≤ 59 + 23) ∧
      ∀ s, s.endOf .day ≠ first.endOf .day → s.endOf .day ≠ w.last.endOf .day → onDay s ≤ 1 := by
  intro first w onDay
  have hc := wellFormed_of_ofFields h
  have hfirst : first.InRange := by
    cases inclusive
    · exact (Slot.inRange_of t).next
    · exact Slot.inRange_of t
  have hw : w.IsOrderly c (first.year + searchYears) first := isOrderly_walk hfirst
  refine ⟨search_reports c t first, hw.steps_le hc hfirst rfl, fun x hx => ?_, hw.countP_hasDay_le hc,
    hw.countP_day_le hc, fun s hs hs' => hw.countP_later_day_le_one hc hfirst hs hs'⟩
  obtain ⟨hlt, hpass, -⟩ := hw.rejected x hx
  exact ⟨hpass.inRange, hpass.rank_le, hlt⟩

-- After the last minute of the calendar there are only slots that no date fills, and no month lets them be skipped.
theorem searchFrom_length_past_calendar :
    let c : Schedule :=
      ⟨.full .minute, .full .hour, .full .dayOfMonth, .full .month, .full .dayOfWeek, true, true⟩
    let t : DateTime := ⟨⟨lastYear, 12, 31, by decide⟩, 23, 59, 0, 0, by decide⟩
    ofFields ["*".toList, "*".toList, "*".toList, "*".toList, "*".toList] = .ok c ∧
      ∃ e steps, c.searchFrom false t = ⟨[.exhausted e steps], .error e⟩ ∧ steps ≤ 825 := by
  intro c t
  have hc : ofFields ["*".toList, "*".toList, "*".toList, "*".toList, "*".toList] = .ok c := by decide +kernel
  obtain ⟨hends, hsteps, -⟩ := searchFrom_length hc false t
  rcases hends with ⟨x, hx, -⟩ | ⟨e, he, -⟩
  · have hx' : c.nextAfter t = .ok x := congrArg Logged.outcome hx
    have hle := (((nextAfter_isAnswer c t).ok_iff x).1 hx').mem.le_rank
    have hyear := Slot.year_le_of_rank_le (Slot.inRange_of t).next (Slot.inRange_of x) hle
    exact absurd (Int.le_trans hyear x.date.isDate.1.2) (by decide)
  · exact ⟨hc, e, _, he, hsteps⟩

end Schedule

end CronSchedule
