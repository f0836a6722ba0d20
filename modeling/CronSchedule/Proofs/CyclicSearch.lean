import CronSchedule.Calendar.Cycle
import CronSchedule.Proofs.SearchRefinement

/-!
# Searches whole cycles apart

Two slots whole cycles apart get the same verdict as long as both years are in the calendar
(`verdict_cyclesLater`). The walks from them therefore go through corresponding slots, one by one
(`walk_cyclesLater`), and what they find is as far apart as they are.
-/

namespace CronSchedule

/-- Whether a year is in the calendar and the year `k` cycles later is, too. -/
def InBothYears (k year : Int) : Prop :=
  (firstYear ≤ year ∧ year ≤ lastYear) ∧ firstYear ≤ year + 400 * k ∧ year + 400 * k ≤ lastYear

/-! ## Slots -/

namespace Slot

def cyclesLater (k : Int) (s : Slot) : Slot :=
  { s with year := s.year + 400 * k }

theorem next_cyclesLater (k : Int) (s : Slot) : (s.cyclesLater k).next = s.next.cyclesLater k := by
  have hy : s.year + 400 * k + 1 = s.year + 1 + 400 * k := by omega
  simp only [next, cyclesLater, hy]
  split
  · rfl
  split
  · rfl
  split
  · rfl
  split <;> rfl

theorem after_cyclesLater (k : Int) (s : Slot) (u : TimeUnit) : (s.cyclesLater k).after u = (s.after u).cyclesLater k := by
  have h : (s.cyclesLater k).endOf u = (s.endOf u).cyclesLater k := by
    cases u <;> rfl
  unfold after
  rw [h, next_cyclesLater]

theorem of_cyclesLater {k : Int} {t t' : DateTime} (h : t.cyclesLater? k = some t') :
    Slot.of t' = (Slot.of t).cyclesLater k := by
  obtain ⟨hd, hh, hmi, -, -⟩ := DateTime.cyclesLater?_eq_some_iff.1 h
  obtain ⟨hy, hm, hday⟩ := Date.cyclesLater?_eq_some_iff.1 hd
  simp only [Slot.of, cyclesLater, hy, hm, hday, hh, hmi]

theorem date?_cyclesLater {k : Int} {s : Slot} (h : InBothYears k s.year) :
    Option.Rel (fun d d' => d.cyclesLater? k = some d') s.date? (s.cyclesLater k).date? := by
  have hiff := isDate_add_cycles h.1 h.2 s.month s.day
  unfold date? Date.ofParts?
  by_cases hd : IsDate s.year s.month s.day
  · have hd' : IsDate (s.cyclesLater k).year (s.cyclesLater k).month (s.cyclesLater k).day := hiff.2 hd
    rw [dif_pos hd, dif_pos hd']
    exact .some (Date.cyclesLater?_eq_some_iff.2 ⟨rfl, rfl, rfl⟩)
  · have hd' : ¬ IsDate (s.cyclesLater k).year (s.cyclesLater k).month (s.cyclesLater k).day := mt hiff.1 hd
    rw [dif_neg hd, dif_neg hd']
    exact .none

end Slot

/-! ## Verdicts -/

inductive Verdict.Corresponds (k : Int) : Verdict → Verdict → Prop
  | fires {t t' : DateTime} : t.cyclesLater? k = some t' → Corresponds k (.fires t) (.fires t')
  | rulesOut (u : TimeUnit) : Corresponds k (.rulesOut u) (.rulesOut u)

theorem Verdict.Corresponds.of_fires {k : Int} {t : DateTime} {v : Verdict} (h : Verdict.Corresponds k (.fires t) v) :
    ∃ t', t.cyclesLater? k = some t' ∧ v = .fires t' := by
  cases h with
  | fires ht => exact ⟨_, ht, rfl⟩

theorem Verdict.Corresponds.of_rulesOut {k : Int} {u : TimeUnit} {v : Verdict}
    (h : Verdict.Corresponds k (.rulesOut u) v) : v = .rulesOut u := by
  cases h
  rfl

namespace Schedule

variable {c : Schedule} {k : Int}

theorem firesOn_cyclesLater {d d' : Date} (h : d.cyclesLater? k = some d') : c.firesOn d' = c.firesOn d := by
  obtain ⟨-, -, hday⟩ := Date.cyclesLater?_eq_some_iff.1 h
  unfold firesOn hasWeekday
  rw [hday, Date.weekday_of_cyclesLater? h]

theorem fires_cyclesLater {t t' : DateTime} (h : t.cyclesLater? k = some t') : c.fires t' = c.fires t := by
  obtain ⟨hd, hh, hmi, -, -⟩ := DateTime.cyclesLater?_eq_some_iff.1 h
  obtain ⟨-, hm, -⟩ := Date.cyclesLater?_eq_some_iff.1 hd
  unfold fires
  rw [hm, hh, hmi, firesOn_cyclesLater hd]

theorem verdict_cyclesLater {s : Slot} (h : InBothYears k s.year) :
    Verdict.Corresponds k (c.verdict s) (c.verdict (s.cyclesLater k)) := by
  have hmonth : (s.cyclesLater k).month = s.month := rfl
  have hhour : (s.cyclesLater k).hour = s.hour := rfl
  have hminute : (s.cyclesLater k).minute = s.minute := rfl
  have hdate := Slot.date?_cyclesLater h
  unfold verdict
  rw [hmonth, hhour, hminute]
  split
  · exact .rulesOut .month
  generalize s.date? = x, (s.cyclesLater k).date? = y at hdate ⊢
  cases hdate with
  | none => exact .rulesOut .day
  | @some d d' hd =>
    dsimp only
    rw [firesOn_cyclesLater hd]
    split
    · exact .rulesOut .day
    split
    · exact .rulesOut .hour
    split
    · exact .rulesOut .minute
    unfold DateTime.ofParts?
    by_cases ht : IsTimeOfDay s.hour s.minute 0 0
    · rw [dif_pos ht, dif_pos ht]
      exact .fires (DateTime.cyclesLater?_eq_some_iff.2 ⟨hd, rfl, rfl, rfl, rfl⟩)
    · rw [dif_neg ht, dif_neg ht]
      exact .rulesOut .minute

end Schedule

/-! ## Walks -/

structure Walk.Corresponds (k : Int) (w w' : Walk) : Prop where
  rejected : w'.rejected = w.rejected.map (Slot.cyclesLater k)
  found : Option.Rel (fun t t' => t.cyclesLater? k = some t') w.found w'.found

theorem Walk.Corresponds.steps_eq {k : Int} {w w' : Walk} (h : Walk.Corresponds k w w') : w'.steps = w.steps := by
  unfold steps
  rw [h.rejected, List.length_map]

namespace Schedule

variable {c : Schedule} {k : Int}

/-- Walks from slots in the calendar up to years in it keep together, slot by slot. -/
theorem walk_cyclesLater {bound : Int} {s : Slot} (hs : firstYear ≤ s.year ∧ firstYear ≤ s.year + 400 * k)
    (hb : bound ≤ lastYear + 1 ∧ bound + 400 * k ≤ lastYear + 1) :
    Walk.Corresponds k (c.walk bound s) (c.walk (bound + 400 * k) (s.cyclesLater k)) := by
  have lt_iff : ∀ x : Slot, (x.cyclesLater k).year < bound + 400 * k ↔ x.year < bound := by
    intro x
    exact Int.add_lt_add_iff_right _
  induction s using walk.induct c bound with
  | case1 s hlt t hv =>
    have hin : InBothYears k s.year := ⟨by omega, by omega⟩
    have hverdict := verdict_cyclesLater (c := c) hin
    rw [hv] at hverdict
    obtain ⟨t', ht, hv'⟩ := hverdict.of_fires
    rw [walk_of_fires hlt hv, walk_of_fires ((lt_iff s).2 hlt) hv']
    exact ⟨rfl, .some ht⟩
  | case2 s hlt u hv ih =>
    have hin : InBothYears k s.year := ⟨by omega, by omega⟩
    have hverdict := verdict_cyclesLater (c := c) hin
    rw [hv] at hverdict
    have hyear := Slot.year_le_year_after s u
    have hw := ih (by omega)
    rw [walk_of_rulesOut hlt hv, walk_of_rulesOut ((lt_iff s).2 hlt) hverdict.of_rulesOut, Slot.after_cyclesLater]
    refine ⟨?_, hw.found⟩
    simp only [hw.rejected, List.map_cons]
  | case3 s hle =>
    have hle' : ¬ (s.cyclesLater k).year < bound + 400 * k := mt (lt_iff s).1 hle
    rw [walk_of_le (Int.not_lt.mp hle), walk_of_le (Int.not_lt.mp hle')]
    exact ⟨rfl, .none⟩

end Schedule

/-! ## Searches -/

/-- How a search from `t` and one from `t'` agree: after as many steps, both find a time, or both come to the bound. -/
inductive CyclesApart (k : Int) (t t' : DateTime) : Logged Exhausted DateTime → Logged Exhausted DateTime → Prop
  | found {x x' : DateTime} {steps : Nat} : x.cyclesLater? k = some x' →
      CyclesApart k t t' ⟨[.found x steps], .ok x⟩ ⟨[.found x' steps], .ok x'⟩
  | exhausted (year : Int) (steps : Nat) :
      CyclesApart k t t' ⟨[.exhausted ⟨t, year⟩ steps], .error ⟨t, year⟩⟩
        ⟨[.exhausted ⟨t', year + 400 * k⟩ steps], .error ⟨t', year + 400 * k⟩⟩

namespace Schedule

theorem search_cyclesLater (c : Schedule) {k : Int} {first : Slot} (t t' : DateTime)
    (hs : firstYear ≤ first.year ∧ firstYear ≤ first.year + 400 * k)
    (hb : first.year + 1 ≤ lastYear ∧ first.year + 400 * k + 1 ≤ lastYear) :
    CyclesApart k t t' (c.search t first) (c.search t' (first.cyclesLater k)) := by
  have hbound : (first.cyclesLater k).year + searchYears = first.year + searchYears + 400 * k := by
    simp only [Slot.cyclesLater]
    omega
  have hb' : first.year + searchYears ≤ lastYear + 1 ∧ first.year + searchYears + 400 * k ≤ lastYear + 1 := by
    simp only [searchYears]
    omega
  have hw := walk_cyclesLater (c := c) hs hb'
  rw [← hbound] at hw
  have hsteps := hw.steps_eq
  have hfound := hw.found
  generalize hx : (c.walk _ first).found = x, hx' : (c.walk _ (first.cyclesLater k)).found = x' at hfound
  cases hfound with
  | some h =>
    rw [search_of_found hx, search_of_found hx', hsteps]
    exact .found h
  | none =>
    rw [search_of_not_found hx, search_of_not_found hx', hsteps, hbound]
    exact .exhausted _ _

/-- **The schedule repeats with the calendar.** It fires at a time just if it fires whole cycles later, and as long as
the years to search are in the calendar, `nextAfter` and `nextFrom` (the outcomes of `searchFrom`) answer alike. -/
theorem repeats_with_cycles (c : Schedule) (k : Int) (t : DateTime)
    (h : firstYear ≤ t.date.year + 400 * k ∧ t.date.year + 400 * k ≤ lastYear) :
    ∃ t', t.cyclesLater? k = some t' ∧ c.fires t' = c.fires t ∧
      ((Slot.of t).next.year + 1 ≤ lastYear → (Slot.of t').next.year + 1 ≤ lastYear →
        CyclesApart k t t' (c.searchFrom false t) (c.searchFrom false t')) ∧
      (t.date.year + 1 ≤ lastYear → t'.date.year + 1 ≤ lastYear →
        CyclesApart k t t' (c.searchFrom true t) (c.searchFrom true t')) := by
  obtain ⟨t', ht⟩ := DateTime.exists_cyclesLater? h
  have hof := Slot.of_cyclesLater ht
  have hyear : t'.date.year = t.date.year + 400 * k :=
    (Date.cyclesLater?_eq_some_iff.1 (DateTime.cyclesLater?_eq_some_iff.1 ht).1).1
  have hfirst := t.date.isDate.1.1
  refine ⟨t', ht, fires_cyclesLater ht, fun hy hy' => ?_, fun hy hy' => ?_⟩
  · have hle : t.date.year ≤ (Slot.of t).next.year := Slot.year_le_year_next (Slot.of t)
    have hnext : (Slot.of t').next = (Slot.of t).next.cyclesLater k := by rw [hof, Slot.next_cyclesLater]
    rw [hnext] at hy'
    have hs := search_cyclesLater c t t' ⟨Int.le_trans hfirst hle, by omega⟩ ⟨hy, hy'⟩
    rw [← hnext] at hs
    exact hs
  · rw [hyear] at hy'
    have hs := search_cyclesLater c t t' (show _ ∧ firstYear ≤ (Slot.of t).year + 400 * k from ⟨hfirst, h.1⟩) ⟨hy, hy'⟩
    rw [← hof] at hs
    exact hs

-- In the last leap second of 29 February 2024, and six cycles before in the year -376.
theorem repeats_with_cycles_leap_second :
    let c : Schedule := ⟨.ofList [0], .ofList [12], .ofList [29], .ofList [2], .ofList [1, 7], false, false⟩
    let t : DateTime := ⟨⟨2024, 2, 29, by decide⟩, 23, 59, 59, 1500000000, by decide⟩
    let t' : DateTime := ⟨⟨-376, 2, 29, by decide⟩, 23, 59, 59, 1500000000, by decide⟩
    t.cyclesLater? (-6) = some t' ∧ c.fires t' = c.fires t ∧
      CyclesApart (-6) t t' (c.searchFrom false t) (c.searchFrom false t') ∧
      CyclesApart (-6) t t' (c.searchFrom true t) (c.searchFrom true t') := by
  intro c t t'
  obtain ⟨x, hx, hf, hafter, hfrom⟩ := repeats_with_cycles c (-6) t (by decide)
  have hx' : t.cyclesLater? (-6) = some t' := by decide
  obtain rfl : x = t' := Option.some.inj (hx.symm.trans hx')
  exact ⟨hx', hf, hafter (by decide) (by decide), hfrom (by decide) (by decide)⟩

end Schedule

end CronSchedule
