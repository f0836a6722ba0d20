import CronSchedule.Proofs.Upcoming

/-!
# Schedules compared by their times

What a search finds depends on nothing but the times at which the schedule fires. One that fires at all times of another
finds a time where the other does, and no later one (`search_le`); two that fire at the same times find the same, and
fail alike (`search_congr`).
-/

namespace CronSchedule

namespace Schedule

section
variable {c c' : Schedule} {since now : DateTime} {first : Slot}

/-! ## More times -/

section
variable (h : ∀ t, c.fires t = true → c'.fires t = true)
include h

theorem isCandidate_mono {bound : Int} {t : DateTime} (ht : c.IsCandidate first bound t) :
    c'.IsCandidate first bound t := by
  obtain ⟨hm, hle, hlt, hf⟩ := ht
  exact ⟨hm, hle, hlt, h t hf⟩

theorem search_le (hfirst : first.InRange) {x : DateTime} (hx : (c.search since first).outcome = .ok x) :
    ∃ y, (c'.search since first).outcome = .ok y ∧ y ≤ x := by
  have hA := search_isAnswer c since hfirst
  have hA' := search_isAnswer c' since hfirst
  have hE := (hA.ok_iff x).1 hx
  have hmem := isCandidate_mono h hE.mem
  obtain ⟨y, hy⟩ := hA'.succeeds_iff.2 ⟨x, hmem⟩
  have hE' := (hA'.ok_iff y).1 hy
  refine ⟨y, hy, ?_⟩
  apply DateTime.le_of_minuteNumber_le hE'.mem.isMinute hmem.isMinute
  exact hE'.le x hmem

theorem nextAfter_le {x : DateTime} (hx : c.nextAfter now = .ok x) : ∃ y, c'.nextAfter now = .ok y ∧ y ≤ x :=
  search_le h (Slot.inRange_of now).next hx

theorem nextFrom_le {x : DateTime} (hx : c.nextFrom now = .ok x) : ∃ y, c'.nextFrom now = .ok y ∧ y ≤ x :=
  search_le h (Slot.inRange_of now) hx

end

/-! ## The same times -/

section
variable (h : ∀ t, c.fires t = c'.fires t)
include h

theorem isCandidate_congr (bound : Int) (t : DateTime) :
    c.IsCandidate first bound t ↔ c'.IsCandidate first bound t := by
  constructor
  · apply isCandidate_mono
    intro t ht
    rw [← h t, ht]
  · apply isCandidate_mono
    intro t ht
    rw [h t, ht]

theorem search_congr (hfirst : first.InRange) : (c.search since first).outcome = (c'.search since first).outcome := by
  have hA := search_isAnswer c since hfirst
  exact (hA.congr (isCandidate_congr h _)).outcome_eq (search_isAnswer c' since hfirst)

theorem nextAfter_congr : c.nextAfter now = c'.nextAfter now :=
  search_congr h (Slot.inRange_of now).next

theorem nextFrom_congr : c.nextFrom now = c'.nextFrom now :=
  search_congr h (Slot.inRange_of now)

theorem finds_congr (n : Nat) : ∀ t : Option DateTime, c.finds n t = c'.finds n t := by
  induction n with
  | zero =>
    intro t
    rfl
  | succ n ih =>
    intro t
    simp only [finds, nextAfter_congr h, ih]

end

end

end Schedule

end CronSchedule
