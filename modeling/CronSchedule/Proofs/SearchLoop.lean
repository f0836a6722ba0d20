import CronSchedule.Proofs.Rejections
import CronSchedule.Proofs.SearchRounds
import CronSchedule.Proofs.SlotCounting

/-!
# The loop of a search

At every round the slot is in range and lies before the bound, or it is the first slot of the year that bounds the
search: no unit reaches over the end of a year, so a step into that year leads to 1 January (`WithinBound.after`). Since
ranks grow from round to round, the rounds come to an end whatever the schedule is, and no two of them look at the same
slot (`searchFrom_invariant`).
-/

namespace CronSchedule

namespace Slot

section
variable {s : Slot} {bound : Int}

/-! ## What holds at every round -/

structure WithinBound (bound : Int) (s : Slot) : Prop where
  inRange : s.InRange
  year_le : s.year ≤ bound
  eq_newYear : s.year = bound → s = newYear bound

theorem WithinBound.of_lt (hs : s.InRange) (h : s.year < bound) : s.WithinBound bound :=
  ⟨hs, Int.le_of_lt h, fun heq => absurd heq (Int.ne_of_lt h)⟩

theorem WithinBound.after (h : s.WithinBound bound) (hb : s.year < bound) (u : TimeUnit) :
    (s.after u).WithinBound bound := by
  have hr := h.inRange.after u
  rcases s.year_after_or u with hyear | hnew
  · exact .of_lt hr (hyear ▸ hb)
  · have hle : (s.after u).year ≤ bound := by
      rw [hnew]
      exact hb
    refine ⟨hr, hle, fun heq => ?_⟩
    rw [hnew] at heq ⊢
    rw [← heq]
    rfl

theorem WithinBound.rank_le (h : s.WithinBound bound) : s.rank ≤ (newYear bound).rank := by
  by_cases heq : s.year = bound
  · exact Int.le_of_eq (congrArg rank (h.eq_newYear heq))
  · have hyear := h.year_le
    have hr := h.inRange
    unfold InRange at hr
    simp only [rank, newYear]
    omega

end

end Slot

namespace Schedule

section
variable {c : Schedule} {bound : Int} {m n : Nat} {s x y : Slot}

/-! ## Rounds in a row -/

theorem Rounds.withinBound (h : c.Rounds bound n s x) (hs : s.WithinBound bound) : x.WithinBound bound := by
  induction h with
  | none s => exact hs
  | next hb _ _ ih => exact ih (hs.after hb _)

/-- Each round raises the rank. -/
theorem Rounds.rank_le (h : c.Rounds bound n s x) (hs : s.InRange) : s.rank + n ≤ x.rank := by
  induction h with
  | none s => exact Int.le_of_eq (Int.add_zero _)
  | @next n s last u _ _ _ ih =>
    have hrest := ih (hs.after u)
    have hlt := Slot.rank_lt_rank_after hs u
    omega

theorem Rounds.unique (hx : c.Rounds bound n s x) (hy : c.Rounds bound n s y) : x = y := by
  induction hx with
  | none s =>
    cases hy
    rfl
  | next _ hv _ ih =>
    cases hy with
    | next _ hv' hrest =>
      cases hv.symm.trans hv'
      exact ih hrest

theorem Rounds.split (h : c.Rounds bound (m + n) s y) : ∃ x, c.Rounds bound m s x ∧ c.Rounds bound n x y := by
  induction m generalizing s with
  | zero =>
    rw [Nat.zero_add] at h
    exact ⟨s, .none s, h⟩
  | succ m ih =>
    rw [Nat.add_right_comm] at h
    cases h with
    | next hb hv hrest =>
      obtain ⟨x, hx, hy⟩ := ih hrest
      exact ⟨x, .next hb hv hx, hy⟩

theorem Rounds.before (hs : s.WithinBound bound) (hmn : m < n) (hx : c.Rounds bound m s x)
    (hy : c.Rounds bound n s y) : x.Before y := by
  obtain ⟨k, rfl⟩ := Nat.exists_eq_add_of_lt hmn
  obtain ⟨x', hx', hrest⟩ := Rounds.split (n := k + 1) hy
  rw [← hx.unique hx'] at hrest
  have hxr := (hx.withinBound hs).inRange
  have hrank := hrest.rank_le hxr
  apply (Slot.rank_lt_iff hxr (hy.withinBound hs).inRange).1
  omega

/-! ## The end of the rounds -/

/-- No date fills the slots of 30 February, so a whole hour of them at least is passed over in one round. -/
theorem le_minutesLeft_of_february {year : Int} {u : TimeUnit} (hv : c.verdict ⟨year, 2, 30, 0, 0⟩ = .rulesOut u) :
    60 ≤ (⟨year, 2, 30, 0, 0⟩ : Slot).minutesLeft u := by
  cases u with
  | minute =>
    obtain ⟨-, ⟨d, hd, -⟩, -⟩ := verdict_eq_rulesOut_iff.1 hv
    obtain ⟨-, hmonth, hday⟩ := Date.ofParts?_eq_some_iff.1 hd
    have hmax := Date.day_le_of_february hmonth
    rw [hday] at hmax
    have hday' : 30 ≤ 29 := hmax
    exact absurd hday' (by decide)
  | hour => simp only [Slot.minutesLeft]; omega
  | day => simp only [Slot.minutesLeft]; omega
  | month => simp only [Slot.minutesLeft]; omega

/-- A search that begins before the last February has one round less at least than there are slots up to its bound. -/
theorem Rounds.lt_of_february (h : c.Rounds bound n s x) (hs : s.WithinBound bound)
    (hle : s.rank ≤ (⟨bound - 1, 2, 30, 0, 0⟩ : Slot).rank) : s.rank + n < (Slot.newYear bound).rank := by
  have hlt : (⟨bound - 1, 2, 30, 0, 0⟩ : Slot).rank < (Slot.newYear bound).rank := by
    simp only [Slot.rank, Slot.newYear]
    omega
  induction h with
  | none s => omega
  | @next n s last u hb hv hrest ih =>
    have hafter := hs.after hb u
    have hstep := Slot.rank_lt_rank_after hs.inRange u
    by_cases hle' : (s.after u).rank ≤ (⟨bound - 1, 2, 30, 0, 0⟩ : Slot).rank
    · have hrounds := ih hafter hle'
      omega
    have hrounds := hrest.rank_le hafter.inRange
    have hlast := (hrest.withinBound hafter).rank_le
    by_cases heq : s.rank = (⟨bound - 1, 2, 30, 0, 0⟩ : Slot).rank
    · have hfeb : s = ⟨bound - 1, 2, 30, 0, 0⟩ := Slot.rank_inj hs.inRange (by simp [Slot.InRange]) heq
      have hrank := Slot.rank_after_eq hs.inRange u
      rw [hfeb] at hv
      have hleft := le_minutesLeft_of_february hv
      rw [← hfeb] at hleft
      omega
    · omega

theorem Rounds.lt (h : c.Rounds (s.year + 2) n s x) (hs : s.InRange) : n < 2 * 12 * 31 * 24 * 60 := by
  have hbound : s.WithinBound (s.year + 2) := .of_lt hs (by omega)
  have hr := hs
  unfold Slot.InRange at hr
  have hlt := h.lt_of_february hbound (by simp only [Slot.rank]; omega)
  simp only [Slot.rank, Slot.newYear] at hlt
  omega

end

/-- **Loop of a search.** At every round the slot is in range and not past the bound, and it is later than at all rounds
before; its hour and minute are always a time of day, so only its own minute can rule a minute out. There are fewer
rounds than slots of two years, and the search ends where it finds a time or at the first slot of the bounding year.
This holds of any five sets; those of a schedule that was read are neither empty nor out of range. -/
theorem searchFrom_invariant (c : Schedule) (inclusive : Bool) (t : DateTime) :
    let first := if inclusive then Slot.of t else (Slot.of t).next
    let bound := first.year + 2
    (∀ expressions, ofFields expressions = .ok c → c.WellFormed) ∧
      (∀ n x, c.Rounds bound n first x →
        x.InRange ∧ x.year ≤ bound ∧ (∀ d, ∃ y, DateTime.ofParts? d x.hour x.minute 0 0 = some y) ∧
          (c.verdict x = .rulesOut .minute → x.minute ∉ c.minutes) ∧ n < 2 * 12 * 31 * 24 * 60) ∧
      (∀ m n x y, m < n → c.Rounds bound m first x → c.Rounds bound n first y → x.Before y) ∧
      ∃ n last, c.Rounds bound n first last ∧
        ((∃ y, c.searchFrom inclusive t = ⟨[.found y n], .ok y⟩ ∧ c.verdict last = .fires y ∧ last.year < bound) ∨
          c.searchFrom inclusive t = ⟨[.exhausted ⟨t, bound⟩ n], .error ⟨t, bound⟩⟩ ∧ last = ⟨bound, 1, 1, 0, 0⟩) := by
  intro first bound
  have hfirst : first.InRange := by
    cases inclusive
    · exact (Slot.inRange_of t).next
    · exact Slot.inRange_of t
  have hbound : first.WithinBound bound := .of_lt hfirst (Int.lt_add_of_pos_right first.year (by decide))
  refine ⟨fun _ h => wellFormed_of_ofFields h, fun n x hx => ?_, fun m n x y hmn hx hy => hx.before hbound hmn hy, ?_⟩
  · have hw := hx.withinBound hbound
    have htime := isTimeOfDay_minute hw.inRange.2.2.1 hw.inRange.2.2.2
    refine ⟨hw.inRange, hw.year_le, fun d => ?_, fun hv => (not_mem_minutes_of_rulesOut hw.inRange hv).2, hx.lt hfirst⟩
    exact ⟨⟨d, x.hour, x.minute, 0, 0, htime⟩, DateTime.ofParts?_eq_some_iff.2 ⟨rfl, rfl, rfl, rfl, rfl⟩⟩
  · have hrounds := rounds_walk c bound first
    have hlast := last_walk c bound first
    refine ⟨_, _, hrounds, ?_⟩
    cases hw : (c.walk bound first).found with
    | some y =>
      rw [hw] at hlast
      exact Or.inl ⟨y, search_of_found hw, hlast.2, hlast.1⟩
    | none =>
      rw [hw] at hlast
      have hend := hrounds.withinBound hbound
      exact Or.inr ⟨search_of_not_found hw, hend.eq_newYear (Int.le_antisymm hend.year_le hlast)⟩

-- No February has a day 31, so the search goes on to its bound.
theorem searchFrom_invariant_february :
    let c : Schedule := ⟨.ofList [0], .ofList [0], .ofList [31], .ofList [2], .full .dayOfWeek, false, true⟩
    let t : DateTime := ⟨⟨2024, 3, 15, by decide⟩, 10, 0, 0, 0, by decide⟩
    let first : Slot := ⟨2024, 3, 15, 10, 1⟩
    ofFields ["0".toList, "0".toList, "31".toList, "2".toList, "*".toList] = .ok c ∧ c.WellFormed ∧
      c.Rounds 2026 0 first first ∧ c.Rounds 2026 1 first ⟨2024, 4, 1, 0, 0⟩ ∧ first.Before ⟨2024, 4, 1, 0, 0⟩ ∧
      ∃ n < 2 * 12 * 31 * 24 * 60, c.Rounds 2026 n first ⟨2026, 1, 1, 0, 0⟩ ∧
        c.searchFrom false t = ⟨[.exhausted ⟨t, 2026⟩ n], .error ⟨t, 2026⟩⟩ := by
  intro c t first
  have hc : ofFields ["0".toList, "0".toList, "31".toList, "2".toList, "*".toList] = .ok c := by decide +kernel
  have hzero : c.Rounds 2026 0 first first := .none first
  have hone : c.Rounds 2026 1 first ⟨2024, 4, 1, 0, 0⟩ := .next (u := .month) (by decide) (by decide) (.none _)
  obtain ⟨hread, hround, hbefore, n, last, hrounds, hend⟩ := searchFrom_invariant c false t
  have hlt := (hround n last hrounds).2.2.2.2
  refine ⟨hc, hread _ hc, hzero, hone, hbefore 0 1 _ _ (by decide) hzero hone, n, hlt, ?_⟩
  rcases hend with ⟨y, -, hv, -⟩ | ⟨hsearch, hlast⟩
  · obtain ⟨hm, hd, -, -⟩ := fires_iff.1 (verdict_eq_fires_iff.1 hv).2
    have hmonth : y.date.month = 2 := List.mem_singleton.1 (ValueSet.mem_ofList.1 hm).1
    have hday : y.date.day = 31 := List.mem_singleton.1 (ValueSet.mem_ofList.1 (of_decide_eq_true hd)).1
    have hmax := Date.day_le_of_february hmonth
    omega
  · rw [hlast] at hrounds
    exact ⟨hrounds, hsearch⟩

end Schedule

end CronSchedule
