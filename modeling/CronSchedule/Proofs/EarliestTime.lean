import CronSchedule.Proofs.SearchRefinement
import CronSchedule.Proofs.TimeOrder

/-!
# A search finds the earliest time

From the first slot on and before the bound, a search finds the earliest minute at which the schedule fires, and
it fails just if there is none (`search_isAnswer`). Said of minutes, that is the earliest one after a time, or
from a time on (`next_isAnswer`).
-/

namespace CronSchedule

structure IsEarliest (P : DateTime → Prop) (t : DateTime) : Prop where
  mem : P t
  le : ∀ x, P x → t.minuteNumber ≤ x.minuteNumber

/-- The earliest of the times `P`, or the error `failure` if there is none. -/
structure IsAnswer (P : DateTime → Prop) (failure : Exhausted) (outcome : Except Exhausted DateTime) : Prop where
  ok_iff : ∀ x, outcome = .ok x ↔ IsEarliest P x
  error_iff : ∀ e, outcome = .error e ↔ e = failure ∧ ∀ x, ¬ P x

theorem IsEarliest.unique {P : DateTime → Prop} (hP : ∀ x, P x → x.IsMinute) {a b : DateTime}
    (ha : IsEarliest P a) (hb : IsEarliest P b) : a = b :=
  DateTime.eq_of_minuteNumber_eq (hP a ha.mem) (hP b hb.mem) (Int.le_antisymm (ha.le b hb.mem) (hb.le a ha.mem))

theorem isAnswer_ok {P : DateTime → Prop} (hP : ∀ x, P x → x.IsMinute) {failure : Exhausted} {t : DateTime}
    (h : IsEarliest P t) : IsAnswer P failure (.ok t) := by
  refine ⟨fun x => ⟨fun hx => ?_, fun hx => ?_⟩, fun e => ⟨fun he => ?_, fun he => ?_⟩⟩
  · cases hx
    exact h
  · rw [h.unique hP hx]
  · cases he
  · exact absurd h.mem (he.2 t)

theorem isAnswer_error {P : DateTime → Prop} {failure : Exhausted} (h : ∀ x, ¬ P x) :
    IsAnswer P failure (.error failure) := by
  refine ⟨fun x => ⟨fun hx => ?_, fun hx => ?_⟩, fun e => ⟨fun he => ?_, fun he => ?_⟩⟩
  · cases hx
  · exact absurd hx.mem (h x)
  · cases he
    exact ⟨rfl, h⟩
  · rw [he.1]

theorem IsAnswer.congr {P Q : DateTime → Prop} {failure : Exhausted} {outcome : Except Exhausted DateTime}
    (h : ∀ x, P x ↔ Q x) (hP : IsAnswer P failure outcome) : IsAnswer Q failure outcome := by
  have : P = Q := funext fun x => propext (h x)
  exact this ▸ hP

theorem IsAnswer.outcome_eq {P : DateTime → Prop} {failure : Exhausted} {outcome outcome' : Except Exhausted DateTime}
    (h : IsAnswer P failure outcome) (h' : IsAnswer P failure outcome') : outcome = outcome' := by
  cases outcome with
  | ok x => exact ((h'.ok_iff x).2 ((h.ok_iff x).1 rfl)).symm
  | error e => exact ((h'.error_iff e).2 ((h.error_iff e).1 rfl)).symm

theorem IsAnswer.fails_iff {P : DateTime → Prop} {failure : Exhausted} {outcome : Except Exhausted DateTime}
    (h : IsAnswer P failure outcome) : (∃ e, outcome = .error e) ↔ ¬ ∃ x, P x := by
  refine ⟨fun he => ?_, fun hn => ⟨failure, (h.error_iff failure).2 ⟨rfl, fun x hx => hn ⟨x, hx⟩⟩⟩⟩
  obtain ⟨e, he⟩ := he
  exact fun ⟨x, hx⟩ => ((h.error_iff e).1 he).2 x hx

theorem IsAnswer.succeeds_iff {P : DateTime → Prop} {failure : Exhausted} {outcome : Except Exhausted DateTime}
    (h : IsAnswer P failure outcome) : (∃ x, outcome = .ok x) ↔ ∃ x, P x := by
  cases outcome with
  | ok x => exact ⟨fun _ => ⟨x, ((h.ok_iff x).1 rfl).mem⟩, fun _ => ⟨x, rfl⟩⟩
  | error e =>
    have hn := h.fails_iff.1 ⟨e, rfl⟩
    refine ⟨fun hx => ?_, fun hx => absurd hx hn⟩
    obtain ⟨x, hx⟩ := hx
    cases hx

namespace Schedule

/-- The minutes from the slot `first` on and before the year `bound` at which the schedule fires. -/
structure IsCandidate (c : Schedule) (first : Slot) (bound : Int) (t : DateTime) : Prop where
  isMinute : t.IsMinute
  le_rank : first.rank ≤ (Slot.of t).rank
  year_lt : t.date.year < bound
  fires : c.fires t = true

section
variable {c : Schedule} {bound : Int} {s : Slot}

theorem isCandidate_of_fires {t : DateTime} (hb : s.year < bound) (h : c.verdict s = .fires t) :
    c.IsCandidate s bound t := by
  obtain ⟨ht, hf⟩ := verdict_eq_fires_iff.1 h
  obtain ⟨rfl, hm⟩ := Slot.time?_eq_some_iff.1 ht
  exact ⟨hm, Int.le_refl _, hb, hf⟩

theorem isCandidate_next {u : TimeUnit} (hs : s.InRange) (h : c.verdict s = .rulesOut u) (x : DateTime) :
    c.IsCandidate s.next bound x ↔ c.IsCandidate s bound x := by
  have hr := Slot.rank_next hs
  refine ⟨fun hx => ⟨hx.isMinute, ?_, hx.year_lt, hx.fires⟩, fun hx => ⟨hx.isMinute, ?_, hx.year_lt, hx.fires⟩⟩
  · have := hx.le_rank
    omega
  · have hle := hx.le_rank
    by_cases heq : s.rank = (Slot.of x).rank
    · -- the slot itself was turned down
      have hxs : s.time? = some x :=
        Slot.time?_eq_some_iff.2 ⟨(Slot.rank_inj hs (Slot.inRange_of x) heq).symm, hx.isMinute⟩
      have hv : c.verdict s = .fires x := verdict_eq_fires_iff.2 ⟨hxs, hx.fires⟩
      rw [h] at hv
      cases hv
    · omega

theorem firstFiring?_isEarliest (c : Schedule) (bound : Int) (hs : s.InRange) :
    match c.firstFiring? bound s with
    | some t => IsEarliest (c.IsCandidate s bound) t
    | none => ∀ x, ¬ c.IsCandidate s bound x := by
  induction s using firstFiring?.induct c bound with
  | case1 s hb t hv =>
    rw [firstFiring?_of_fires hb hv]
    have ht := isCandidate_of_fires hb hv
    obtain ⟨rfl, -⟩ := Slot.time?_eq_some_iff.1 (verdict_eq_fires_iff.1 hv).1
    exact ⟨ht, fun x hx => Slot.rank_of_le_iff.1 hx.le_rank⟩
  | case2 s hb u hv ih =>
    have hP : c.IsCandidate s.next bound = c.IsCandidate s bound :=
      funext fun x => propext (isCandidate_next hs hv x)
    rw [firstFiring?_of_rulesOut hb hv, ← hP]
    exact ih hs.next
  | case3 s hb =>
    rw [firstFiring?_of_le (Int.not_lt.mp hb)]
    intro x hx
    have := Slot.year_le_of_rank_le hs (Slot.inRange_of x) hx.le_rank
    have := hx.year_lt
    simp only [Slot.of] at *
    omega

end

theorem search_isAnswer (c : Schedule) (since : DateTime) {first : Slot} (h : first.InRange) :
    IsAnswer (c.IsCandidate first (first.year + 2)) ⟨since, first.year + 2⟩ (c.search since first).outcome := by
  have hE := firstFiring?_isEarliest c (first.year + searchYears) h
  rw [outcome_search, found_walk h]
  cases hf : c.firstFiring? (first.year + searchYears) first with
  | some t =>
    rw [hf] at hE
    exact isAnswer_ok (fun x hx => hx.isMinute) hE
  | none =>
    rw [hf] at hE
    exact isAnswer_error hE

theorem nextAfter_isAnswer (c : Schedule) (t : DateTime) :
    IsAnswer (c.IsCandidate (Slot.of t).next ((Slot.of t).next.year + 2)) ⟨t, (Slot.of t).next.year + 2⟩
      (c.nextAfter t) :=
  search_isAnswer c t (Slot.inRange_of t).next

theorem nextFrom_isAnswer (c : Schedule) (t : DateTime) :
    IsAnswer (c.IsCandidate (Slot.of t) (t.date.year + 2)) ⟨t, t.date.year + 2⟩ (c.nextFrom t) :=
  search_isAnswer c t (Slot.inRange_of t)

/-- Both searches, said of minutes: the first is for a time after the minute of `t`, the second from it on. -/
theorem next_isAnswer (c : Schedule) (t : DateTime) :
    let year := (Slot.of t).next.year
    IsAnswer
        (fun x => x.IsMinute ∧ t.truncate.minuteNumber < x.minuteNumber ∧ c.fires x = true ∧ x.date.year < year + 2)
        ⟨t, year + 2⟩ (c.nextAfter t) ∧
      IsAnswer
        (fun x => x.IsMinute ∧ t.truncate.minuteNumber ≤ x.minuteNumber ∧ c.fires x = true ∧
          x.date.year < t.date.year + 2)
        ⟨t, t.date.year + 2⟩ (c.nextFrom t) := by
  constructor
  · refine (nextAfter_isAnswer c t).congr fun x => ?_
    rw [DateTime.minuteNumber_truncate, ← Slot.rank_next_of_le_iff]
    exact ⟨fun h => ⟨h.isMinute, h.le_rank, h.fires, h.year_lt⟩, fun ⟨h₁, h₂, h₃, h₄⟩ => ⟨h₁, h₂, h₄, h₃⟩⟩
  · refine (nextFrom_isAnswer c t).congr fun x => ?_
    rw [DateTime.minuteNumber_truncate, ← Slot.rank_of_le_iff]
    exact ⟨fun h => ⟨h.isMinute, h.le_rank, h.fires, h.year_lt⟩, fun ⟨h₁, h₂, h₃, h₄⟩ => ⟨h₁, h₂, h₄, h₃⟩⟩

end Schedule

end CronSchedule
