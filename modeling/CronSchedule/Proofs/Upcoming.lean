import CronSchedule.Proofs.EarliestTime

/-!
# The times to come

Each search of a row starts after the time that the one before it found (`upcoming_of_ok`), and with the first that
finds none the row is at its end for good (`upcoming_of_error`). What is found is the schedule itself, up to the last
time and without a gap (`upcoming_isListing`): a time passed over by one search would be an earlier answer to it.
-/

namespace CronSchedule

namespace Schedule

/-- The minutes that a search after `t` can come to. -/
structure InReach (c : Schedule) (t x : DateTime) : Prop where
  isMinute : x.IsMinute
  later : t.minuteNumber < x.minuteNumber
  fires : c.fires x = true
  year_lt : x.date.year < (Slot.of t).next.year + 2

/-- `times` is what `n` calls in a row after `now` have to find before they find none. -/
structure IsListing (c : Schedule) (now : DateTime) (n : Nat) (times : List DateTime) : Prop where
  length_le : times.length ≤ n
  isMinute : ∀ t ∈ times, t.IsMinute
  fires : ∀ t ∈ times, c.fires t = true
  increasing : (now :: times).Pairwise fun a b => a.minuteNumber < b.minuteNumber
  complete : ∀ last ∈ times, ∀ x : DateTime, x.IsMinute → c.fires x = true → now.minuteNumber < x.minuteNumber →
    x.minuteNumber ≤ last.minuteNumber → x ∈ times
  /-- Call `i` comes after the time `t`, and it is the first to find none just if there is none in reach of `t`. -/
  ends_iff : ∀ i < n, ∀ t, (now :: times)[i]? = some t → (times.length = i ↔ ∀ x, ¬ c.InReach t x)

section
variable {c : Schedule} {t x : DateTime}

theorem isCandidate_iff_inReach :
    c.IsCandidate (Slot.of t).next ((Slot.of t).next.year + 2) x ↔ c.InReach t x := by
  constructor
  · intro h
    exact ⟨h.isMinute, Slot.rank_next_of_le_iff.1 h.le_rank, h.fires, h.year_lt⟩
  · intro h
    exact ⟨h.isMinute, Slot.rank_next_of_le_iff.2 h.later, h.year_lt, h.fires⟩

theorem nextAfter_isAnswer_inReach (c : Schedule) (t : DateTime) :
    IsAnswer (c.InReach t) ⟨t, (Slot.of t).next.year + 2⟩ (c.nextAfter t) :=
  (nextAfter_isAnswer c t).congr fun _ => isCandidate_iff_inReach

/-! ## One search -/

theorem IsListing.nil {n : Nat} (h : ∀ x, ¬ c.InReach t x) : c.IsListing t n [] := by
  refine ⟨Nat.zero_le n, by simp, by simp, by simp, by simp, ?_⟩
  intro i _ t' ht
  obtain ⟨hi, ht⟩ := List.getElem?_eq_some_iff.1 ht
  have h0 : i = 0 := by simpa using hi
  subst h0
  cases ht
  exact ⟨fun _ => h, fun _ => rfl⟩

/-- No minute between `t` and the earliest one in reach of it fires. -/
theorem eq_of_le_earliest (hx : IsEarliest (c.InReach t) x) {y : DateTime} (hm : y.IsMinute) (hf : c.fires y = true)
    (hty : t.minuteNumber < y.minuteNumber) (hyx : y.minuteNumber ≤ x.minuteNumber) : y = x := by
  have hyear := DateTime.year_le_of_minuteNumber_le hyx
  have hreach : c.InReach t y := ⟨hm, hty, hf, Int.lt_of_le_of_lt hyear hx.mem.year_lt⟩
  exact DateTime.eq_of_minuteNumber_eq hm hx.mem.isMinute (Int.le_antisymm hyx (hx.le y hreach))

theorem IsListing.cons {n : Nat} {times : List DateTime} (hx : IsEarliest (c.InReach t) x)
    (h : c.IsListing x n times) : c.IsListing t (n + 1) (x :: times) := by
  have htx := hx.mem.later
  constructor
  case length_le => exact Nat.succ_le_succ h.length_le
  case isMinute => exact List.forall_mem_cons.2 ⟨hx.mem.isMinute, h.isMinute⟩
  case fires => exact List.forall_mem_cons.2 ⟨hx.mem.fires, h.fires⟩
  case increasing =>
    refine List.pairwise_cons.2 ⟨List.forall_mem_cons.2 ⟨htx, ?_⟩, h.increasing⟩
    intro y hy
    exact Int.lt_trans htx ((List.pairwise_cons.1 h.increasing).1 y hy)
  case complete =>
    intro last hlast y hm hf hty hle
    by_cases hyx : y.minuteNumber ≤ x.minuteNumber
    · rw [eq_of_le_earliest hx hm hf hty hyx]
      exact List.mem_cons_self
    · have hxy := Int.not_le.1 hyx
      rcases List.mem_cons.1 hlast with rfl | hlast
      · exact absurd hle hyx
      · exact List.mem_cons_of_mem x (h.complete last hlast y hm hf hxy hle)
  case ends_iff =>
    intro i hi t' ht
    cases i with
    | zero =>
      cases ht
      refine ⟨fun hl => absurd hl (Nat.succ_ne_zero _), fun hn => absurd hx.mem (hn x)⟩
    | succ i =>
      have hends := h.ends_iff i (Nat.lt_of_succ_lt_succ hi) t' ht
      rw [← hends, List.length_cons, Nat.succ_inj]

/-! ## Searches in a row -/

theorem finds_none (c : Schedule) (n : Nat) : c.finds n none = List.replicate n none := by
  induction n with
  | zero => rfl
  | succ n ih =>
    show none :: c.finds n none = _
    rw [ih, List.replicate_succ]

theorem upcoming_of_ok (h : c.nextAfter t = .ok x) (n : Nat) :
    c.upcoming t (n + 1) = some x :: c.upcoming x n := by
  simp only [upcoming, finds, Option.bind_some, h, Except.toOption]

theorem upcoming_of_error {e : Exhausted} (h : c.nextAfter t = .error e) (n : Nat) :
    c.upcoming t n = List.replicate n none := by
  cases n with
  | zero => rfl
  | succ n =>
    simp only [upcoming, finds, Option.bind_some, h, Except.toOption, finds_none]
    rw [List.replicate_succ]

end

/-- **Upcoming times.** The first answers are a listing of the schedule after `now`, and all others are `none`. -/
theorem upcoming_isListing (c : Schedule) (now : DateTime) (n : Nat) :
    ∃ times, c.upcoming now n = times.map some ++ List.replicate (n - times.length) none ∧ c.IsListing now n times := by
  -- by induction on the number of calls; the rest of them starts from the time that the first one finds
  induction n generalizing now with
  | zero => exact ⟨[], rfl, ⟨Nat.le_refl 0, by simp, by simp, by simp, by simp, by simp⟩⟩
  | succ n ih =>
    have hA := nextAfter_isAnswer_inReach c now
    cases hx : c.nextAfter now with
    | error e =>
      refine ⟨[], ?_, .nil ((hA.error_iff e).1 hx).2⟩
      rw [upcoming_of_error hx]
      rfl
    | ok x =>
      obtain ⟨times, hup, hl⟩ := ih x
      refine ⟨x :: times, ?_, .cons ((hA.ok_iff x).1 hx) hl⟩
      rw [upcoming_of_ok hx, hup, List.map_cons, List.cons_append, List.length_cons, Nat.add_sub_add_right]

end Schedule

end CronSchedule
