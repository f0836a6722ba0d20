import CronSchedule.Proofs.BlamedTexts
import CronSchedule.ValueSet.Stepping

/-!
# Stepped ranges

Stepping puts in what is still missing of the stepped range: a round makes no difference to the values together with
those that are still to come (`total_round`). After a number of rounds the running value has gone up by as many steps
(`running_iterate`), and since it fits in a word it has to come to an end. So stepping adds the values of the range at
the distances that the step divides, and no others (`stepping_adds`).
-/

namespace CronSchedule

namespace ValueSet

/-! ## One value of a stepped range -/

section
variable {s : ValueSet} {first last step v : Nat}

theorem mem_insertStepped_iff_dvd :
    v ∈ s.insertStepped first last step ↔ v ∈ s ∨ v < 64 ∧ (first ≤ v ∧ v ≤ last) ∧ step ∣ v - first := by
  rw [mem_insertStepped]
  refine or_congr_right (and_congr_right fun _ => ?_)
  constructor
  · rintro ⟨hle, i, rfl⟩
    rw [Nat.add_sub_cancel_left]
    exact ⟨⟨Nat.le_add_right _ _, hle⟩, Nat.dvd_mul_left step i⟩
  · rintro ⟨⟨hfirst, hle⟩, i, hi⟩
    refine ⟨hle, i, ?_⟩
    rw [Nat.mul_comm, ← hi]
    omega

theorem insertStepped_of_lt (h : last < first) : s.insertStepped first last step = s :=
  if_neg (Nat.not_le.mpr h)

theorem insertStepped_of_le (h : first ≤ last) :
    s.insertStepped first last step = (s.insert first).insertStepped (first + step) last step := by
  refine ext fun v => ?_
  rw [mem_insertStepped, mem_insertStepped, mem_insert]
  constructor
  · rintro (hv | ⟨h64, hle, i, rfl⟩)
    · exact Or.inl (Or.inl hv)
    cases i with
    | zero => exact Or.inl (Or.inr (by omega))
    | succ i => exact Or.inr ⟨h64, hle, i, by rw [Nat.succ_mul]; omega⟩
  · rintro ((hv | ⟨rfl, h64⟩) | ⟨h64, hle, i, rfl⟩)
    · exact Or.inl hv
    · exact Or.inr ⟨h64, h, 0, by omega⟩
    · exact Or.inr ⟨h64, hle, i + 1, by rw [Nat.succ_mul]; omega⟩

/-- A step that leads past the end adds one value only. -/
theorem insertStepped_of_lt_add (h : first ≤ last) (hstep : last < first + step) :
    s.insertStepped first last step = s.insert first := by
  rw [insertStepped_of_le h, insertStepped_of_lt hstep]

end

/-! ## Rounds -/

namespace Stepping

section
variable {last step w : UInt32} {p : Stepping}

/-- The values that there are in the end. -/
def total (last step : UInt32) (p : Stepping) : ValueSet :=
  match p.running with
  | none => p.values
  | some v => p.values.insertStepped v.toNat last.toNat step.toNat

theorem total_round (last step : UInt32) (p : Stepping) : (p.round last step).total last step = p.total last step := by
  obtain ⟨values, running⟩ := p
  cases running with
  | none => rfl
  | some v =>
    simp only [round, total]
    by_cases hv : v ≤ last
    · have hle : v.toNat ≤ last.toNat := UInt32.le_iff_toNat_le.1 hv
      rw [if_pos hv, insertStepped_of_le hle]
      cases hsum : wordSum? v step with
      | none =>
        -- what does not fit in a word is past the end as well
        have hsize := le_of_wordSum?_eq_none hsum
        have hlast := last.toNat_lt_size
        exact (insertStepped_of_lt (Nat.lt_of_lt_of_le hlast hsize)).symm
      | some w =>
        rw [← wordSum?_eq_some_iff.1 hsum]
    · have hlt : last.toNat < v.toNat := UInt32.lt_iff_toNat_lt.1 (UInt32.not_le.1 hv)
      rw [if_neg hv, insertStepped_of_lt hlt]

theorem running_round (h : (p.round last step).running = some w) :
    ∃ v, p.running = some v ∧ w.toNat = v.toNat + step.toNat := by
  obtain ⟨values, running⟩ := p
  cases running with
  | none => cases h
  | some v =>
    simp only [round] at h
    split at h
    · exact ⟨v, rfl, wordSum?_eq_some_iff.1 h⟩
    · cases h

/-! ## Rounds in a row -/

theorem total_iterate (last step : UInt32) (n : Nat) (p : Stepping) :
    ((round last step)^[n] p).total last step = p.total last step := by
  induction n with
  | zero => rfl
  | succ n ih => rw [Function.iterate_succ_apply', total_round, ih]

theorem running_iterate {n : Nat} (h : ((round last step)^[n] p).running = some w) :
    ∃ v, p.running = some v ∧ w.toNat = v.toNat + n * step.toNat := by
  induction n generalizing w with
  | zero => exact ⟨w, h, by omega⟩
  | succ n ih =>
    rw [Function.iterate_succ_apply'] at h
    obtain ⟨u, hu, hw⟩ := running_round h
    obtain ⟨v, hv, hu⟩ := ih hu
    refine ⟨v, hv, ?_⟩
    rw [hw, hu, Nat.succ_mul, Nat.add_assoc]

/-- There are no more rounds than words. -/
theorem running_iterate_size (hstep : 1 ≤ step) (p : Stepping) : ((round last step)^[UInt32.size] p).running = none := by
  apply Option.eq_none_iff_forall_ne_some.2
  intro w hw
  obtain ⟨v, -, hw⟩ := running_iterate hw
  have hlt := w.toNat_lt_size
  have hmul : UInt32.size * 1 ≤ UInt32.size * step.toNat := Nat.mul_le_mul_left _ (UInt32.le_iff_toNat_le.1 hstep)
  omega

theorem eq_of_running (h : p.running = none) : p = ⟨p.total last step, none⟩ := by
  obtain ⟨values, running⟩ := p
  cases h
  rfl

end

end Stepping

section
variable {first last step : UInt32} {s t : ValueSet}

theorem stepsTo_iff (hstep : 1 ≤ step) :
    StepsTo first last step s t ↔ t = s.insertStepped first.toNat last.toNat step.toNat := by
  constructor
  · rintro ⟨n, hn⟩
    have htotal := Stepping.total_iterate last step n ⟨s, some first⟩
    rw [hn] at htotal
    exact htotal
  · rintro rfl
    refine ⟨UInt32.size, ?_⟩
    rw [Stepping.eq_of_running (Stepping.running_iterate_size hstep _), Stepping.total_iterate]
    rfl

end

/-! ## Terms with a step -/

/-- The set comes from stepping between two values by the step that is written, and nothing in it lies outside. -/
structure SteppedBetween (first last : Nat) (n : List Char) (t : ValueSet) : Prop where
  steps : ∃ k : UInt32, IsStep n k.toNat ∧ StepsTo (.ofNat first) (.ofNat last) k ∅ t
  within : ∀ v ∈ t, first ≤ v ∧ v ≤ last

theorem steppedBetween_of_isStep {first last k : Nat} {n : List Char} (hle : first ≤ last) (hlast : last < 64)
    (hk : IsStep n k) : SteppedBetween first last n (stepped first last k) := by
  have hsize : 64 < UInt32.size := by decide
  have hfirst : (UInt32.ofNat first).toNat = first := UInt32.toNat_ofNat_of_lt' (by omega)
  have hlast' : (UInt32.ofNat last).toNat = last := UInt32.toNat_ofNat_of_lt' (by omega)
  constructor
  · obtain ⟨hpos, hword⟩ : 0 < k ∧ k < UInt32.size := by
      cases hk with
      | numeral _ hpos hlt => exact ⟨hpos, hlt⟩
    have hk' : (UInt32.ofNat k).toNat = k := UInt32.toNat_ofNat_of_lt' hword
    have hstep : 1 ≤ UInt32.ofNat k := UInt32.le_iff_toNat_le.2 (hk'.symm ▸ hpos)
    refine ⟨.ofNat k, hk'.symm ▸ hk, (stepsTo_iff hstep).2 ?_⟩
    rw [hfirst, hlast', hk']
    rfl
  · intro v hv
    obtain ⟨hle, i, rfl⟩ := (mem_stepped hlast).1 hv
    exact ⟨Nat.le_add_right _ _, hle⟩

end ValueSet

section
open ValueSet
variable {f : Field} {t : Term} {p a b n : List Char}

theorem steppedBetween_of_read_star (h : Term.read f ('*' :: '/' :: n) = .ok t) :
    SteppedBetween f.min f.max n (t.values f) := by
  change (Term.readStep f ('*' :: '/' :: n) n).map Term.every = .ok t at h
  obtain ⟨k, hk, rfl⟩ := map_eq_ok_iff.1 h
  exact steppedBetween_of_isStep (Nat.le_of_lt f.min_lt_max) f.max_lt (readStep_eq_ok_iff.1 hk)

theorem Ranges.steppedBetween_of_read (h : Ranges p a b (some n)) (hp : Term.read f p = .ok t) :
    ∃ x y, Denotes f .start a x ∧ Denotes f .stop b y ∧ SteppedBetween x y n (t.values f) := by
  rw [h.read_eq] at hp
  obtain ⟨⟨x, y⟩, hr, ht⟩ := bind_eq_ok_iff.1 hp
  obtain ⟨hx, hy, hlt⟩ := denotes_of_readRange_append h.not_mem hr
  change (Term.readStep f p n).map (Term.range x y) = .ok t at ht
  obtain ⟨k, hk, rfl⟩ := map_eq_ok_iff.1 ht
  have hmax : y < 64 := Nat.lt_of_le_of_lt hy.mem_range.2 f.max_lt
  exact ⟨x, y, hx, hy, steppedBetween_of_isStep (Nat.le_of_lt hlt) hmax (readStep_eq_ok_iff.1 hk)⟩

end

namespace ValueSet

/-- **Stepping.** No sum overflows, stepping is over after some rounds, and it adds the values of the range that are a
number of steps behind the first one: none if the range is empty, only the first if the step leads past the end. For
the terms `*/N` and `A-B/N` they lie between the bounds, whatever the step. -/
theorem stepping_adds (s : ValueSet) (first last step : UInt32) (hstep : 1 ≤ step) :
    (∀ i t v, (Stepping.round last step)^[i] ⟨s, some first⟩ = ⟨t, some v⟩ →
        v.toNat = first.toNat + i * step.toNat) ∧
      (∀ t, StepsTo first last step s t ↔ t = s.insertStepped first.toNat last.toNat step.toNat) ∧
      (∀ v, v ∈ s.insertStepped first.toNat last.toNat step.toNat ↔
        v ∈ s ∨ v < 64 ∧ (first.toNat ≤ v ∧ v ≤ last.toNat) ∧ step.toNat ∣ v - first.toNat) ∧
      (last < first → StepsTo first last step s s) ∧
      (first ≤ last → last.toNat - first.toNat < step.toNat → StepsTo first last step s (s.insert first.toNat)) ∧
      (∀ f n t, Term.read f ('*' :: '/' :: n) = .ok t → SteppedBetween f.min f.max n (t.values f)) ∧
      ∀ f p a b n t, Ranges p a b (some n) → Term.read f p = .ok t →
        ∃ x y, Denotes f .start a x ∧ Denotes f .stop b y ∧ (f.min ≤ x ∧ y ≤ f.max) ∧
          SteppedBetween x y n (t.values f) := by
  refine ⟨fun i t v hi => ?_, fun t => stepsTo_iff hstep, fun v => mem_insertStepped_iff_dvd, fun hlt => ?_,
    fun hle hlt => ?_, fun f n t => steppedBetween_of_read_star, fun f p a b n t h hp => ?_⟩
  · obtain ⟨u, hu, hv⟩ := Stepping.running_iterate (congrArg Stepping.running hi)
    cases hu
    exact hv
  · have hempty := UInt32.lt_iff_toNat_lt.1 hlt
    exact (stepsTo_iff hstep).2 (insertStepped_of_lt hempty).symm
  · have hle := UInt32.le_iff_toNat_le.1 hle
    have hpast := (Nat.sub_lt_iff_lt_add' hle).1 hlt
    exact (stepsTo_iff hstep).2 (insertStepped_of_lt_add hle hpast).symm
  · obtain ⟨x, y, hx, hy, hbetween⟩ := h.steppedBetween_of_read hp
    exact ⟨x, y, hx, hy, ⟨hx.mem_range.1, hy.mem_range.2⟩, hbetween⟩

-- The second value is the greatest word, which no set stores, and a third one would not fit in a word.
theorem stepping_adds_up_to_last_word :
    let s : ValueSet := .ofList [7]
    let p := "fri-sun/2".toList
    (1 : UInt32) ≤ 4294967290 ∧
      (Stepping.round 4294967295 4294967290)^[1] ⟨s, some 5⟩ = ⟨.ofList [5, 7], some 4294967295⟩ ∧
      (4294967295 : UInt32).toNat = (5 : UInt32).toNat + 1 * (4294967290 : UInt32).toNat ∧
      StepsTo 5 4294967295 4294967290 s (.ofList [5, 7]) ∧ StepsTo 9 3 4294967290 s s ∧
      StepsTo 58 63 4294967290 s (.ofList [7, 58]) ∧
      SteppedBetween 1 12 "4294967295".toList (.ofList [1]) ∧
      Ranges p "fri".toList "sun".toList (some "2".toList) ∧ Term.read .dayOfWeek p = .ok (.range 5 7 2) ∧
      ∃ x y, Denotes .dayOfWeek .start "fri".toList x ∧ Denotes .dayOfWeek .stop "sun".toList y ∧
        SteppedBetween x y "2".toList (.ofList [5, 7]) := by
  intro s p
  have hstep : (1 : UInt32) ≤ 4294967290 := by decide
  have hround : (Stepping.round 4294967295 4294967290)^[1] ⟨s, some 5⟩ = ⟨.ofList [5, 7], some 4294967295⟩ := by decide
  have hp : Ranges p "fri".toList "sun".toList (some "2".toList) :=
    .stepped (a := "fri".toList) (b := "sun".toList) (n := "2".toList) (by decide) (by decide) (by decide)
  have hread : Term.read .dayOfWeek p = .ok (.range 5 7 2) := by decide
  obtain ⟨hsum, hends, -, -, -, hstar, hrange⟩ := stepping_adds s 5 4294967295 4294967290 hstep
  have hempty := (stepping_adds s 9 3 4294967290 hstep).2.2.2.1 (by decide)
  have hone := (stepping_adds s 58 63 4294967290 hstep).2.2.2.2.1 (by decide) (by decide)
  obtain ⟨x, y, hx, hy, -, hbetween⟩ := hrange _ _ _ _ _ _ hp hread
  exact ⟨hstep, hround, hsum _ _ _ hround, (hends _).2 (by decide), hempty, hone,
    hstar .month "4294967295".toList (.every 4294967295) (by decide), hp, hread, x, y, hx, hy, hbetween⟩

end ValueSet

end CronSchedule
