import Mathlib.Data.List.Forall2

/-!
# Outcomes of computations that can fail

A sequence of computations succeeds if all of its parts do, and its error is that of the first part that fails.
-/

namespace CronSchedule

section
variable {ε δ α β : Type} {x : Except ε α}

theorem bind_of_ok {a : α} (h : x = .ok a) (f : α → Except ε β) : x >>= f = f a := by
  rw [h]
  rfl

theorem bind_eq_ok_iff {f : α → Except ε β} {b : β} : x >>= f = .ok b ↔ ∃ a, x = .ok a ∧ f a = .ok b := by
  cases x with
  | error e =>
    refine ⟨fun h => ?_, fun h => ?_⟩
    · cases h
    · obtain ⟨_, h, _⟩ := h; cases h
  | ok a =>
    refine ⟨fun h => ⟨a, rfl, h⟩, fun h => ?_⟩
    obtain ⟨_, h, h'⟩ := h
    cases h
    exact h'

theorem bind_eq_error_iff {f : α → Except ε β} {e : ε} :
    x >>= f = .error e ↔ x = .error e ∨ ∃ a, x = .ok a ∧ f a = .error e := by
  cases x with
  | error e' =>
    refine ⟨fun h => ?_, fun h => ?_⟩
    · cases h; exact Or.inl rfl
    · rcases h with h | ⟨_, h, _⟩
      · cases h; rfl
      · cases h
  | ok a =>
    refine ⟨fun h => Or.inr ⟨a, rfl, h⟩, fun h => ?_⟩
    rcases h with h | ⟨_, h, h'⟩
    · cases h
    · cases h; exact h'

theorem map_eq_ok_iff {f : α → β} {b : β} : x.map f = .ok b ↔ ∃ a, x = .ok a ∧ f a = b := by
  cases x <;> simp [Except.map]

theorem map_eq_error_iff {f : α → β} {e : ε} : x.map f = .error e ↔ x = .error e := by
  cases x <;> simp [Except.map]

theorem ok_of_mapError_eq_ok {f : ε → δ} {a : α} (h : x.mapError f = .ok a) : x = .ok a := by
  cases x with
  | error e => cases h
  | ok b => cases h; rfl

theorem mapError_map (f : α → β) (r : ε → δ) : (x.map f).mapError r = (x.mapError r).map f := by
  cases x <;> rfl

theorem mapError_bind (f : α → Except ε β) (r : ε → δ) :
    (x >>= f).mapError r = x.mapError r >>= fun a => (f a).mapError r := by
  cases x <;> rfl

end

/-! ## Lists of computations -/

section
variable {ε α β : Type} {g : α → Except ε β}

theorem mapM_eq_ok_iff : ∀ {l : List α} {r : List β},
    l.mapM g = .ok r ↔ List.Forall₂ (fun a b => g a = .ok b) l r
  | [], r => by
    rw [List.mapM_nil, List.forall₂_nil_left_iff]
    exact ⟨fun h => (Except.ok.inj h).symm, fun h => h ▸ rfl⟩
  | a :: l, r => by
    rw [List.mapM_cons, bind_eq_ok_iff, List.forall₂_cons_left_iff]
    refine ⟨fun h => ?_, fun h => ?_⟩
    · obtain ⟨b, hb, h⟩ := h
      obtain ⟨r', hr, h⟩ := bind_eq_ok_iff.1 h
      cases h
      exact ⟨b, r', hb, mapM_eq_ok_iff.1 hr, rfl⟩
    · obtain ⟨b, r', hb, hr, rfl⟩ := h
      exact ⟨b, hb, bind_eq_ok_iff.2 ⟨r', mapM_eq_ok_iff.2 hr, rfl⟩⟩

theorem exists_mapM_eq_ok_iff {l : List α} : (∃ r, l.mapM g = .ok r) ↔ ∀ a ∈ l, ∃ b, g a = .ok b := by
  induction l with
  | nil => simp [pure, Except.pure]
  | cons a l ih =>
    rw [List.forall_mem_cons, ← ih]
    simp only [mapM_eq_ok_iff, List.forall₂_cons_left_iff]
    constructor
    · intro h
      obtain ⟨_, b, r, hb, hr, _⟩ := h
      exact ⟨⟨b, hb⟩, r, hr⟩
    · intro h
      obtain ⟨⟨b, hb⟩, r, hr⟩ := h
      exact ⟨b :: r, b, r, hb, hr, rfl⟩

theorem mem_iff_of_mapM_eq_ok {l : List α} {r : List β} (h : l.mapM g = .ok r) {b : β} :
    b ∈ r ↔ ∃ a ∈ l, g a = .ok b := by
  rw [mapM_eq_ok_iff] at h
  induction h with
  | nil => simp
  | cons hb _ ih => simp [ih, hb, eq_comm]

/-- The error of a list is that of its first member that fails. -/
theorem mapM_eq_error_iff {e : ε} {l : List α} : l.mapM g = .error e ↔
    ∃ before a after, l = before ++ a :: after ∧ (∀ x ∈ before, ∃ b, g x = .ok b) ∧ g a = .error e := by
  constructor
  · intro h
    induction l with
    | nil => cases h
    | cons a l ih =>
      rw [List.mapM_cons] at h
      rcases bind_eq_error_iff.1 h with h | ⟨b, hb, h⟩
      · exact ⟨[], a, l, rfl, by simp, h⟩
      rcases bind_eq_error_iff.1 h with h | ⟨r, _, h⟩
      · obtain ⟨before, c, after, rfl, hbefore, hc⟩ := ih h
        refine ⟨a :: before, c, after, rfl, ?_, hc⟩
        simpa [hb] using hbefore
      · cases h
  · intro h
    obtain ⟨before, a, after, rfl, hbefore, ha⟩ := h
    induction before with
    | nil =>
      rw [List.nil_append, List.mapM_cons]
      exact bind_eq_error_iff.2 (Or.inl ha)
    | cons x before ih =>
      obtain ⟨b, hb⟩ := hbefore x List.mem_cons_self
      rw [List.cons_append, List.mapM_cons, bind_of_ok hb, ih fun y hy => hbefore y (List.mem_cons_of_mem x hy)]
      rfl

theorem mapError_mapM {δ : Type} (r : ε → δ) (l : List α) :
    (l.mapM g).mapError r = l.mapM fun a => (g a).mapError r := by
  induction l with
  | nil => rfl
  | cons a l ih =>
    rw [List.mapM_cons, List.mapM_cons, mapError_bind]
    refine bind_congr fun b => ?_
    rw [mapError_bind, ih]
    rfl

end

end CronSchedule
