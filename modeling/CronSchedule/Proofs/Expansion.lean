import CronSchedule.Expression
import CronSchedule.Proofs.TermGrammar
import CronSchedule.Proofs.Words

/-!
# What an expression stands for

An expression is cut into pieces at its commas (`pieces_eq_iff`). It expands if each of them spells a term, and then to
the union of what the terms contain (`expand_meaning`). Every term contains something, and only values of its field, so
the sets of a schedule that was read are neither empty nor out of range.
-/

namespace CronSchedule

/-! ## Values of a term -/

theorem ValueSet.mem_insertStepped {v first last step : Nat} {s : ValueSet} :
    v ∈ s.insertStepped first last step ↔ v ∈ s ∨ v < 64 ∧ v ≤ last ∧ ∃ i, v = first + i * step := by
  unfold insertStepped
  by_cases h : first ≤ last
  · rw [if_pos h, mem_insertAll, List.mem_range']
    refine or_congr_right ⟨fun h' => ?_, fun h' => ?_⟩
    · obtain ⟨⟨i, hi, rfl⟩, h64⟩ := h'
      have hle : i * step ≤ last - first :=
        Nat.le_trans (Nat.mul_le_mul_right step (Nat.le_of_lt_succ hi)) (Nat.div_mul_le_self _ _)
      rw [Nat.mul_comm step i] at h64 ⊢
      exact ⟨h64, by omega, i, rfl⟩
    · obtain ⟨h64, hlast, i, rfl⟩ := h'
      refine ⟨?_, h64⟩
      rcases Nat.eq_zero_or_pos step with rfl | hpos
      · exact ⟨0, Nat.succ_pos _, by simp⟩
      · refine ⟨i, Nat.lt_succ_of_le ((Nat.le_div_iff_mul_le hpos).2 (by omega)), ?_⟩
        rw [Nat.mul_comm]
  · rw [if_neg h]
    refine ⟨Or.inl, fun h' => ?_⟩
    rcases h' with h' | ⟨_, hlast, i, rfl⟩
    · exact h'
    · omega

theorem ValueSet.mem_stepped {v first last step : Nat} (h : last < 64) :
    v ∈ stepped first last step ↔ v ≤ last ∧ ∃ i, v = first + i * step := by
  unfold stepped
  rw [mem_insertStepped]
  refine ⟨fun h' => ?_, fun h' => Or.inr ⟨Nat.lt_of_le_of_lt h'.1 h, h'⟩⟩
  rcases h' with h' | h'
  · exact absurd h' (not_mem_empty v)
  · exact h'.2

theorem ValueSet.mem_full {f : Field} {v : Nat} : v ∈ full f ↔ f.min ≤ v ∧ v ≤ f.max := by
  unfold full
  rw [mem_stepped f.max_lt]
  constructor
  · rintro ⟨hle, i, rfl⟩
    exact ⟨Nat.le_add_right _ _, hle⟩
  · intro h
    exact ⟨h.2, v - f.min, by omega⟩

section
variable {f : Field} {text : List Char} {t : Term} {v : Nat}

theorem Spells.mem_range (h : Spells f text t) (hv : t.Contains f v) : f.min ≤ v ∧ v ≤ f.max := by
  cases h with
  | star => obtain ⟨hle, i, rfl⟩ := hv; exact ⟨Nat.le_add_right _ _, hle⟩
  | starStep => obtain ⟨hle, i, rfl⟩ := hv; exact ⟨Nat.le_add_right _ _, hle⟩
  | range hx hy =>
    obtain ⟨hle, i, rfl⟩ := hv
    exact ⟨Nat.le_trans hx.mem_range.1 (Nat.le_add_right _ _), Nat.le_trans hle hy.mem_range.2⟩
  | rangeStep hx hy =>
    obtain ⟨hle, i, rfl⟩ := hv
    exact ⟨Nat.le_trans hx.mem_range.1 (Nat.le_add_right _ _), Nat.le_trans hle hy.mem_range.2⟩
  | value hx => cases hv; exact hx.mem_range

theorem Spells.exists_contains (h : Spells f text t) : ∃ v, t.Contains f v := by
  cases h with
  | star => exact ⟨f.min, Nat.le_of_lt f.min_lt_max, 0, by simp⟩
  | starStep => exact ⟨f.min, Nat.le_of_lt f.min_lt_max, 0, by simp⟩
  | @range a b x y hx hy hlt => exact ⟨x, Nat.le_of_lt hlt, 0, by simp⟩
  | @rangeStep a b n x y k hx hy hlt => exact ⟨x, Nat.le_of_lt hlt, 0, by simp⟩
  | @value _ x => exact ⟨x, rfl⟩

theorem Spells.mem_values_iff (h : Spells f text t) : v ∈ t.values f ↔ t.Contains f v := by
  cases h with
  | star => exact ValueSet.mem_stepped f.max_lt
  | starStep => exact ValueSet.mem_stepped f.max_lt
  | range hx hy => exact ValueSet.mem_stepped (Nat.lt_of_le_of_lt hy.mem_range.2 f.max_lt)
  | rangeStep hx hy => exact ValueSet.mem_stepped (Nat.lt_of_le_of_lt hy.mem_range.2 f.max_lt)
  | @value _ x hx =>
    have h64 : x < 64 := Nat.lt_of_le_of_lt hx.mem_range.2 f.max_lt
    unfold Term.values Term.Contains
    rw [ValueSet.mem_ofList, List.mem_singleton]
    exact ⟨fun hv => hv.1, fun hv => ⟨hv, hv ▸ h64⟩⟩

end

/-! ## Pieces -/

theorem pieces_ne_nil (s : List Char) : pieces s ≠ [] :=
  List.splitOnP_ne_nil _ _

theorem comma_not_mem_of_mem_pieces {s piece : List Char} (h : piece ∈ pieces s) : ',' ∉ piece := by
  intro hc
  have hne := not_of_mem_splitOnP (trim s) piece h ',' hc
  exact absurd hne (by decide)

/-- The pieces are the one way to write the trimmed text as texts without commas, with a comma between each and the
next. -/
theorem pieces_eq_iff {s : List Char} {texts : List (List Char)} :
    pieces s = texts ↔ texts ≠ [] ∧ (∀ text ∈ texts, ',' ∉ text) ∧ [','].intercalate texts = trim s := by
  constructor
  · rintro rfl
    exact ⟨pieces_ne_nil s, fun _ h => comma_not_mem_of_mem_pieces h, List.intercalate_splitOn ','⟩
  · intro h
    obtain ⟨hne, hcomma, hs⟩ := h
    unfold pieces
    rw [← hs]
    exact List.splitOn_intercalate ',' hcomma hne

/-! ## Expressions -/

section
variable {f : Field} {s : List Char} {terms : List Term} {S : ValueSet}

theorem readTerms_eq_ok_iff : readTerms f s = .ok terms ↔ List.Forall₂ (Spells f) (pieces s) terms := by
  have h : (fun text t => Term.read f text = .ok t) = Spells f :=
    funext fun text => funext fun t => propext read_eq_ok_iff
  unfold readTerms
  rw [mapM_eq_ok_iff, h]

theorem expand_eq_ok_iff :
    expand f s = .ok S ↔ ∃ terms, List.Forall₂ (Spells f) (pieces s) terms ∧ valuesOf f terms = S := by
  unfold expand
  simp only [map_eq_ok_iff, readTerms_eq_ok_iff]

theorem field_of_expand {e : TermError} (h : expand f s = .error e) : e.field = f := by
  obtain ⟨_, text, _, _, _, ht⟩ := mapM_eq_error_iff.1 (map_eq_error_iff.1 h)
  exact field_of_read ht

theorem exists_spells_of_mem {texts : List (List Char)} (h : List.Forall₂ (Spells f) texts terms) {t : Term}
    (ht : t ∈ terms) : ∃ text, Spells f text t := by
  induction h with
  | nil => cases ht
  | cons hs _ ih =>
    rcases List.mem_cons.1 ht with rfl | ht
    · exact ⟨_, hs⟩
    · exact ih ht

theorem mem_valuesOf_iff_contains {texts : List (List Char)} (h : List.Forall₂ (Spells f) texts terms) {v : Nat} :
    v ∈ valuesOf f terms ↔ ∃ t ∈ terms, t.Contains f v := by
  rw [mem_valuesOf]
  refine exists_congr fun t => and_congr_right fun ht => ?_
  obtain ⟨text, hs⟩ := exists_spells_of_mem h ht
  exact hs.mem_values_iff

theorem mem_range_of_expand (h : expand f s = .ok S) {v : Nat} (hv : v ∈ S) : f.min ≤ v ∧ v ≤ f.max := by
  obtain ⟨terms, hs, rfl⟩ := expand_eq_ok_iff.1 h
  obtain ⟨t, ht, hc⟩ := (mem_valuesOf_iff_contains hs).1 hv
  obtain ⟨text, hst⟩ := exists_spells_of_mem hs ht
  exact hst.mem_range hc

theorem exists_mem_of_expand (h : expand f s = .ok S) : ∃ v, v ∈ S := by
  obtain ⟨terms, hs, rfl⟩ := expand_eq_ok_iff.1 h
  obtain ⟨p, ps, hp⟩ := List.exists_cons_of_ne_nil (pieces_ne_nil s)
  rw [hp] at hs
  cases hs with
  | @cons _ t _ ts hst hrest =>
    obtain ⟨v, hv⟩ := hst.exists_contains
    exact ⟨v, (mem_valuesOf_iff_contains (.cons hst hrest)).2 ⟨t, List.mem_cons_self, hv⟩⟩

end

/-- **Meaning of an expression.** The values are those of the terms that the pieces spell, and without such terms
there is an error for the field. -/
theorem expand_meaning (f : Field) (s : List Char) :
    (∀ S, expand f s = .ok S ↔
      ∃ terms, List.Forall₂ (Spells f) (pieces s) terms ∧ ∀ v, v ∈ S ↔ ∃ t ∈ terms, t.Contains f v) ∧
    ((∃ e, expand f s = .error e ∧ e.field = f) ↔ ¬ ∃ terms, List.Forall₂ (Spells f) (pieces s) terms) := by
  refine ⟨fun S => ?_, fun h => ?_, fun h => ?_⟩
  · rw [expand_eq_ok_iff]
    refine exists_congr fun terms => and_congr_right fun hs => ?_
    refine ⟨fun h v => ?_, fun h => ValueSet.ext fun v => ?_⟩
    · rw [← h, mem_valuesOf_iff_contains hs]
    · rw [h, mem_valuesOf_iff_contains hs]
  · obtain ⟨e, he, _⟩ := h
    intro hs
    obtain ⟨terms, hs⟩ := hs
    rw [expand_eq_ok_iff.2 ⟨terms, hs, rfl⟩] at he
    cases he
  · cases he : expand f s with
    | ok S =>
      obtain ⟨terms, hs, _⟩ := expand_eq_ok_iff.1 he
      exact absurd ⟨terms, hs⟩ h
    | error e => exact ⟨e, rfl, field_of_expand he⟩

end CronSchedule
