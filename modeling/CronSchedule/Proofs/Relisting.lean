import CronSchedule.Proofs.Layout

/-!
# Listing a schedule and reading it back

The listing of a set becomes an expression when commas take the place of its blanks. Each of its pieces is a numeral,
so it expands to the set that was listed, whatever the field (`expand_enumeration`). A schedule that is written in
this way keeps its values. What it loses are the stars: both day fields count then, and it may fire more often
(`ofFields_enumeration`).
-/

namespace CronSchedule

/-- The listing with a comma in the place of each blank. -/
def ValueSet.enumeration (S : ValueSet) : List Char :=
  S.listing.map fun c => if c = ' ' then ',' else c

/-! ## Numerals with commas between them -/

theorem isDigit_of_mem_numeral {n : Nat} {c : Char} (h : c ∈ numeral n) : c.isDigit = true :=
  (isDigit_of_isNumeral (isNumeral_numeral n)).2 c h

theorem isWord_numeral (n : Nat) : IsWord (numeral n) :=
  ⟨(isDigit_of_isNumeral (isNumeral_numeral n)).1, fun _ hc => isBlank_of_isDigit (isDigit_of_mem_numeral hc)⟩

theorem not_mem_numeral {c : Char} (hc : c.isDigit = false) (n : Nat) : c ∉ numeral n := by
  intro h
  rw [isDigit_of_mem_numeral h] at hc
  cases hc

theorem map_replace_of_not_mem {a b : Char} {s : List Char} (h : a ∉ s) :
    s.map (fun c => if c = a then b else c) = s := by
  conv => rhs; rw [← List.map_id s]
  apply List.map_congr_left
  intro c hc
  have hca : c ≠ a := by intro hca; subst hca; exact h hc
  exact if_neg hca

/-- Separators are replaced one by one, as long as the texts between them hold none. -/
theorem map_replace_intercalate {a b : Char} : ∀ {ws : List (List Char)}, (∀ w ∈ ws, a ∉ w) →
    ([a].intercalate ws).map (fun c => if c = a then b else c) = [b].intercalate ws
  | [], _ => rfl
  | [w], h => by
    rw [List.intercalate_singleton, List.intercalate_singleton, map_replace_of_not_mem (h w List.mem_cons_self)]
  | w :: v :: ws, h => by
    rw [List.intercalate_cons_cons, List.intercalate_cons_cons, List.map_append, List.map_append,
      map_replace_of_not_mem (h w List.mem_cons_self),
      map_replace_intercalate fun x hx => h x (List.mem_cons_of_mem w hx), List.map_singleton, if_pos rfl]

section
variable {S : ValueSet}

theorem ValueSet.enumeration_eq (S : ValueSet) : S.enumeration = [','].intercalate (S.toList.map numeral) :=
  map_replace_intercalate (List.forall_mem_map.2 fun v _ => not_mem_numeral (by decide) v)

theorem trim_enumeration (S : ValueSet) : trim S.enumeration = S.enumeration := by
  have hw : ∀ w ∈ S.toList.map numeral, IsWord w := List.forall_mem_map.2 fun v _ => isWord_numeral v
  rw [ValueSet.enumeration_eq, trim_eq_self (isBlank_of_mem_intercalate hw)]

theorem pieces_enumeration (hne : ∃ v, v ∈ S) : pieces S.enumeration = S.toList.map numeral := by
  obtain ⟨v, hv⟩ := hne
  have hcomma : ∀ w ∈ S.toList.map numeral, ',' ∉ w :=
    List.forall_mem_map.2 fun v _ => not_mem_numeral (by decide) v
  have hnil : S.toList.map numeral ≠ [] := List.ne_nil_of_mem (List.mem_map_of_mem (ValueSet.mem_toList.2 hv))
  refine pieces_eq_iff.2 ⟨hnil, hcomma, ?_⟩
  rw [trim_enumeration, ValueSet.enumeration_eq]

/-! ## Reading the numerals -/

theorem spells_numeral {f : Field} {v : Nat} (h : f.min ≤ v ∧ v ≤ f.max) : Spells f (numeral v) (.value v) := by
  have hv := numeralValue_numeral v
  have hd : Denotes f .start (numeral v) (numeralValue (numeral v)) :=
    .numeral (isNumeral_numeral v) (hv.symm ▸ h.1) (hv.symm ▸ h.2)
  rw [hv] at hd
  exact .value hd

theorem spells_numerals {f : Field} : ∀ {vs : List Nat}, (∀ v ∈ vs, f.min ≤ v ∧ v ≤ f.max) →
    List.Forall₂ (Spells f) (vs.map numeral) (vs.map .value)
  | [], _ => .nil
  | v :: _, h =>
    .cons (spells_numeral (h v List.mem_cons_self)) (spells_numerals fun w hw => h w (List.mem_cons_of_mem v hw))

theorem expand_enumeration {f : Field} (hne : ∃ v, v ∈ S) (hr : ∀ v ∈ S, f.min ≤ v ∧ v ≤ f.max) :
    expand f S.enumeration = .ok S := by
  have hs : List.Forall₂ (Spells f) (S.toList.map numeral) (S.toList.map .value) :=
    spells_numerals fun v hv => hr v (ValueSet.mem_toList.1 hv)
  rw [← pieces_enumeration hne] at hs
  refine expand_eq_ok_iff.2 ⟨_, hs, ValueSet.ext fun v => ?_⟩
  rw [mem_valuesOf_iff_contains hs]
  constructor
  · intro h
    obtain ⟨t, ht, hc⟩ := h
    obtain ⟨w, hw, rfl⟩ := List.mem_map.1 ht
    cases hc
    exact ValueSet.mem_toList.1 hw
  · intro h
    exact ⟨.value v, List.mem_map_of_mem (ValueSet.mem_toList.2 h), rfl⟩

theorem isStarred_enumeration (S : ValueSet) : isStarred S.enumeration = false := by
  have hw : ∀ w ∈ S.toList.map numeral, ∀ c ∈ w, c ≠ '*' := by
    refine List.forall_mem_map.2 fun v _ c hc hstar => ?_
    exact not_mem_numeral (by decide) v (hstar ▸ hc)
  have hne : ∀ c ∈ [','].intercalate (S.toList.map numeral), c ≠ '*' :=
    forall_mem_intercalate (List.forall_mem_singleton.2 (by decide)) hw
  refine Bool.eq_false_iff.2 fun h => ?_
  have hhead := isStarred_iff.1 h
  rw [trim_enumeration, ValueSet.enumeration_eq] at hhead
  exact hne '*' (List.mem_of_mem_head? hhead) rfl

end

/-! ## Schedules -/

namespace Schedule

/-- The same values, and neither day field starred. -/
def unstarred (c : Schedule) : Schedule :=
  { c with dayOfMonthStarred := false, dayOfWeekStarred := false }

section
variable {c : Schedule}

theorem values_unstarred (f : Field) : c.unstarred.values f = c.values f := by
  cases f <;> rfl

theorem unstarred_eq_iff : c.unstarred = c ↔ c.dayOfMonthStarred = false ∧ c.dayOfWeekStarred = false := by
  cases c
  simp only [unstarred, mk.injEq, true_and, eq_comm]

theorem firesOn_unstarred (d : Date) : c.unstarred.firesOn d = (decide (d.day ∈ c.daysOfMonth) || c.hasWeekday d) :=
  rfl

/-- Without the stars a schedule has more days, and no fewer. -/
theorem fires_unstarred {t : DateTime} (h : c.fires t = true) : c.unstarred.fires t = true := by
  obtain ⟨hm, hd, hh, hmi⟩ := fires_iff.1 h
  refine fires_iff.2 ⟨hm, ?_, hh, hmi⟩
  rw [firesOn_unstarred, Bool.or_eq_true]
  unfold firesOn at hd
  split at hd
  · exact Or.inl hd
  split at hd
  · exact Or.inr hd
  · exact (Bool.or_eq_true _ _).mp hd

theorem ofFields_map_enumeration (hc : c.WellFormed) :
    ofFields (Field.all.map fun f => (c.values f).enumeration) = .ok c.unstarred := by
  refine (ofFields_map_eq_ok_iff _).2 ⟨fun f => ?_, ?_, ?_⟩
  · rw [values_unstarred]
    exact expand_enumeration (hc.exists_mem f) (hc.mem_range f)
  · exact (isStarred_enumeration _).symm
  · exact (isStarred_enumeration _).symm

end

/-- **Listing and reading back.** The listings of a schedule that was read, with commas for blanks, are read as the
schedule without its stars. -/
theorem ofFields_enumeration :
    (∀ (f : Field) (S : ValueSet), (∃ v, v ∈ S) → (∀ v ∈ S, f.min ≤ v ∧ v ≤ f.max) → expand f S.enumeration = .ok S) ∧
      ∀ (texts : Field → List Char) (c : Schedule), ofFields (Field.all.map texts) = .ok c →
        ∃ c', ofFields (Field.all.map fun f => (c.values f).enumeration) = .ok c' ∧
          (∀ f, c'.values f = c.values f) ∧ c'.dayOfMonthStarred = false ∧ c'.dayOfWeekStarred = false ∧
          (c' = c ↔ (trim (texts .dayOfMonth)).head? ≠ some '*' ∧ (trim (texts .dayOfWeek)).head? ≠ some '*') ∧
          ∀ t, c.fires t = true → c'.fires t = true := by
  refine ⟨fun f S hne hr => expand_enumeration hne hr, fun texts c h => ?_⟩
  obtain ⟨-, hm, hw⟩ := (ofFields_map_eq_ok_iff texts).1 h
  refine ⟨c.unstarred, ofFields_map_enumeration (wellFormed_of_ofFields h), values_unstarred, rfl, rfl, ?_,
    fun t => fires_unstarred⟩
  rw [unstarred_eq_iff, hm, hw, Bool.eq_false_iff, Bool.eq_false_iff, Ne, Ne, isStarred_iff, isStarred_iff]

-- Both day fields begin with a star, and a step of 5 leaves Sunday and Friday.
theorem ofFields_enumeration_friday :
    let texts := assign "*/30".toList " 9-10".toList "*/2".toList "jun".toList "*/5".toList
    let c : Schedule := ⟨.ofList [0, 30], .ofList [9, 10], .stepped 1 31 2, .ofList [6], .ofList [0, 5], true, true⟩
    ofFields (Field.all.map texts) = .ok c ∧ c.daysOfWeek.enumeration = "0,5".toList ∧
      expand .dayOfWeek c.daysOfWeek.enumeration = .ok c.daysOfWeek ∧
      ∃ c', ofFields (Field.all.map fun f => (c.values f).enumeration) = .ok c' ∧ c' ≠ c := by
  intro texts c
  have hc : ofFields (Field.all.map texts) = .ok c := by decide +kernel
  have hw := wellFormed_of_ofFields hc
  obtain ⟨c', hc', -, -, -, heq, -⟩ := ofFields_enumeration.2 texts c hc
  refine ⟨hc, by decide +kernel, ?_, c', hc', fun h => (heq.1 h).1 (by decide)⟩
  exact ofFields_enumeration.1 .dayOfWeek c.daysOfWeek (hw.exists_mem .dayOfWeek) (hw.mem_range .dayOfWeek)

end Schedule

end CronSchedule
