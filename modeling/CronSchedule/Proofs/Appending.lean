import Mathlib.Logic.Function.Basic
import CronSchedule.Proofs.Comparison
import CronSchedule.Proofs.DayRule
import CronSchedule.Proofs.Layout

/-!
# Appending to a field

Two expressions with a comma between them are one whose terms are those of the first and then those of the second, so it
stands for the union of their values (`expand_append`). Whether an expression is starred depends on its beginning, so
appending leaves the stars alone, and a schedule with more values and the same stars fires at all times of the other
(`Extends.fires`). Put in front of an expression, a `*,` would change the star and could lose days.
-/

namespace CronSchedule

/-! ## Texts that need no trimming -/

section
variable {s a b : List Char} {c : Char}

/-- There is nothing to trim away just if there is nothing at the beginning and nothing at the end. -/
theorem trim_eq_self_iff : trim s = s ↔ trimStart s = s ∧ trimStart s.reverse = s.reverse := by
  unfold trim trimEnd
  constructor
  · intro h
    have hsub : (trimStart s).Sublist s := List.dropWhile_sublist _
    have hsub' : (trimStart (trimStart s).reverse).Sublist (trimStart s).reverse := List.dropWhile_sublist _
    have hlength := hsub'.length_le
    rw [← List.length_reverse, h, List.length_reverse] at hlength
    have hstart : trimStart s = s := hsub.eq_of_length_le hlength
    rw [hstart] at h
    refine ⟨hstart, ?_⟩
    rw [← List.reverse_eq_iff]
    exact h
  · rintro ⟨hstart, hend⟩
    rw [hstart, hend, List.reverse_reverse]

theorem trimStart_append_cons (ha : trimStart a = a) (hc : isBlank c = false) (b : List Char) :
    trimStart (a ++ c :: b) = a ++ c :: b := by
  rw [trimStart_append, ha]
  cases a with
  | nil => exact List.dropWhile_cons_of_neg (Bool.eq_false_iff.1 hc)
  | cons x a => rfl

theorem trim_append_cons (ha : trim a = a) (hb : trim b = b) (hc : isBlank c = false) :
    trim (a ++ c :: b) = a ++ c :: b := by
  obtain ⟨hstart, -⟩ := trim_eq_self_iff.1 ha
  obtain ⟨-, hend⟩ := trim_eq_self_iff.1 hb
  rw [trim_eq_self_iff]
  refine ⟨trimStart_append_cons hstart hc b, ?_⟩
  have hreverse : (a ++ c :: b).reverse = b.reverse ++ c :: a.reverse := by simp
  rw [hreverse]
  exact trimStart_append_cons hend hc a.reverse

/-! ## Expressions -/

theorem pieces_append (ha : trim a = a) (hb : trim b = b) : pieces (a ++ ',' :: b) = pieces a ++ pieces b := by
  unfold pieces
  rw [trim_append_cons ha hb (by decide), ha, hb]
  exact List.splitOnP_append_cons a b rfl

theorem valuesOf_append (f : Field) (ts us : List Term) : valuesOf f (ts ++ us) = valuesOf f ts ∪ valuesOf f us := by
  apply ValueSet.ext
  intro v
  rw [ValueSet.mem_union, mem_valuesOf, mem_valuesOf, mem_valuesOf]
  simp only [List.mem_append, or_and_right, exists_or]

/-- The values are united, and the first expression comes first with its error as well. -/
theorem expand_append (f : Field) (ha : trim a = a) (hb : trim b = b) :
    expand f (a ++ ',' :: b) = do
      let A ← expand f a
      let B ← expand f b
      return A ∪ B := by
  unfold expand readTerms
  rw [pieces_append ha hb, List.mapM_append]
  cases (pieces a).mapM (Term.read f) with
  | error e => rfl
  | ok ts =>
    cases (pieces b).mapM (Term.read f) with
    | error e => rfl
    | ok us => exact congrArg Except.ok (valuesOf_append f ts us)

theorem isStarred_append_cons (hc : isBlank c = false) (ha : trim a = a) (hb : trim b = b) (hne : a ≠ []) :
    isStarred (a ++ c :: b) = isStarred a := by
  unfold isStarred
  rw [trim_append_cons ha hb hc, ha]
  cases a with
  | nil => exact absurd rfl hne
  | cons x a => rfl

end

/-! ## Schedules -/

namespace Schedule

/-- All values of `c` and perhaps more, with the same day fields starred. -/
structure Extends (c' c : Schedule) : Prop where
  values : ∀ f v, v ∈ c.values f → v ∈ c'.values f
  dayOfMonthStarred : c'.dayOfMonthStarred = c.dayOfMonthStarred
  dayOfWeekStarred : c'.dayOfWeekStarred = c.dayOfWeekStarred

section
variable {c c' : Schedule}

theorem Extends.hasWeekday (h : c'.Extends c) {d : Date} (hd : c.hasWeekday d = true) : c'.hasWeekday d = true := by
  rw [hasWeekday_iff] at hd ⊢
  rcases hd with hd | ⟨hzero, hd⟩
  · exact Or.inl (h.values .dayOfWeek _ hd)
  · exact Or.inr ⟨hzero, h.values .dayOfWeek _ hd⟩

theorem Extends.firesOn (h : c'.Extends c) {d : Date} (hd : c.firesOn d = true) : c'.firesOn d = true := by
  have hday : d.day ∈ c.daysOfMonth → d.day ∈ c'.daysOfMonth := h.values .dayOfMonth d.day
  cases hw : c.dayOfWeekStarred with
  | true =>
    rw [firesOn_iff_of_dayOfWeekStarred hw] at hd
    rw [firesOn_iff_of_dayOfWeekStarred (h.dayOfWeekStarred.trans hw)]
    exact hday hd
  | false =>
    have hw' := h.dayOfWeekStarred.trans hw
    cases hm : c.dayOfMonthStarred with
    | true =>
      rw [firesOn_iff_of_dayOfMonthStarred hm hw] at hd
      rw [firesOn_iff_of_dayOfMonthStarred (h.dayOfMonthStarred.trans hm) hw']
      exact h.hasWeekday hd
    | false =>
      rw [firesOn_iff_of_unstarred hm hw] at hd
      rw [firesOn_iff_of_unstarred (h.dayOfMonthStarred.trans hm) hw']
      exact hd.imp hday h.hasWeekday

theorem Extends.fires (h : c'.Extends c) {t : DateTime} (ht : c.fires t = true) : c'.fires t = true := by
  obtain ⟨hm, hd, hh, hmi⟩ := fires_iff.1 ht
  exact fires_iff.2 ⟨h.values .month _ hm, h.firesOn hd, h.values .hour _ hh, h.values .minute _ hmi⟩

end

def appendTerms (texts : Field → List Char) (f : Field) (u : List Char) : Field → List Char :=
  Function.update texts f (trim (texts f) ++ ',' :: u)

section
variable {texts : Field → List Char} {c : Schedule} {f : Field} {u : List Char} {U : ValueSet}

theorem isStarred_appendTerms (hf : expand f (texts f) = .ok (c.values f)) (hu : trim u = u) (g : Field) :
    isStarred (appendTerms texts f u g) = isStarred (texts g) := by
  unfold appendTerms
  by_cases h : g = f
  · subst h
    rw [Function.update_self, isStarred_append_cons (by decide) (trim_trim _) hu (isWord_trim_of_expand hf).1,
      isStarred_trim]
  · rw [Function.update_of_ne h]

/-- What is read after appending has the old values, and in the one field the new ones as well. -/
theorem exists_ofFields_appendTerms (h : ofFields (Field.all.map texts) = .ok c) (hu : trim u = u)
    (hU : expand f u = .ok U) : ∃ c', ofFields (Field.all.map (appendTerms texts f u)) = .ok c' ∧ c'.Extends c := by
  obtain ⟨hf, hm, hw⟩ := (ofFields_map_eq_ok_iff texts).1 h
  have hunion : expand f (trim (texts f) ++ ',' :: u) = .ok (c.values f ∪ U) := by
    rw [expand_append f (trim_trim _) hu, expand_trim, hf f, hU]
    rfl
  obtain ⟨c', hc', hvalues, hothers, hm', hw'⟩ := exists_ofFields_update (fun g _ => ⟨_, hf g⟩) hunion
  refine ⟨c', hc', fun g v hv => ?_, ?_, ?_⟩
  · by_cases hg : g = f
    · subst hg
      rw [hvalues]
      exact ValueSet.mem_union.2 (Or.inl hv)
    · rw [Except.ok.inj ((hothers g hg).symm.trans (hf g))]
      exact hv
  · exact hm'.trans ((isStarred_appendTerms (hf f) hu _).trans hm.symm)
  · exact hw'.trans ((isStarred_appendTerms (hf f) hu _).trans hw.symm)

end

/-- **Appending.** With more terms behind one of its expressions a schedule is still read; it fires whenever it did
before, and its next time comes no later. -/
theorem ofFields_appendTerms {texts : Field → List Char} {c : Schedule} (h : ofFields (Field.all.map texts) = .ok c)
    (f : Field) {u : List Char} (hu : trim u = u) {U : ValueSet} (hU : expand f u = .ok U) :
    ∃ c', ofFields (Field.all.map (appendTerms texts f u)) = .ok c' ∧ (∀ t, c.fires t = true → c'.fires t = true) ∧
      (∀ now x, c.nextAfter now = .ok x → ∃ y, c'.nextAfter now = .ok y ∧ y ≤ x) ∧
      ∀ now x, c.nextFrom now = .ok x → ∃ y, c'.nextFrom now = .ok y ∧ y ≤ x := by
  obtain ⟨c', hc', hext⟩ := exists_ofFields_appendTerms h hu hU
  have hfires : ∀ t, c.fires t = true → c'.fires t = true := fun t => hext.fires
  refine ⟨c', hc', hfires, fun now x => ?_, fun now x => ?_⟩
  · exact nextAfter_le hfires
  · exact nextFrom_le hfires

-- The day of month is starred, so Mondays alone count at first; with Sundays as well the next midnight is one earlier.
theorem ofFields_appendTerms_sunday :
    let texts := assign "0".toList "0".toList "*/10".toList "*".toList " mon ".toList
    let c : Schedule := ⟨.ofList [0], .ofList [0], .stepped 1 31 10, .full .month, .ofList [1], true, false⟩
    let now : DateTime := ⟨⟨2024, 6, 8, by decide⟩, 12, 0, 0, 0, by decide⟩
    let x : DateTime := ⟨⟨2024, 6, 10, by decide⟩, 0, 0, 0, 0, by decide⟩
    ofFields (Field.all.map texts) = .ok c ∧ expand .dayOfWeek "sun".toList = .ok (.ofList [0]) ∧
      appendTerms texts .dayOfWeek "sun".toList .dayOfWeek = "mon,sun".toList ∧ c.nextAfter now = .ok x ∧
      ∃ c' y, ofFields (Field.all.map (appendTerms texts .dayOfWeek "sun".toList)) = .ok c' ∧
        c'.nextAfter now = .ok y ∧ y ≤ x := by
  intro texts c now x
  have hc : ofFields (Field.all.map texts) = .ok c := by decide +kernel
  have hU : expand .dayOfWeek "sun".toList = .ok (.ofList [0]) := by decide +kernel
  have hx : c.nextAfter now = .ok x := by
    show (c.search now ⟨2024, 6, 8, 12, 1⟩).outcome = _
    have hb : (2024 : Int) < 2026 := by decide
    rw [outcome_search, walk_of_rulesOut (u := .day) hb (by decide), walk_of_rulesOut (u := .day) hb (by decide),
      walk_of_fires (t := x) hb (by decide)]
  obtain ⟨c', hc', -, hafter, -⟩ := ofFields_appendTerms hc .dayOfWeek (by decide) hU
  obtain ⟨y, hy, hle⟩ := hafter now x hx
  exact ⟨hc, hU, by decide, hx, c', y, hc', hy, hle⟩

end Schedule

end CronSchedule
