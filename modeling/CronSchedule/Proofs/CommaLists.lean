import CronSchedule.Proofs.Appending

/-!
# Lists of expressions

Expressions with commas between them are expanded one after the other (`expand_commaList`). The set is the union of
theirs, so neither their order nor repetitions change it; the error is that of the first expression that has one
(`expand_lists`). Blanks are trimmed from the whole list only, so the members must not begin or end with one.
-/

namespace CronSchedule

/-- The texts with a comma between each and the next. -/
def commaList (texts : List (List Char)) : List Char :=
  [','].intercalate texts

def ValueSet.unionAll (sets : List ValueSet) : ValueSet :=
  sets.foldr (· ∪ ·) ∅

section
variable {f : Field} {t : List Char} {ts us : List (List Char)} {S : ValueSet} {err : TermError}

@[simp] theorem ValueSet.mem_unionAll {sets : List ValueSet} {v : Nat} : v ∈ unionAll sets ↔ ∃ S ∈ sets, v ∈ S := by
  induction sets with
  | nil => simp [unionAll]
  | cons S sets ih =>
    have h : unionAll (S :: sets) = S ∪ unionAll sets := rfl
    simp [h, ih]

theorem commaList_singleton (t : List Char) : commaList [t] = t :=
  List.intercalate_singleton

theorem commaList_cons (t : List Char) (hne : ts ≠ []) : commaList (t :: ts) = t ++ ',' :: commaList ts := by
  obtain ⟨u, us, rfl⟩ := List.exists_cons_of_ne_nil hne
  unfold commaList
  rw [List.intercalate_cons_cons, List.append_assoc]
  rfl

theorem trim_commaList (htrim : ∀ t ∈ ts, trim t = t) : trim (commaList ts) = commaList ts := by
  induction ts with
  | nil => rfl
  | cons t ts ih =>
    rw [List.forall_mem_cons] at htrim
    by_cases hne : ts = []
    · rw [hne, commaList_singleton, htrim.1]
    · rw [commaList_cons t hne]
      exact trim_append_cons htrim.1 (ih htrim.2) (by decide)

/-- A list is expanded member by member, and the first error ends it. -/
theorem expand_commaList (hne : ts ≠ []) (htrim : ∀ t ∈ ts, trim t = t) :
    expand f (commaList ts) = (ts.mapM (expand f)).map ValueSet.unionAll := by
  induction ts with
  | nil => exact absurd rfl hne
  | cons t ts ih =>
    rw [List.forall_mem_cons] at htrim
    rw [List.mapM_cons]
    by_cases hts : ts = []
    · rw [hts, commaList_singleton, List.mapM_nil]
      cases expand f t with
      | error err => rfl
      | ok S =>
        have hS : S = S ∪ ∅ := ValueSet.ext fun v => by simp
        exact congrArg Except.ok hS
    · rw [commaList_cons t hts, expand_append f htrim.1 (trim_commaList htrim.2), ih hts htrim.2]
      cases expand f t with
      | error err => rfl
      | ok S =>
        cases ts.mapM (expand f) with
        | error err => rfl
        | ok sets => rfl

theorem expand_of_not_mem (ht : trim t = t) (hc : ',' ∉ t) : expand f t = (Term.read f t).map (Term.values f) := by
  have hpieces : pieces t = [t] := by
    refine pieces_eq_iff.2 ⟨List.cons_ne_nil t [], List.forall_mem_singleton.2 hc, ?_⟩
    rw [ht, List.intercalate_singleton]
  unfold expand readTerms
  rw [hpieces, List.mapM_cons, List.mapM_nil]
  cases Term.read f t with
  | error err => rfl
  | ok term =>
    have hvalues : valuesOf f [term] = term.values f := ValueSet.ext fun v => by simp [mem_valuesOf]
    exact congrArg Except.ok hvalues

section
variable (hne : ts ≠ []) (htrim : ∀ t ∈ ts, trim t = t)
include hne htrim

theorem expand_commaList_eq_ok_iff : expand f (commaList ts) = .ok S ↔
    (∀ t ∈ ts, ∃ T, expand f t = .ok T) ∧ ∀ v, v ∈ S ↔ ∃ t ∈ ts, ∃ T, expand f t = .ok T ∧ v ∈ T := by
  rw [expand_commaList hne htrim, map_eq_ok_iff, ← exists_mapM_eq_ok_iff]
  have hmem : ∀ {sets}, ts.mapM (expand f) = .ok sets → ∀ v, v ∈ ValueSet.unionAll sets ↔
      ∃ t ∈ ts, ∃ T, expand f t = .ok T ∧ v ∈ T := by
    intro sets h v
    rw [ValueSet.mem_unionAll]
    simp only [mem_iff_of_mapM_eq_ok h]
    constructor
    · intro h'
      obtain ⟨T, ⟨t, ht, hT⟩, hv⟩ := h'
      exact ⟨t, ht, T, hT, hv⟩
    · intro h'
      obtain ⟨t, ht, T, hT, hv⟩ := h'
      exact ⟨T, ⟨t, ht, hT⟩, hv⟩
  constructor
  · intro h
    obtain ⟨sets, h, rfl⟩ := h
    exact ⟨⟨sets, h⟩, hmem h⟩
  · intro h
    obtain ⟨⟨sets, h⟩, hS⟩ := h
    refine ⟨sets, h, ValueSet.ext fun v => ?_⟩
    rw [hmem h, hS]

theorem expand_commaList_eq_error_iff : expand f (commaList ts) = .error err ↔
    ∃ before t after, ts = before ++ t :: after ∧ (∀ u ∈ before, ∃ U, expand f u = .ok U) ∧
      expand f t = .error err := by
  rw [expand_commaList hne htrim, map_eq_error_iff, mapM_eq_error_iff]

/-- Lists with the same members are expanded to the same set, in whatever order and however often they have them. -/
theorem expand_commaList_of_mem_iff (h : expand f (commaList ts) = .ok S) (hus : ∀ u, u ∈ us ↔ u ∈ ts) :
    expand f (commaList us) = .ok S := by
  have hne' : us ≠ [] := by
    obtain ⟨t, ht⟩ := List.exists_mem_of_ne_nil ts hne
    exact List.ne_nil_of_mem ((hus t).2 ht)
  have htrim' : ∀ u ∈ us, trim u = u := fun u hu => htrim u ((hus u).1 hu)
  rw [expand_commaList_eq_ok_iff hne htrim] at h
  rw [expand_commaList_eq_ok_iff hne' htrim']
  simp only [hus]
  exact h

end

end

/-- **Lists.** A comma unites two expressions, and the error is that of the left one if it has one. So a list stands for
the union of its members, whatever their order and number, and its error is that of the leftmost bad one. -/
theorem expand_lists (f : Field) :
    (∀ a b, trim a = a → trim b = b →
      (∀ A B, expand f a = .ok A → expand f b = .ok B → expand f (a ++ ',' :: b) = .ok (A ∪ B)) ∧
      (∀ err, expand f a = .error err → expand f (a ++ ',' :: b) = .error err) ∧
      ∀ A err, expand f a = .ok A → expand f b = .error err → expand f (a ++ ',' :: b) = .error err) ∧
    ∀ ts, ts ≠ [] → (∀ t ∈ ts, trim t = t) →
      (∀ S, expand f (commaList ts) = .ok S → (∀ v, v ∈ S ↔ ∃ t ∈ ts, ∃ T, expand f t = .ok T ∧ v ∈ T) ∧
        ∀ us, (∀ u, u ∈ us ↔ u ∈ ts) → expand f (commaList us) = .ok S) ∧
      ∀ err, expand f (commaList ts) = .error err ↔
        ∃ before t after, ts = before ++ t :: after ∧ (∀ u ∈ before, ∃ U, expand f u = .ok U) ∧
          expand f t = .error err ∧ (',' ∉ t → Term.read f t = .error err) := by
  constructor
  · intro a b ha hb
    rw [expand_append f ha hb]
    refine ⟨fun A B hA hB => ?_, fun err hA => ?_, fun A err hA hB => ?_⟩
    · rw [hA, hB]
      rfl
    · rw [hA]
      rfl
    · rw [hA, hB]
      rfl
  · intro ts hne htrim
    refine ⟨fun S hS => ⟨?_, fun us hus => expand_commaList_of_mem_iff hne htrim hS hus⟩, fun err => ?_⟩
    · exact ((expand_commaList_eq_ok_iff hne htrim).1 hS).2
    rw [expand_commaList_eq_error_iff hne htrim]
    constructor
    · intro h
      obtain ⟨before, t, after, rfl, hbefore, ht⟩ := h
      refine ⟨before, t, after, rfl, hbefore, ht, fun hc => ?_⟩
      have htt : trim t = t := htrim t (by simp)
      rwa [expand_of_not_mem htt hc, map_eq_error_iff] at ht
    · intro h
      obtain ⟨before, t, after, hts, hbefore, ht, -⟩ := h
      exact ⟨before, t, after, hts, hbefore, ht⟩

-- A list of lists, with a member twice and in another order; and two bad members, of which the left one is blamed.
theorem expand_lists_months :
    let A : ValueSet := .ofList [1, 3]
    let B : ValueSet := .ofList [5, 7]
    let err : TermError := ⟨.month, "0".toList, .valueOutOfRange⟩
    let err' : TermError := ⟨.month, "7-5".toList, .unorderedRange⟩
    expand .month ("jan,3".toList ++ ',' :: "5-7/2".toList) = .ok (A ∪ B) ∧
      expand .month ("0".toList ++ ',' :: "7-5".toList) = .error err ∧
      expand .month ("jan,3".toList ++ ',' :: "7-5".toList) = .error err' ∧
      expand .month (commaList ["5-7/2".toList, "jan,3".toList, "5-7/2".toList]) = .ok (A ∪ B) ∧
      expand .month (commaList ["jan,3".toList, "0".toList, "7-5".toList]) = .error err := by
  intro A B err err'
  have hA : expand .month "jan,3".toList = .ok A := by decide +kernel
  have hB : expand .month "5-7/2".toList = .ok B := by decide +kernel
  have herr : expand .month "0".toList = .error err := by decide +kernel
  have herr' : expand .month "7-5".toList = .error err' := by decide +kernel
  obtain ⟨hpair, hlist⟩ := expand_lists .month
  have hok := (hpair "jan,3".toList "5-7/2".toList (by decide) (by decide)).1 A B hA hB
  have hleft := (hpair "0".toList "7-5".toList (by decide) (by decide)).2.1 err herr
  have hright := (hpair "jan,3".toList "7-5".toList (by decide) (by decide)).2.2 A err' hA herr'
  have hmany := (hlist ["jan,3".toList, "5-7/2".toList] (by decide) (by decide)).1 (A ∪ B) hok
  have hfirst := (hlist ["jan,3".toList, "0".toList, "7-5".toList] (by decide) (by decide)).2 err
  refine ⟨hok, hleft, hright, hmany.2 _ ?_, hfirst.2 ⟨["jan,3".toList], "0".toList, _, rfl, ?_, herr, ?_⟩⟩
  · simp [or_comm]
  · simpa using ⟨A, hA⟩
  · intro _
    decide +kernel

end CronSchedule
