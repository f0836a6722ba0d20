import CronSchedule.Text.Layout

/-!
# Trimming and cutting into words

Blanks around a text are trimmed away (`trim_of_pads`), and every text is what trimming leaves with blanks around it
(`pads_trim`). A blank in a line separates what stands before it from what stands after it, so a line falls into its
words whatever the gaps between them are (`words_of_joins`).
-/

namespace CronSchedule

/-! ## Gaps -/

section
variable {gap : List Char} {c : Char}

theorem IsGap.reverse (h : IsGap gap) : IsGap gap.reverse := by
  intro x hx
  exact h x (List.mem_reverse.1 hx)

theorem IsGap.head (h : IsGap (c :: gap)) : isBlank c = true :=
  h c List.mem_cons_self

theorem IsGap.tail (h : IsGap (c :: gap)) : IsGap gap := by
  intro x hx
  exact h x (List.mem_cons_of_mem c hx)

end

/-! ## Trimming -/

section
variable {s p : List Char}

theorem trimStart_append_of_isGap {gap : List Char} (h : IsGap gap) (s : List Char) :
    trimStart (gap ++ s) = trimStart s :=
  List.dropWhile_append_of_pos h

theorem trimEnd_append_of_isGap {gap : List Char} (h : IsGap gap) (s : List Char) : trimEnd (s ++ gap) = trimEnd s := by
  unfold trimEnd
  rw [List.reverse_append, trimStart_append_of_isGap h.reverse]

theorem trimStart_append (s r : List Char) :
    trimStart (s ++ r) = if (trimStart s).isEmpty then trimStart r else trimStart s ++ r :=
  List.dropWhile_append

theorem trimStart_of_isGap (h : IsGap s) : trimStart s = [] := by
  have hs := trimStart_append_of_isGap h []
  rwa [List.append_nil] at hs

theorem trim_of_pads (h : Pads s p) : trim p = trim s := by
  obtain ⟨hbefore, hafter⟩ := h
  unfold trim
  rw [List.append_assoc, trimStart_append_of_isGap hbefore, trimStart_append]
  split
  · rename_i he
    rw [List.isEmpty_iff.1 he, trimStart_of_isGap hafter]
  · exact trimEnd_append_of_isGap hafter _

theorem exists_trimStart (s : List Char) : ∃ gap, IsGap gap ∧ s = gap ++ trimStart s := by
  refine ⟨s.takeWhile isBlank, ?_, List.takeWhile_append_dropWhile.symm⟩
  intro c hc
  exact List.all_eq_true.1 List.all_takeWhile c hc

theorem pads_trim (s : List Char) : Pads (trim s) s := by
  obtain ⟨before, hbefore, hs⟩ := exists_trimStart s
  obtain ⟨after, hafter, hr⟩ := exists_trimStart (trimStart s).reverse
  have ht : trimStart s = trim s ++ after.reverse := by
    have := congrArg List.reverse hr
    rwa [List.reverse_reverse, List.reverse_append] at this
  have h := Pads.intro (s := trim s) hbefore hafter.reverse
  rw [List.append_assoc, ← ht, ← hs] at h
  exact h

theorem trim_trim (s : List Char) : trim (trim s) = trim s :=
  (trim_of_pads (pads_trim s)).symm

theorem trimStart_eq_self (h : ∀ c ∈ s, isBlank c = false) : trimStart s = s := by
  cases s with
  | nil => rfl
  | cons c s => exact List.dropWhile_cons_of_neg (Bool.eq_false_iff.1 (h c List.mem_cons_self))

theorem trim_eq_self (h : ∀ c ∈ s, isBlank c = false) : trim s = s := by
  unfold trim trimEnd
  rw [trimStart_eq_self h, trimStart_eq_self fun c hc => h c (List.mem_reverse.1 hc), List.reverse_reverse]

end

/-! ## Words -/

/-- There is nothing in a text to cut at, or one cut leaves two shorter texts. -/
@[elab_as_elim]
theorem cut_induction {P : Char → Bool} {motive : List Char → Prop}
    (uncut : ∀ s, (∀ c ∈ s, P c = false) → motive s)
    (cut : ∀ a c r, P c = true → motive a → motive r → motive (a ++ c :: r)) (s : List Char) : motive s := by
  by_cases h : ∃ c ∈ s, P c = true
  · obtain ⟨c, hc, hPc⟩ := h
    obtain ⟨a, r, hs⟩ := List.append_of_mem hc
    have ha : a.length < s.length := by simp [hs]
    have hr : r.length < s.length := by simp only [hs, List.length_append, List.length_cons]; omega
    rw [hs]
    exact cut a c r hPc (cut_induction uncut cut a) (cut_induction uncut cut r)
  · apply uncut
    intro c hc
    apply Bool.eq_false_iff.2
    intro hPc
    exact h ⟨c, hc, hPc⟩
termination_by s.length

theorem not_of_mem_splitOnP {P : Char → Bool} (s : List Char) : ∀ w ∈ s.splitOnP P, ∀ c ∈ w, P c = false := by
  induction s using cut_induction (P := P) with
  | uncut s hs =>
    rw [List.splitOnP_eq_singleton hs]
    intro w hw
    rw [List.mem_singleton.1 hw]
    exact hs
  | cut a c r hc iha ihr =>
    rw [List.splitOnP_append_cons a r hc]
    intro w hw
    rcases List.mem_append.1 hw with hw | hw
    · exact iha w hw
    · exact ihr w hw

section
variable {s p w gap : List Char}

theorem isWord_of_mem_words (h : w ∈ words s) : IsWord w := by
  obtain ⟨hw, hne⟩ := List.mem_filter.1 h
  refine ⟨?_, not_of_mem_splitOnP s w hw⟩
  rintro rfl
  cases hne

theorem words_append_cons {c : Char} (h : isBlank c = true) (s r : List Char) :
    words (s ++ c :: r) = words s ++ words r := by
  unfold words
  rw [List.splitOnP_append_cons s r h, List.filter_append]

theorem words_of_isWord (h : IsWord w) : words w = [w] := by
  unfold words
  rw [List.splitOnP_eq_singleton h.2]
  simp [h.1]

theorem words_gap_append (h : IsGap gap) (s : List Char) : words (gap ++ s) = words s := by
  induction gap with
  | nil => rfl
  | cons c gap ih =>
    have hc : words (c :: (gap ++ s)) = words [] ++ words (gap ++ s) := words_append_cons h.head [] (gap ++ s)
    rw [List.cons_append, hc, ih h.tail]
    rfl

theorem words_append_gap (h : IsGap gap) (s : List Char) : words (s ++ gap) = words s := by
  cases gap with
  | nil => rw [List.append_nil]
  | cons c gap =>
    have hgap : words (gap ++ []) = [] := words_gap_append h.tail []
    rw [List.append_nil] at hgap
    rw [words_append_cons h.head, hgap, List.append_nil]

theorem words_of_pads (h : Pads s p) : words p = words s := by
  obtain ⟨hbefore, hafter⟩ := h
  rw [words_append_gap hafter, words_gap_append hbefore]

theorem words_of_joins {ws : List (List Char)} (h : Joins ws s) (hw : ∀ w ∈ ws, IsWord w) : words s = ws := by
  induction h with
  | nil => rfl
  | single w => exact words_of_isWord (hw w List.mem_cons_self)
  | @cons w gap v s ws hgap hne _ ih =>
    obtain ⟨c, gap, rfl⟩ := List.exists_cons_of_ne_nil hne
    rw [List.append_assoc, List.cons_append, words_append_cons hgap.head,
      words_of_isWord (hw w List.mem_cons_self), words_gap_append hgap.tail,
      ih fun x hx => hw x (List.mem_cons_of_mem w hx)]
    rfl

theorem forall_mem_intercalate {P : Char → Prop} {sep : List Char} (hsep : ∀ c ∈ sep, P c) :
    ∀ {ws : List (List Char)}, (∀ w ∈ ws, ∀ c ∈ w, P c) → ∀ c ∈ sep.intercalate ws, P c
  | [], _, c, hc => by cases hc
  | [w], h, c, hc => by
    rw [List.intercalate_singleton] at hc
    exact h w List.mem_cons_self c hc
  | w :: v :: ws, h, c, hc => by
    rw [List.intercalate_cons_cons] at hc
    rcases List.mem_append.1 hc with hc | hc
    · rcases List.mem_append.1 hc with hc | hc
      · exact h w List.mem_cons_self c hc
      · exact hsep c hc
    · exact forall_mem_intercalate hsep (fun x hx => h x (List.mem_cons_of_mem w hx)) c hc

theorem joins_intercalate : ∀ ws : List (List Char), Joins ws ([' '].intercalate ws)
  | [] => .nil
  | [w] => by
    rw [List.intercalate_singleton]
    exact .single w
  | w :: v :: ws => by
    rw [List.intercalate_cons_cons]
    refine .cons ?_ (List.cons_ne_nil _ _) (joins_intercalate (v :: ws))
    intro c hc
    rw [List.mem_singleton.1 hc]
    decide

end

end CronSchedule
