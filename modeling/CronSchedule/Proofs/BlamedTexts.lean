import CronSchedule.Proofs.TokenValues
import CronSchedule.Proofs.Expansion

/-!
# Which text an error blames

The errors of the reader are those that the shape of a text, its values and its step call for (`read_eq_error_iff`). So
an error of an expression is that of its first piece which is no term, and blames it or one of its values
(`expand_blames`). Nearly all of it is in `Ranges.read_eq`: a text with the form of a range is read as its two values,
compared, and then as its step.
-/

namespace CronSchedule

section
variable {f : Field} {p a b n : List Char} {n? : Option (List Char)} {x y : Nat} {err : TermError}

/-! ## Readers and shapes -/

theorem readStep_eq_error_iff :
    Term.readStep f p n = .error err ↔ ∃ fault, StepFault n fault ∧ err = ⟨f, p, fault⟩ := by
  unfold Term.readStep
  constructor
  · intro h
    split at h
    · rename_i hnum
      split at h <;> cases h
      rename_i hpos
      exact ⟨_, .notPositive hnum hpos, rfl⟩
    · rename_i hnum
      cases h
      exact ⟨_, .notNumeric (Bool.eq_false_iff.2 hnum), rfl⟩
  · intro h
    obtain ⟨fault, hfault, rfl⟩ := h
    cases hfault with
    | notNumeric hnum => rw [hnum, if_neg Bool.false_ne_true]
    | notPositive hnum hpos => rw [if_pos hnum, if_neg hpos]

theorem readRange_eq_error_iff (ha : '-' ∉ a) : Term.readRange f p (a ++ '-' :: b) = .error err ↔
    f.readValue .start a = .error err ∨ (∃ x, f.readValue .start a = .ok x ∧ f.readValue .stop b = .error err) ∨
      ∃ x y, f.readValue .start a = .ok x ∧ f.readValue .stop b = .ok y ∧ y ≤ x ∧ err = ⟨f, p, .unorderedRange⟩ := by
  have hcut : cutAt? '-' (a ++ '-' :: b) = some (a, b) := cutAt?_eq_some_iff.2 ⟨rfl, ha⟩
  unfold Term.readRange
  rw [hcut]
  dsimp only
  cases f.readValue .start a with
  | error e => simp [bind, Except.bind]
  | ok x =>
    cases f.readValue .stop b with
    | error e => simp [bind, Except.bind]
    | ok y =>
      by_cases hlt : x < y
      · simp [bind, Except.bind, hlt, Nat.not_le_of_lt hlt]
      · simp [bind, Except.bind, hlt, Nat.le_of_not_lt hlt, eq_comm]

theorem denotes_of_readRange_append (ha : '-' ∉ a) (h : Term.readRange f p (a ++ '-' :: b) = .ok (x, y)) :
    Denotes f .start a x ∧ Denotes f .stop b y ∧ x < y := by
  obtain ⟨a', b', heq, hx, hy, hlt⟩ := readRange_eq_ok_iff.1 h
  have hcut : cutAt? '-' (a ++ '-' :: b) = some (a, b) := cutAt?_eq_some_iff.2 ⟨rfl, ha⟩
  have hcut' := cutAt?_eq_some_iff.2 ⟨heq, hx.not_mem (by decide)⟩
  cases hcut.symm.trans hcut'
  exact ⟨hx, hy, hlt⟩

theorem read_of_head_ne (hne : p ≠ []) (hp : p.head? ≠ some '*') : Term.read f p = Term.readPlain f p := by
  obtain ⟨c, s, rfl⟩ := List.exists_cons_of_ne_nil hne
  apply read_cons_of_ne
  intro hc
  exact hp (congrArg some hc)

theorem readPlain_of_noRange {r : List Char} (hslash : '/' ∉ r) (hhyphen : '-' ∉ r) :
    Term.readPlain f (r ++ '/' :: n) = .error ⟨f, r ++ '/' :: n, .stepWithoutRange⟩ := by
  have hrange : Term.readRange f (r ++ '/' :: n) r = .error ⟨f, r ++ '/' :: n, .stepWithoutRange⟩ := by
    unfold Term.readRange
    rw [cutAt?_eq_none_iff.2 hhyphen]
  unfold Term.readPlain
  rw [cutAt?_eq_some_iff.2 ⟨rfl, hslash⟩]
  dsimp only
  rw [hrange]
  rfl

theorem readPlain_of_single (hslash : '/' ∉ p) (hhyphen : '-' ∉ p) : Term.readPlain f p =
    if p.all Char.isAlphanum then Term.value <$> f.readValue .start p else .error ⟨f, p, .unrecognizedTerm⟩ := by
  unfold Term.readPlain
  rw [cutAt?_eq_none_iff.2 hslash]
  dsimp only
  rw [if_neg hhyphen]

theorem head?_append_cons_ne {s r : List Char} {c d : Char} (hs : s.head? ≠ some d) (hc : c ≠ d) :
    (s ++ c :: r).head? ≠ some d := by
  cases s with
  | nil => simpa using hc
  | cons x s => exact hs

theorem head?_ne_of_append_cons {s r : List Char} {c d : Char} (h : (s ++ c :: r).head? ≠ some d) :
    s.head? ≠ some d := by
  cases s with
  | nil => simp
  | cons x s => exact h

/-- The range with the step that stands behind its slash, or with the step 1. -/
def Term.ofRange (f : Field) (p : List Char) (x y : Nat) : Option (List Char) → Except TermError Term
  | none => .ok (range x y 1)
  | some n => range x y <$> readStep f p n

theorem Ranges.not_mem (h : Ranges p a b n?) : '-' ∉ a := by
  cases h <;> assumption

theorem Ranges.read_eq (h : Ranges p a b n?) :
    Term.read f p = Term.readRange f p (a ++ '-' :: b) >>= fun r => Term.ofRange f p r.1 r.2 n? := by
  cases h with
  | plain hhead _ hslash =>
    have hcut : cutAt? '/' (a ++ '-' :: b) = none := cutAt?_eq_none_iff.2 hslash
    rw [read_of_head_ne (by simp) (head?_append_cons_ne hhead (by decide))]
    unfold Term.readPlain
    rw [hcut]
    dsimp only
    rw [if_pos (by simp)]
    rfl
  | @stepped _ _ n hhead _ hslash =>
    have hcut : cutAt? '/' (a ++ '-' :: b ++ '/' :: n) = some (a ++ '-' :: b, n) :=
      cutAt?_eq_some_iff.2 ⟨rfl, hslash⟩
    have hhead' := head?_append_cons_ne (r := b) hhead (c := '-') (by decide)
    rw [read_of_head_ne (by simp) (head?_append_cons_ne hhead' (by decide))]
    unfold Term.readPlain
    rw [hcut]
    rfl

theorem ofRange_eq_error_iff : Term.ofRange f p x y n? = .error err ↔
    ∃ n fault, n? = some n ∧ StepFault n fault ∧ err = ⟨f, p, fault⟩ := by
  cases n? with
  | none => simp [Term.ofRange]
  | some n =>
    change (Term.readStep f p n).map _ = _ ↔ _
    rw [map_eq_error_iff, readStep_eq_error_iff]
    simp

/-! ## The errors of a text -/

theorem Ranges.faulty (h : Ranges p a b n?) (hp : Term.read f p = .error err) : Faulty f p err := by
  rw [h.read_eq, bind_eq_error_iff, readRange_eq_error_iff h.not_mem] at hp
  rcases hp with (ha | ⟨x, hx, hb⟩ | ⟨x, y, hx, hy, hle, rfl⟩) | ⟨⟨x, y⟩, hr, hstep⟩
  · obtain ⟨hnone, rfl⟩ := readValue_eq_error_iff.1 ha
    exact .start h hnone
  · obtain ⟨hnone, rfl⟩ := readValue_eq_error_iff.1 hb
    exact .stop h (readValue_eq_ok_iff.1 hx) hnone
  · exact .order h (readValue_eq_ok_iff.1 hx) (readValue_eq_ok_iff.1 hy) hle
  · obtain ⟨n, fault, rfl, hfault, rfl⟩ := ofRange_eq_error_iff.1 hstep
    obtain ⟨hx, hy, hlt⟩ := denotes_of_readRange_append h.not_mem hr
    exact .step h hx hy hlt hfault

theorem exists_sides (hp : p.head? ≠ some '*') (hm : '-' ∈ p) :
    ∃ a b, p = a ++ '-' :: b ∧ '-' ∉ a ∧ a.head? ≠ some '*' := by
  obtain ⟨a, b, rfl, ha⟩ := List.eq_append_cons_of_mem hm
  exact ⟨a, b, rfl, ha, head?_ne_of_append_cons hp⟩

theorem faulty_of_readPlain (hp : p.head? ≠ some '*') (hne : p ≠ []) (h : Term.readPlain f p = .error err) :
    Faulty f p err := by
  have hread : Term.read f p = .error err := by rw [read_of_head_ne hne hp, h]
  by_cases hslash : '/' ∈ p
  · obtain ⟨r, n, rfl, hr⟩ := List.eq_append_cons_of_mem hslash
    have hr' : r.head? ≠ some '*' := head?_ne_of_append_cons hp
    by_cases hhyphen : '-' ∈ r
    · obtain ⟨a, b, rfl, ha, hhead⟩ := exists_sides hr' hhyphen
      exact (Ranges.stepped hhead ha hr).faulty hread
    · rw [readPlain_of_noRange hr hhyphen] at h
      cases h
      exact .noRange hr' hr hhyphen
  by_cases hhyphen : '-' ∈ p
  · obtain ⟨a, b, rfl, ha, hhead⟩ := exists_sides hp hhyphen
    exact (Ranges.plain hhead ha hslash).faulty hread
  rw [readPlain_of_single hslash hhyphen] at h
  by_cases hall : p.all Char.isAlphanum = true
  · rw [if_pos hall] at h
    obtain ⟨hnone, rfl⟩ := readValue_eq_error_iff.1 (map_eq_error_iff.1 h)
    exact .value hne (List.all_eq_true.1 hall) hnone
  · rw [if_neg hall] at h
    cases h
    exact .unrecognized hp hslash hhyphen fun h => hall (List.all_eq_true.2 h)

theorem faulty_of_read (h : Term.read f p = .error err) : Faulty f p err := by
  cases p with
  | nil => cases h; exact .empty
  | cons c s =>
    by_cases hc : c = '*'
    · subst hc
      cases s with
      | nil => cases h
      | cons d s =>
        by_cases hd : d = '/'
        · subst hd
          obtain ⟨fault, hfault, rfl⟩ := readStep_eq_error_iff.1 (map_eq_error_iff.1 h)
          exact .starStep hfault
        · rw [read_star_cons hd] at h
          cases h
          exact .starred (List.cons_ne_nil d s) (by simpa using hd)
    · rw [read_cons_of_ne hc] at h
      exact faulty_of_readPlain (by simpa using hc) (List.cons_ne_nil c s) h

theorem read_of_faulty (h : Faulty f p err) : Term.read f p = .error err := by
  cases h with
  | empty => rfl
  | @starred s hne hs =>
    obtain ⟨d, s, rfl⟩ := List.exists_cons_of_ne_nil hne
    apply read_star_cons
    intro hd
    exact hs (congrArg some hd)
  | starStep hfault => exact map_eq_error_iff.2 (readStep_eq_error_iff.2 ⟨_, hfault, rfl⟩)
  | noRange hr hslash hhyphen =>
    rw [read_of_head_ne (by simp) (head?_append_cons_ne hr (by decide)), readPlain_of_noRange hslash hhyphen]
  | start hp hnone =>
    rw [hp.read_eq]
    refine bind_eq_error_iff.2 (Or.inl ((readRange_eq_error_iff hp.not_mem).2 (Or.inl ?_)))
    exact readValue_eq_error_iff.2 ⟨hnone, rfl⟩
  | stop hp hx hnone =>
    rw [hp.read_eq]
    refine bind_eq_error_iff.2 (Or.inl ((readRange_eq_error_iff hp.not_mem).2 (Or.inr (Or.inl ?_))))
    exact ⟨_, readValue_eq_ok_iff.2 hx, readValue_eq_error_iff.2 ⟨hnone, rfl⟩⟩
  | order hp hx hy hle =>
    rw [hp.read_eq]
    refine bind_eq_error_iff.2 (Or.inl ((readRange_eq_error_iff hp.not_mem).2 (Or.inr (Or.inr ?_))))
    exact ⟨_, _, readValue_eq_ok_iff.2 hx, readValue_eq_ok_iff.2 hy, hle, rfl⟩
  | step hp hx hy hlt hfault =>
    rw [hp.read_eq]
    refine bind_eq_error_iff.2 (Or.inr ⟨(_, _), readRange_eq_ok_iff.2 ⟨_, _, rfl, hx, hy, hlt⟩, ?_⟩)
    exact ofRange_eq_error_iff.2 ⟨_, _, rfl, hfault, rfl⟩
  | value hne hall hnone =>
    have hnot : ∀ {c : Char}, c.isAlphanum = false → c ∉ p := by
      intro c hc hm
      rw [hall c hm] at hc
      cases hc
    have hhead : p.head? ≠ some '*' := fun h => hnot (by decide) (List.mem_of_head? h)
    rw [read_of_head_ne hne hhead, readPlain_of_single (hnot (by decide)) (hnot (by decide)),
      if_pos (List.all_eq_true.2 hall)]
    exact map_eq_error_iff.2 (readValue_eq_error_iff.2 ⟨hnone, rfl⟩)
  | unrecognized hp hslash hhyphen hall =>
    have hne : p ≠ [] := by
      intro h
      subst h
      exact hall (by simp)
    rw [read_of_head_ne hne hp, readPlain_of_single hslash hhyphen, if_neg fun h => hall (List.all_eq_true.1 h)]

theorem read_eq_error_iff : Term.read f p = .error err ↔ Faulty f p err :=
  ⟨faulty_of_read, read_of_faulty⟩

theorem Faulty.unique {err' : TermError} (h : Faulty f p err) (h' : Faulty f p err') : err = err' :=
  Except.error.inj ((read_of_faulty h).symm.trans (read_of_faulty h'))

/-! ## What is blamed -/

@[simp] theorem Fault.isOfValue_ofToken (token : List Char) : (Fault.ofToken token).isOfValue = true := by
  unfold ofToken
  by_cases hnil : token = []
  · simp [hnil, isOfValue]
  · by_cases hnum : isNumeral token = true <;> simp [hnil, hnum, isOfValue]

theorem Fault.isOfStep_eq_false {fault : Fault} (h : fault.isOfValue = true) : fault.isOfStep = false := by
  cases fault <;> simp [isOfValue, isOfStep] at h ⊢

theorem StepFault.isOfValue {fault : Fault} (h : StepFault n fault) : fault.isOfValue = false := by
  cases h <;> rfl

theorem Ranges.start_within (h : Ranges p a b n?) : a <:+: p := by
  cases h with
  | plain => exact List.infix_append' [] a _
  | stepped =>
    rw [List.append_assoc]
    exact List.infix_append' [] a _

theorem Ranges.stop_within (h : Ranges p a b n?) : b <:+: p := by
  cases h with
  | plain => exact ⟨a ++ ['-'], [], by simp⟩
  | @stepped _ _ n => exact ⟨a ++ ['-'], '/' :: n, by simp⟩

theorem Faulty.value_or_whole (h : Faulty f p err) :
    err.fault.isOfValue = true ∧ BlamesValue f p err ∨ err.fault.isOfValue = false ∧ err.term = p := by
  cases h with
  | empty => exact Or.inr ⟨rfl, rfl⟩
  | starred => exact Or.inr ⟨rfl, rfl⟩
  | starStep hfault => exact Or.inr ⟨hfault.isOfValue, rfl⟩
  | noRange => exact Or.inr ⟨rfl, rfl⟩
  | start hp hnone =>
    exact Or.inl ⟨Fault.isOfValue_ofToken _, .start hp rfl (readValue_eq_error_iff.2 ⟨hnone, rfl⟩)⟩
  | stop hp _ hnone =>
    exact Or.inl ⟨Fault.isOfValue_ofToken _, .stop hp rfl (readValue_eq_error_iff.2 ⟨hnone, rfl⟩)⟩
  | order => exact Or.inr ⟨rfl, rfl⟩
  | step _ _ _ _ hfault => exact Or.inr ⟨hfault.isOfValue, rfl⟩
  | value _ hall hnone =>
    exact Or.inl ⟨Fault.isOfValue_ofToken _, .single hall rfl (readValue_eq_error_iff.2 ⟨hnone, rfl⟩)⟩
  | unrecognized => exact Or.inr ⟨rfl, rfl⟩

theorem BlamesValue.within (h : BlamesValue f p err) : err.term <:+: p := by
  cases h with
  | single _ hterm =>
    simp [hterm]
  | start hp hterm =>
    rw [hterm]
    exact hp.start_within
  | stop hp hterm =>
    rw [hterm]
    exact hp.stop_within

theorem Faulty.within (h : Faulty f p err) : err.term <:+: p := by
  rcases h.value_or_whole with ⟨-, hvalue⟩ | ⟨-, hterm⟩
  · exact hvalue.within
  · simp [hterm]

/-- A bad value at the start of a range is the error, whatever comes after it. -/
theorem Faulty.eq_of_start {e : TermError} (h : Faulty f p err) (hp : Ranges p a b n?)
    (ha : f.readValue .start a = .error e) : err = e := by
  obtain ⟨hnone, rfl⟩ := readValue_eq_error_iff.1 ha
  exact h.unique (.start hp hnone)

theorem Faulty.eq_of_stop {e : TermError} (h : Faulty f p err) (hp : Ranges p a b n?)
    (hx : f.readValue .start a = .ok x) (hb : f.readValue .stop b = .error e) : err = e := by
  obtain ⟨hnone, rfl⟩ := readValue_eq_error_iff.1 hb
  exact h.unique (.stop hp (readValue_eq_ok_iff.1 hx) hnone)

theorem isOfValue_of_readValue {e : Edge} (h : f.readValue e p = .error err) : err.fault.isOfValue = true := by
  rw [eq_of_readValue_eq_error h]
  exact Fault.isOfValue_ofToken p

/-- Where the step is at fault, the range in front of it is valid. -/
theorem Faulty.sides_of_step (h : Faulty f p err) (hstep : err.fault.isOfStep = true) (hp : Ranges p a b n?) :
    ∃ x y, f.readValue .start a = .ok x ∧ f.readValue .stop b = .ok y ∧ x < y := by
  have hnot : ∀ {err'}, err = err' → err'.fault.isOfStep = false → False := by
    intro err' heq hfalse
    rw [heq, hfalse] at hstep
    cases hstep
  cases ha : f.readValue .start a with
  | error e => exact (hnot (h.eq_of_start hp ha) (Fault.isOfStep_eq_false (isOfValue_of_readValue ha))).elim
  | ok x =>
    cases hb : f.readValue .stop b with
    | error e => exact (hnot (h.eq_of_stop hp ha hb) (Fault.isOfStep_eq_false (isOfValue_of_readValue hb))).elim
    | ok y =>
      refine ⟨x, y, rfl, rfl, Nat.lt_of_not_le fun hle => ?_⟩
      exact hnot (h.unique (.order hp (readValue_eq_ok_iff.1 ha) (readValue_eq_ok_iff.1 hb) hle)) rfl

theorem Faulty.sides_of_order (h : Faulty f p err) (horder : err.fault = .unorderedRange) :
    ∃ a b n x y, Ranges p a b n ∧ f.readValue .start a = .ok x ∧ f.readValue .stop b = .ok y ∧ y ≤ x := by
  have hvalue : ∀ {token : List Char}, Fault.ofToken token ≠ .unorderedRange := by
    intro token h
    have := Fault.isOfValue_ofToken token
    rw [h] at this
    cases this
  cases h with
  | order hp hx hy hle => exact ⟨_, _, _, _, _, hp, readValue_eq_ok_iff.2 hx, readValue_eq_ok_iff.2 hy, hle⟩
  | empty => cases horder
  | starred => cases horder
  | starStep hfault => cases hfault <;> cases horder
  | noRange => cases horder
  | start => exact absurd horder hvalue
  | stop => exact absurd horder hvalue
  | step _ _ _ _ hfault => cases hfault <;> cases horder
  | value => exact absurd horder hvalue
  | unrecognized => cases horder

theorem Faulty.blames (h : Faulty f p err) : Blames f p err where
  field := field_of_read (read_of_faulty h)
  within := h.within
  value hv := by
    rcases h.value_or_whole with ⟨-, hvalue⟩ | ⟨hfalse, -⟩
    · exact hvalue
    · rw [hfalse] at hv
      cases hv
  start _ _ _ _ hp ha := h.eq_of_start hp ha
  whole hv := by
    rcases h.value_or_whole with ⟨htrue, -⟩ | ⟨-, hterm⟩
    · rw [htrue] at hv
      cases hv
    · exact hterm
  order := h.sides_of_order
  step hstep _ _ _ hp := h.sides_of_step hstep hp

end

/-- **Blame.** The error of an expression is that of its first piece which is no term: it names the field, and blames a
value of that piece which has this error on its own, or else the whole piece. -/
theorem expand_blames {f : Field} {s : List Char} {err : TermError} (h : expand f s = .error err) :
    ∃ before p after, pieces s = before ++ p :: after ∧ (∀ q ∈ before, ∃ t, Spells f q t) ∧
      (∀ t, ¬ Spells f p t) ∧ Blames f p err := by
  obtain ⟨before, p, after, hs, hbefore, hp⟩ := mapM_eq_error_iff.1 (map_eq_error_iff.1 h)
  refine ⟨before, p, after, hs, fun q hq => ?_, fun t ht => ?_, (faulty_of_read hp).blames⟩
  · obtain ⟨t, ht⟩ := hbefore q hq
    exact ⟨t, read_eq_ok_iff.1 ht⟩
  · rw [read_eq_ok_iff.2 ht] at hp
    cases hp

-- Both sides of the first bad piece and its step are bad, and so is the piece behind it.
theorem expand_blames_start :
    let s := " *,9-17,24-x/0,17-9 ".toList
    let err : TermError := ⟨.hour, "24".toList, .valueOutOfRange⟩
    expand .hour s = .error err ∧ ∃ before p after, pieces s = before ++ p :: after ∧
      (∀ q ∈ before, ∃ t, Spells .hour q t) ∧ (∀ t, ¬ Spells .hour p t) ∧ Blames .hour p err := by
  intro s err
  have h : expand .hour s = .error err := by decide +kernel
  exact ⟨h, expand_blames h⟩

end CronSchedule
