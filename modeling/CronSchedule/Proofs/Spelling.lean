import Mathlib.Logic.Relation
import CronSchedule.Proofs.Layout
import CronSchedule.Text.Spelling

/-!
# The spelling of a line does not matter

The plain spelling of a text falls apart at the same separators, into the plain spellings of the same parts
(`plain_append_cons`, from which follow `splitOnP_plain` and `cutAt?_plain`). Whatever reads a part has the same outcome
for its plain spelling, down to the fault that it finds (`expand_plain`). So lines with the same words in plain spelling
are read alike, and each change of spelling leaves these words as they are (`words_plain_of_respells`).
-/

namespace CronSchedule

/-! ## Capital and small letters -/

section
variable {P : Char → Bool} {c : Char}

theorem toNat_toLower_of_isUpper (h : c.isUpper = true) : c.toLower.toNat = c.toNat + 32 := by
  have hc := isUpper_iff.1 h
  unfold Char.toLower
  split
  · have hle : c.toNat ≤ 90 := hc.2
    change (c.val + 32).toNat = c.toNat + 32
    rw [UInt32.toNat_add, Nat.mod_eq_of_lt]
    · rfl
    · change c.toNat + 32 < 2 ^ 32
      omega
  · rename_i hn
    exact absurd hc hn

theorem isLower_toLower_of_isUpper (h : c.isUpper = true) : c.toLower.isLower = true := by
  have hc := isUpper_iff.1 h
  rw [isLower_iff, toNat_toLower_of_isUpper h]
  exact ⟨Nat.add_le_add_right hc.1 32, Nat.add_le_add_right hc.2 32⟩

theorem isAlpha_iff : c.isAlpha = true ↔ c.isUpper = true ∨ c.isLower = true := by
  rw [← Bool.or_eq_true]
  exact Iff.rfl

/-- Whatever all letters have in common is the same in both cases. -/
theorem toLower_congr {b : Bool} (h : ∀ c : Char, c.isAlpha = true → P c = b) (c : Char) : P c.toLower = P c := by
  by_cases hu : c.isUpper = true
  · have hc : c.isAlpha = true := isAlpha_iff.2 (Or.inl hu)
    have hl : c.toLower.isAlpha = true := isAlpha_iff.2 (Or.inr (isLower_toLower_of_isUpper hu))
    rw [h c hc, h c.toLower hl]
  · rw [toLower_of_not_isUpper hu]

theorem isAlphanum_of_isAlpha (h : c.isAlpha = true) : c.isAlphanum = true :=
  isAlphanum_iff.2 (Or.inl (isAlpha_iff.1 h))

theorem isAlphanum_toLower (c : Char) : c.toLower.isAlphanum = c.isAlphanum :=
  toLower_congr (fun _ => isAlphanum_of_isAlpha) c

theorem isDigit_eq_false_of_isAlpha (h : c.isAlpha = true) : c.isDigit = false := by
  apply Bool.eq_false_iff.2
  intro hd
  rcases isAlpha_iff.1 h with hu | hl
  · have hl := isLower_toLower_of_isUpper hu
    rw [toLower_of_isDigit hd] at hl
    exact not_isLower_of_isDigit hd hl
  · exact not_isLower_of_isDigit hd hl

theorem isDigit_toLower (c : Char) : c.toLower.isDigit = c.isDigit :=
  toLower_congr (fun _ => isDigit_eq_false_of_isAlpha) c

theorem toLower_toLower (c : Char) : c.toLower.toLower = c.toLower := by
  by_cases hu : c.isUpper = true
  · apply toLower_of_not_isUpper
    intro hu'
    have hc := isUpper_iff.1 hu
    have hl := isUpper_iff.1 hu'
    rw [toNat_toLower_of_isUpper hu] at hl
    exact absurd (Nat.le_trans (Nat.add_le_add_right hc.1 32) hl.2) (by decide)
  · rw [toLower_of_not_isUpper hu, toLower_of_not_isUpper hu]

end

/-- Texts are cut where `P` holds, and not at letters and digits. -/
def Separates (P : Char → Bool) : Prop :=
  ∀ c, c.isAlphanum = true → P c = false

section
variable {P : Char → Bool} {c : Char}

theorem separates_isBlank : Separates isBlank :=
  fun _ => isBlank_of_isAlphanum

theorem separates_beq {sep : Char} (h : sep.isAlphanum = false) : Separates (· == sep) := by
  intro c hc
  apply beq_eq_false_iff_ne.2
  intro heq
  rw [heq, h] at hc
  cases hc

theorem Separates.toLower (hP : Separates P) (c : Char) : P c.toLower = P c :=
  toLower_congr (fun c hc => hP c (isAlphanum_of_isAlpha hc)) c

theorem Separates.isAlphanum (hP : Separates P) (hc : P c = true) : c.isAlphanum = false := by
  apply Bool.eq_false_iff.2
  intro h
  rw [hP c h] at hc
  cases hc

end

/-! ## Plain spellings -/

section
variable {P : Char → Bool} {b : Bool} {c sep : Char} {s : List Char}

/-- At a character that is no digit the spelling begins anew. -/
theorem plainFrom_append_cons (hc : c.isDigit = false) (a r : List Char) :
    plainFrom b (a ++ c :: r) = plainFrom b a ++ c.toLower :: plain r := by
  induction a generalizing b with
  | nil =>
    have hzero : c ≠ '0' := by
      intro h
      subst h
      cases hc
    simp [plainFrom, hzero, hc, plain]
  | cons x a ih =>
    have hhead : (a ++ c :: r).head?.any Char.isDigit = a.head?.any Char.isDigit := by
      cases a <;> simp [hc]
    simp only [List.cons_append, plainFrom, hhead, ih]
    split
    · rfl
    · rfl

theorem plain_append_cons (hc : c.isAlphanum = false) (a r : List Char) :
    plain (a ++ c :: r) = plain a ++ c :: plain r := by
  have hd : c.isDigit = false := by
    apply Bool.eq_false_iff.2
    intro hd
    rw [isAlphanum_of_isDigit hd] at hc
    cases hc
  have hu : ¬ c.isUpper = true := by
    intro hu
    rw [isAlphanum_iff.2 (Or.inl (Or.inl hu))] at hc
    cases hc
  unfold plain
  rw [plainFrom_append_cons hd, toLower_of_not_isUpper hu, plain]

theorem plain_cons (hc : c.isAlphanum = false) (r : List Char) : plain (c :: r) = c :: plain r :=
  plain_append_cons hc [] r

/-- The first character is kept, or it is a zero and another digit comes first. -/
theorem exists_plainFrom_cons (b : Bool) (c : Char) (s : List Char) :
    ∃ d t, plainFrom b (c :: s) = d :: t ∧ (d = c.toLower ∨ c.isDigit = true ∧ d.isDigit = true) := by
  induction s generalizing b c with
  | nil => exact ⟨c.toLower, [], by simp [plainFrom], Or.inl rfl⟩
  | cons x s ih =>
    by_cases h : c = '0' ∧ b = false ∧ (x :: s).head?.any Char.isDigit = true
    · obtain ⟨d, t, ht, hd⟩ := ih false x
      have hx : x.isDigit = true := h.2.2
      refine ⟨d, t, ?_, Or.inr ⟨?_, ?_⟩⟩
      · rw [← ht]
        exact if_pos h
      · rw [h.1]
        rfl
      · rcases hd with rfl | hd
        · rw [isDigit_toLower, hx]
        · exact hd.2
    · exact ⟨c.toLower, plainFrom c.isDigit (x :: s), if_neg h, Or.inl rfl⟩

theorem exists_plain_cons (hsep : sep.isAlphanum = false) (hc : c ≠ sep) (s : List Char) :
    ∃ d t, plain (c :: s) = d :: t ∧ d ≠ sep := by
  obtain ⟨d, t, h, hd⟩ := exists_plainFrom_cons false c s
  refine ⟨d, t, h, ?_⟩
  rcases hd with rfl | ⟨-, hd⟩
  · have heq := (separates_beq hsep).toLower c
    rw [beq_eq_false_iff_ne.2 hc] at heq
    exact beq_eq_false_iff_ne.1 heq
  · intro h
    subst h
    rw [isAlphanum_of_isDigit hd] at hsep
    cases hsep

theorem isEmpty_plain (s : List Char) : (plain s).isEmpty = s.isEmpty := by
  cases s with
  | nil => rfl
  | cons c s =>
    obtain ⟨d, t, h, -⟩ := exists_plainFrom_cons false c s
    unfold plain
    rw [h]
    rfl

theorem plain_eq_nil_iff : plain s = [] ↔ s = [] := by
  rw [← List.isEmpty_iff, isEmpty_plain, List.isEmpty_iff]

theorem all_plainFrom (hP : ∀ c : Char, P c.toLower = P c) (hzero : P '0' = true) :
    (plainFrom b s).all P = s.all P := by
  induction s generalizing b with
  | nil => rfl
  | cons c s ih =>
    simp only [plainFrom]
    split
    · rename_i h
      rw [ih, h.1, List.all_cons, hzero, Bool.true_and]
    · rw [List.all_cons, List.all_cons, hP, ih]

theorem not_of_mem_plain (hP : Separates P) (hs : ∀ c ∈ s, P c = false) : ∀ c ∈ plain s, P c = false := by
  have hzero : P '0' = false := hP '0' rfl
  have hall : (plain s).all (fun c => !P c) = s.all fun c => !P c :=
    all_plainFrom (fun c => congrArg not (hP.toLower c)) (congrArg not hzero)
  rw [List.all_eq_true.2 fun c hc => congrArg not (hs c hc)] at hall
  intro c hc
  simpa using List.all_eq_true.1 hall c hc

theorem mem_plain_iff (hsep : sep.isAlphanum = false) : sep ∈ plain s ↔ sep ∈ s := by
  constructor
  · intro h
    by_contra hn
    have hne : ∀ c ∈ s, (c == sep) = false := by
      intro c hc
      apply beq_eq_false_iff_ne.2
      rintro rfl
      exact hn hc
    have hfalse := not_of_mem_plain (separates_beq hsep) hne sep h
    simp at hfalse
  · intro h
    obtain ⟨a, r, rfl⟩ := List.append_of_mem h
    rw [plain_append_cons hsep]
    simp

/-! ### Parts of a text -/

theorem splitOnP_plain (hP : Separates P) (s : List Char) : (plain s).splitOnP P = (s.splitOnP P).map plain := by
  induction s using cut_induction (P := P) with
  | uncut s hs =>
    rw [List.splitOnP_eq_singleton hs, List.splitOnP_eq_singleton (not_of_mem_plain hP hs)]
    rfl
  | cut a c r hc iha ihr =>
    rw [plain_append_cons (hP.isAlphanum hc), List.splitOnP_append_cons _ _ hc, List.splitOnP_append_cons _ _ hc,
      iha, ihr, List.map_append]

theorem words_plain (s : List Char) : words (plain s) = (words s).map plain := by
  unfold words
  rw [splitOnP_plain separates_isBlank, List.filter_map]
  congr 1
  apply List.filter_congr
  intro w _
  rw [Function.comp_apply, isEmpty_plain]

theorem cutAt?_plain (hsep : sep.isAlphanum = false) (s : List Char) :
    cutAt? sep (plain s) = (cutAt? sep s).map fun p => (plain p.1, plain p.2) := by
  cases h : cutAt? sep s with
  | none => exact cutAt?_eq_none_iff.2 (mt (mem_plain_iff hsep).1 (cutAt?_eq_none_iff.1 h))
  | some p =>
    obtain ⟨rfl, hp⟩ := cutAt?_eq_some_iff.1 h
    exact cutAt?_eq_some_iff.2 ⟨plain_append_cons hsep _ _, mt (mem_plain_iff hsep).1 hp⟩

/-! ### Numerals and names -/

theorem isNumeral_plain (s : List Char) : isNumeral (plain s) = isNumeral s := by
  unfold isNumeral
  rw [isEmpty_plain, plain, all_plainFrom isDigit_toLower rfl]

theorem ofDigitChars_plainFrom (hs : ∀ c ∈ s, c.isDigit = true) {n : Nat} (hn : b = false → n = 0) :
    Nat.ofDigitChars 10 (plainFrom b s) n = Nat.ofDigitChars 10 s n := by
  induction s generalizing b n with
  | nil => rfl
  | cons c s ih =>
    have hs' := fun x hx => hs x (List.mem_cons_of_mem c hx)
    simp only [plainFrom]
    split
    · rename_i h
      obtain ⟨rfl, hb, -⟩ := h
      rw [Nat.ofDigitChars_cons, hn hb, ih hs' fun _ => rfl]
      rfl
    · have hc := hs c List.mem_cons_self
      rw [toLower_of_isDigit hc, Nat.ofDigitChars_cons, Nat.ofDigitChars_cons]
      apply ih hs'
      intro hd
      rw [hc] at hd
      cases hd

theorem numeralValue_plain (h : isNumeral s = true) : numeralValue (plain s) = numeralValue s :=
  ofDigitChars_plainFrom (isDigit_of_isNumeral h).2 fun _ => rfl

theorem plainFrom_eq_map (hs : ∀ c ∈ s, c.isDigit = false) : plainFrom b s = s.map Char.toLower := by
  induction s generalizing b with
  | nil => rfl
  | cons c s ih =>
    have hc : c ≠ '0' := by
      rintro rfl
      exact absurd (hs '0' List.mem_cons_self) (by decide)
    rw [plainFrom, if_neg fun h => hc h.1, ih fun x hx => hs x (List.mem_cons_of_mem c hx), List.map_cons]

theorem any_isDigit_plainFrom : (plainFrom b s).any Char.isDigit = s.any Char.isDigit := by
  induction s generalizing b with
  | nil => rfl
  | cons c s ih =>
    simp only [plainFrom]
    split
    · rename_i h
      obtain ⟨rfl, -, hs⟩ := h
      rw [ih]
      cases s with
      | nil => cases hs
      | cons d s =>
        have hd : d.isDigit = true := hs
        rw [List.any_cons, List.any_cons, hd, Bool.true_or]
        rfl
    · rw [List.any_cons, List.any_cons, isDigit_toLower, ih]

theorem namedValue?_eq_none_of_isDigit {f : Field} {e : Edge} (hc : c ∈ s) (hd : c.isDigit = true) :
    f.namedValue? e s = none := by
  apply Option.eq_none_iff_forall_ne_some.2
  intro v h
  obtain ⟨i, name, hi, -, hp, -⟩ := namedValue?_eq_some_iff.1 h
  have hl := isLower_of_mem_valueNames (List.mem_of_getElem? hi) _ (hp.subset (List.mem_map_of_mem hc))
  rw [toLower_of_isDigit hd] at hl
  exact not_isLower_of_isDigit hd hl

theorem namedValue?_plain (f : Field) (e : Edge) (s : List Char) : f.namedValue? e (plain s) = f.namedValue? e s := by
  by_cases h : s.any Char.isDigit = true
  · obtain ⟨c, hc, hd⟩ := List.any_eq_true.1 h
    have h' : (plain s).any Char.isDigit = true := any_isDigit_plainFrom.trans h
    obtain ⟨c', hc', hd'⟩ := List.any_eq_true.1 h'
    rw [namedValue?_eq_none_of_isDigit hc hd, namedValue?_eq_none_of_isDigit hc' hd']
  · have hlower : Char.toLower ∘ Char.toLower = Char.toLower := funext toLower_toLower
    have hs : ∀ c ∈ s, c.isDigit = false := by simpa using h
    unfold plain Field.namedValue?
    rw [plainFrom_eq_map hs, List.length_map, List.map_map, hlower]

end

/-! ## Outcomes -/

/-- What is wrong and in which field. -/
def TermError.kind (e : TermError) : Field × Fault :=
  (e.field, e.fault)

/-- An error without the text that is to blame. -/
inductive ReadError.Kind where
  | fieldCount (found : Nat)
  | invalidTerm (kind : Field × Fault)
  deriving DecidableEq

def ReadError.kind : ReadError → ReadError.Kind
  | fieldCount found => .fieldCount found
  | invalidTerm e => .invalidTerm e.kind

section
variable (f : Field)

theorem readValue_plain (e : Edge) (s : List Char) :
    (f.readValue e (plain s)).mapError TermError.kind = (f.readValue e s).mapError TermError.kind := by
  unfold Field.readValue
  by_cases hs : s = []
  · rw [if_pos hs, if_pos (plain_eq_nil_iff.2 hs)]
    rfl
  rw [if_neg hs, if_neg (mt plain_eq_nil_iff.1 hs), isNumeral_plain, namedValue?_plain]
  by_cases hnum : isNumeral s = true
  · rw [if_pos hnum, if_pos hnum, numeralValue_plain hnum]
    split <;> rfl
  · rw [if_neg hnum, if_neg hnum]
    cases f.namedValue? e s <;> rfl

theorem readStep_plain (term term' n : List Char) :
    (Term.readStep f term' (plain n)).mapError TermError.kind = (Term.readStep f term n).mapError TermError.kind := by
  unfold Term.readStep
  rw [isNumeral_plain]
  by_cases hnum : isNumeral n = true
  · rw [if_pos hnum, if_pos hnum, numeralValue_plain hnum]
    split <;> rfl
  · rw [if_neg hnum, if_neg hnum]
    rfl

theorem readRange_plain (term term' r : List Char) :
    (Term.readRange f term' (plain r)).mapError TermError.kind = (Term.readRange f term r).mapError TermError.kind := by
  unfold Term.readRange
  rw [cutAt?_plain (by decide)]
  cases cutAt? '-' r with
  | none => rfl
  | some p =>
    simp only [Option.map_some, mapError_bind, readValue_plain]
    refine bind_congr fun start => bind_congr fun stop => ?_
    split <;> rfl

theorem readPlain_plain (s : List Char) :
    (Term.readPlain f (plain s)).mapError TermError.kind = (Term.readPlain f s).mapError TermError.kind := by
  unfold Term.readPlain
  rw [cutAt?_plain (by decide)]
  cases cutAt? '/' s with
  | some p =>
    simp only [Option.map_some, mapError_bind, readRange_plain f s, readStep_plain f s]
  | none =>
    simp only [Option.map_none]
    by_cases hmem : '-' ∈ s
    · rw [if_pos hmem, if_pos ((mem_plain_iff (by decide)).2 hmem), mapError_bind, mapError_bind, readRange_plain f s]
    rw [if_neg hmem, if_neg (mt (mem_plain_iff (by decide)).1 hmem)]
    have hall : (plain s).all Char.isAlphanum = s.all Char.isAlphanum := all_plainFrom isAlphanum_toLower rfl
    rw [hall]
    split
    · change ((f.readValue .start (plain s)).map Term.value).mapError _ =
        ((f.readValue .start s).map Term.value).mapError _
      rw [mapError_map, mapError_map, readValue_plain]
    · rfl

theorem read_plain (s : List Char) :
    (Term.read f (plain s)).mapError TermError.kind = (Term.read f s).mapError TermError.kind := by
  cases s with
  | nil => rfl
  | cons c s =>
    by_cases hc : c = '*'
    · subst hc
      rw [plain_cons (by decide)]
      cases s with
      | nil => rfl
      | cons d s =>
        by_cases hd : d = '/'
        · subst hd
          rw [plain_cons (by decide)]
          change ((Term.readStep f _ (plain s)).map Term.every).mapError _ =
            ((Term.readStep f _ s).map Term.every).mapError _
          rw [mapError_map, mapError_map, readStep_plain]
        · obtain ⟨d', s', h, hd'⟩ := exists_plain_cons (by decide) hd s
          rw [h, read_star_cons hd, read_star_cons hd']
          rfl
    · obtain ⟨c', s', h, hc'⟩ := exists_plain_cons (by decide) hc s
      rw [read_cons_of_ne hc, h, read_cons_of_ne hc', ← h, readPlain_plain]

theorem expand_plain {w : List Char} (hw : ∀ c ∈ w, isBlank c = false) :
    (expand f (plain w)).mapError TermError.kind = (expand f w).mapError TermError.kind := by
  have hpieces : pieces (plain w) = (pieces w).map plain := by
    unfold pieces
    rw [trim_eq_self hw, trim_eq_self (not_of_mem_plain separates_isBlank hw)]
    exact splitOnP_plain (separates_beq (by decide)) w
  unfold expand readTerms
  rw [mapError_map, mapError_map, hpieces, List.mapM_map, mapError_mapM, mapError_mapM]
  simp only [Function.comp_apply, read_plain]

end

theorem isStarred_plain {w : List Char} (hw : ∀ c ∈ w, isBlank c = false) : isStarred (plain w) = isStarred w := by
  unfold isStarred
  rw [trim_eq_self hw, trim_eq_self (not_of_mem_plain separates_isBlank hw)]
  cases w with
  | nil => rfl
  | cons c w =>
    by_cases hc : c = '*'
    · subst hc
      rw [plain_cons (by decide)]
      rfl
    · obtain ⟨c', w', h, hc'⟩ := exists_plain_cons (by decide) hc w
      simp [h, hc, hc']

theorem kind_of_mapError {α : Type} (x : Except TermError α) :
    (x.mapError ReadError.invalidTerm).mapError ReadError.kind =
      (x.mapError TermError.kind).mapError ReadError.Kind.invalidTerm := by
  cases x <;> rfl

namespace Schedule

theorem ofFields_map_plain {ws : List (List Char)} (hws : ∀ w ∈ ws, IsWord w) :
    (ofFields (ws.map plain)).mapError ReadError.kind = (ofFields ws).mapError ReadError.kind := by
  by_cases hl : ws.length = 5
  · match ws, hl with
    | [minute, hour, dayOfMonth, month, dayOfWeek], _ =>
      simp only [List.forall_mem_cons] at hws
      obtain ⟨⟨-, hmi⟩, ⟨-, hh⟩, ⟨-, hd⟩, ⟨-, hm⟩, ⟨-, hw⟩, -⟩ := hws
      rw [List.map_cons, List.map_cons, List.map_cons, List.map_cons, List.map_cons, List.map_nil, ofFields_five,
        ofFields_five, kind_of_mapError, kind_of_mapError, isStarred_plain hd, isStarred_plain hw]
      simp only [mapError_bind, expand_plain _ hmi, expand_plain _ hh, expand_plain _ hd, expand_plain _ hm,
        expand_plain _ hw]
  · have hl' : (ws.map plain).length ≠ 5 := by rwa [List.length_map]
    rw [ofFields_of_length_ne hl, ofFields_of_length_ne hl', List.length_map]

theorem ofLine_plain (line : List Char) :
    (ofLine (plain line)).mapError ReadError.kind = (ofLine line).mapError ReadError.kind := by
  unfold ofLine
  rw [words_plain]
  exact ofFields_map_plain fun w => isWord_of_mem_words

end Schedule

/-! ## Changes of spelling -/

theorem plain_of_letter {c d : Char} (h : c.toLower = d.toLower) (before after : List Char) :
    plain (before ++ c :: after) = plain (before ++ d :: after) := by
  have hcd : c.isDigit = d.isDigit := by
    rw [← isDigit_toLower c, h, isDigit_toLower]
  by_cases hc : c.isDigit = true
  · have hd : d.isDigit = true := hcd.symm.trans hc
    rw [toLower_of_isDigit hc, toLower_of_isDigit hd] at h
    rw [h]
  · have hc : c.isDigit = false := Bool.eq_false_iff.2 hc
    unfold plain
    rw [plainFrom_append_cons hc, plainFrom_append_cons (hcd.symm.trans hc), h]

theorem plain_of_zero {before : List Char} (h : before.getLast?.any Char.isDigit = false) {d : Char}
    (hd : d.isDigit = true) (after : List Char) :
    plain (before ++ '0' :: d :: after) = plain (before ++ d :: after) := by
  have hzero : plain ('0' :: d :: after) = plain (d :: after) := if_pos ⟨rfl, rfl, hd⟩
  rcases List.eq_nil_or_concat' before with rfl | ⟨before, c, rfl⟩
  · exact hzero
  · have hc : c.isDigit = false := by simpa using h
    rw [List.append_assoc, List.append_assoc, List.singleton_append, List.singleton_append]
    unfold plain
    rw [plainFrom_append_cons hc, plainFrom_append_cons hc, hzero]

theorem words_of_gap {gap : List Char} (h : IsGap gap) (hne : gap ≠ []) (before after : List Char) :
    words (before ++ gap ++ after) = words before ++ words after := by
  obtain ⟨c, gap, rfl⟩ := List.exists_cons_of_ne_nil hne
  rw [List.append_assoc, List.cons_append, words_append_cons h.head, words_gap_append h.tail]

theorem words_plain_of_respells {line line' : List Char} (h : Respells line line') :
    words (plain line') = words (plain line) := by
  cases h with
  | letter before after hcd => rw [plain_of_letter hcd]
  | zero before after hlast hd => rw [plain_of_zero hlast hd]
  | gap before after hgap hne hgap' hne' =>
    rw [words_plain, words_plain, words_of_gap hgap hne, words_of_gap hgap' hne']
  | pad hp => rw [words_plain, words_plain, words_of_pads hp]

namespace Schedule

theorem ofLine_of_respells {line line' : List Char} (h : Respells line line') :
    (ofLine line').mapError ReadError.kind = (ofLine line).mapError ReadError.kind := by
  rw [← ofLine_plain line, ← ofLine_plain line']
  unfold ofLine
  rw [words_plain_of_respells h]

/-- **Spelling.** However often the spelling of a line is changed, it is read as the same schedule or refused for the
same fault in the same field. -/
theorem ofLine_of_respelled {line line' : List Char} (h : Relation.ReflTransGen Respells line line') :
    (ofLine line').mapError ReadError.kind = (ofLine line).mapError ReadError.kind := by
  induction h with
  | refl => rfl
  | tail _ hstep ih => rw [ofLine_of_respells hstep, ih]

-- One change of each kind: a small letter, a leading zero, a wider gap, and a line break at the end.
theorem ofLine_of_respelled_sunday :
    let line := "5 * * * Sun".toList
    let line' := "05 * *\t\u3000* sun\n".toList
    Relation.ReflTransGen Respells line line' ∧
      ofLine line' = .ok ⟨.ofList [5], .full .hour, .full .dayOfMonth, .full .month, .ofList [0], true, false⟩ := by
  intro line line'
  have hletter : Respells line "5 * * * sun".toList := .letter "5 * * * ".toList "un".toList rfl
  have hzero : Respells "5 * * * sun".toList "05 * * * sun".toList := .zero [] " * * * sun".toList rfl rfl
  have hspace : IsGap [' '] := by decide
  have hwide : IsGap "\t\u3000".toList := by decide
  have hgap : Respells "05 * * * sun".toList "05 * *\t\u3000* sun".toList :=
    .gap "05 * *".toList "* sun".toList hspace (by decide) hwide (by decide)
  have hnone : IsGap [] := by decide
  have hbreak : IsGap ['\n'] := by decide
  have hpad : Respells "05 * *\t\u3000* sun".toList line' := .pad (.intro hnone hbreak)
  have h : Relation.ReflTransGen Respells line line' := .head hletter (.head hzero (.head hgap (.single hpad)))
  refine ⟨h, ok_of_mapError_eq_ok ((ofLine_of_respelled h).trans ?_)⟩
  decide +kernel

end Schedule

end CronSchedule
