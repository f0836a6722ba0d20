import CronSchedule.Proofs.ReadSchedule
import CronSchedule.Proofs.Words

/-!
# The layout of a schedule does not matter

Reading looks at an expression only after trimming it (`readLogged_map_trim`). No term has a blank in it, so an
expression that expands is a word (`isWord_trim_of_expand`), and whatever can be given as a list of expressions can
be written on a line as well (`ofFields_layout`).
-/

namespace CronSchedule

/-! ## Expressions that expand are words -/

/-- The characters from `!` to `~` are not blank. -/
theorem isBlank_eq_false {c : Char} (h : '!'.toNat ≤ c.toNat ∧ c.toNat ≤ '~'.toNat) : isBlank c = false := by
  change 33 ≤ c.toNat ∧ c.toNat ≤ 126 at h
  simp [isBlank, blankRanges]
  omega

theorem isBlank_of_isDigit {c : Char} (h : c.isDigit = true) : isBlank c = false := by
  have hd := Char.isDigit_iff_toNat.1 h
  exact isBlank_eq_false ⟨Nat.le_trans (by decide) hd.1, Nat.le_trans hd.2 (by decide)⟩

theorem isBlank_of_isAlphanum {c : Char} (h : c.isAlphanum = true) : isBlank c = false := by
  rcases isAlphanum_iff.1 h with (h | h) | h
  · have hu := isUpper_iff.1 h
    exact isBlank_eq_false ⟨Nat.le_trans (by decide) hu.1, Nat.le_trans hu.2 (by decide)⟩
  · have hl := isLower_iff.1 h
    exact isBlank_eq_false ⟨Nat.le_trans (by decide) hl.1, Nat.le_trans hl.2 (by decide)⟩
  · exact isBlank_of_isDigit h

section
variable {f : Field} {text : List Char}

theorem Denotes.isWord {e : Edge} {v : Nat} (h : Denotes f e text v) : IsWord text :=
  ⟨h.ne_nil, fun c hc => isBlank_of_isAlphanum (h.isAlphanum c hc)⟩

theorem IsStep.isWord {k : Nat} (h : IsStep text k) : IsWord text := by
  cases h with
  | numeral hnum =>
    obtain ⟨hne, hd⟩ := isDigit_of_isNumeral hnum
    exact ⟨hne, fun c hc => isBlank_of_isDigit (hd c hc)⟩

theorem IsWord.append_cons {a b : List Char} (ha : IsWord a) (hb : IsWord b) {c : Char} (hc : isBlank c = false) :
    IsWord (a ++ c :: b) := by
  refine ⟨by simp, ?_⟩
  intro x hx
  rcases List.mem_append.1 hx with hx | hx
  · exact ha.2 x hx
  rcases List.mem_cons.1 hx with rfl | hx
  · exact hc
  · exact hb.2 x hx

theorem Spells.isWord {t : Term} (h : Spells f text t) : IsWord text := by
  cases h with
  | star => decide
  | starStep hk => exact IsWord.append_cons (a := ['*']) (by decide) hk.isWord (by decide)
  | range hx hy => exact hx.isWord.append_cons hy.isWord (by decide)
  | rangeStep hx hy _ hk => exact (hx.isWord.append_cons hy.isWord (by decide)).append_cons hk.isWord (by decide)
  | value hx => exact hx.isWord

theorem isWord_of_spells {texts : List (List Char)} {terms : List Term} (h : List.Forall₂ (Spells f) texts terms) :
    ∀ w ∈ texts, IsWord w := by
  induction h with
  | nil => simp
  | cons hs _ ih => exact List.forall_mem_cons.2 ⟨hs.isWord, ih⟩

theorem isBlank_of_mem_intercalate {ws : List (List Char)} (hw : ∀ w ∈ ws, IsWord w) :
    ∀ c ∈ [','].intercalate ws, isBlank c = false :=
  forall_mem_intercalate (P := fun c => isBlank c = false) (List.forall_mem_singleton.2 (by decide)) fun w h => (hw w h).2

theorem isWord_trim_of_expand {S : ValueSet} (h : expand f text = .ok S) : IsWord (trim text) := by
  obtain ⟨terms, hs, -⟩ := expand_eq_ok_iff.1 h
  have hw := isWord_of_spells hs
  have htext : [','].intercalate (pieces text) = trim text := (pieces_eq_iff.1 rfl).2.2
  constructor
  · intro hnil
    have hmem : [] ∈ pieces text := by
      unfold pieces
      rw [hnil]
      exact List.mem_singleton_self _
    exact (hw [] hmem).1 rfl
  · rw [← htext]
    exact isBlank_of_mem_intercalate hw

end

/-! ## Reading looks at trimmed expressions -/

theorem pieces_trim (expression : List Char) : pieces (trim expression) = pieces expression := by
  unfold pieces
  rw [trim_trim]

theorem expand_trim (f : Field) (expression : List Char) : expand f (trim expression) = expand f expression := by
  unfold expand readTerms
  rw [pieces_trim]

theorem expandLogged_trim (f : Field) (expression : List Char) :
    expandLogged f (trim expression) = expandLogged f expression := by
  unfold expandLogged
  rw [expand_trim, trim_trim]

theorem isStarred_trim (expression : List Char) : isStarred (trim expression) = isStarred expression := by
  unfold isStarred
  rw [trim_trim]

namespace Schedule

theorem readLogged_map_trim (expressions : List (List Char)) :
    readLogged (expressions.map trim) = readLogged expressions := by
  match expressions with
  | [] => rfl
  | [_] => rfl
  | [_, _] => rfl
  | [_, _, _] => rfl
  | [_, _, _, _] => rfl
  | [_, _, _, _, _] => simp only [List.map_cons, List.map_nil, readLogged, expandLogged_trim, isStarred_trim]
  | _ :: _ :: _ :: _ :: _ :: _ :: _ => simp only [List.map_cons, readLogged, List.length_cons, List.length_map]

theorem ofFields_map_trim (expressions : List (List Char)) : ofFields (expressions.map trim) = ofFields expressions := by
  unfold ofFields
  rw [readLogged_map_trim]

theorem map_trim_of_pads {expressions padded : List (List Char)} (h : List.Forall₂ Pads expressions padded) :
    padded.map trim = expressions.map trim := by
  induction h with
  | nil => rfl
  | cons hp _ ih => rw [List.map_cons, List.map_cons, trim_of_pads hp, ih]

theorem isWord_trim_of_ofFields {expressions : List (List Char)} {c : Schedule} (h : ofFields expressions = .ok c) :
    ∀ e ∈ expressions, IsWord (trim e) := by
  obtain ⟨texts, rfl⟩ := exists_texts_of_ofFields h
  have hf := ((ofFields_map_eq_ok_iff texts).1 h).1
  intro e he
  obtain ⟨f, -, rfl⟩ := List.mem_map.1 he
  exact isWord_trim_of_expand (hf f)

theorem ofLine_of_joins {expressions : List (List Char)} (hw : ∀ e ∈ expressions, IsWord (trim e)) {body line : List Char}
    (hj : Joins (expressions.map trim) body) (hp : Pads body line) : ofLine line = ofFields expressions := by
  have hw' : ∀ w ∈ expressions.map trim, IsWord w := List.forall_mem_map.2 hw
  unfold ofLine
  rw [words_of_pads hp, words_of_joins hj hw', ofFields_map_trim]

/-- **Layout.** Blanks around the expressions do not matter, a line of words is read as the list of them, and a list
that is read can be written on a line. -/
theorem ofFields_layout (expressions : List (List Char)) :
    (∀ padded, List.Forall₂ Pads expressions padded → ofFields padded = ofFields expressions) ∧
      ((∀ e ∈ expressions, IsWord (trim e)) → ∀ body line, Joins (expressions.map trim) body → Pads body line →
        ofLine line = ofFields expressions) ∧
      ∀ c, ofFields expressions = .ok c →
        (∀ e ∈ expressions, IsWord (trim e)) ∧ ∃ line, Joins (expressions.map trim) line ∧ ofLine line = .ok c := by
  refine ⟨fun padded hp => ?_, fun hw body line => ofLine_of_joins hw, fun c hc => ?_⟩
  · rw [← ofFields_map_trim padded, map_trim_of_pads hp, ofFields_map_trim]
  · have hw := isWord_trim_of_ofFields hc
    have hj := joins_intercalate (expressions.map trim)
    refine ⟨hw, _, hj, ?_⟩
    have hpads : Pads ([' '].intercalate (expressions.map trim)) ([] ++ [' '].intercalate (expressions.map trim) ++ []) :=
      .intro (by simp [IsGap]) (by simp [IsGap])
    rw [List.nil_append, List.append_nil] at hpads
    rw [ofLine_of_joins hw hj hpads, hc]

-- A tab, an ideographic space and a line break are blanks as good as any.
theorem ofFields_layout_wide_blanks :
    let expressions := ["\u3000*/5".toList, "9-17 ".toList, "*".toList, "*".toList, "mon-fri".toList]
    let c : Schedule := ⟨.ofList [0, 5, 10, 15, 20, 25, 30, 35, 40, 45, 50, 55],
      .ofList [9, 10, 11, 12, 13, 14, 15, 16, 17], .full .dayOfMonth, .full .month, .ofList [1, 2, 3, 4, 5], true, false⟩
    ofFields expressions = .ok c ∧
      ofFields (expressions.map fun e => ['\t', '\n'] ++ e ++ ['\u3000']) = .ok c ∧
      (∀ e ∈ expressions, IsWord (trim e)) ∧ ofLine "\t*/5\u3000 9-17\n* * mon-fri ".toList = .ok c ∧
      ∃ line, Joins (expressions.map trim) line ∧ ofLine line = .ok c := by
  intro expressions c
  have hc : ofFields expressions = .ok c := by decide +kernel
  obtain ⟨hpadded, hline, hread⟩ := ofFields_layout expressions
  obtain ⟨hw, hwritten⟩ := hread c hc
  have hpads : List.Forall₂ Pads expressions (expressions.map fun e => ['\t', '\n'] ++ e ++ ['\u3000']) := by
    rw [List.forall₂_map_right_iff, List.forall₂_same]
    exact fun e _ => .intro (by decide) (by decide)
  let body := "*/5".toList ++ "\u3000 ".toList ++ ("9-17".toList ++ ['\n'] ++
    (['*'] ++ [' '] ++ (['*'] ++ [' '] ++ "mon-fri".toList)))
  have hj : Joins (expressions.map trim) body :=
    .cons (by decide) (by decide) (.cons (by decide) (by decide) (.cons (by decide) (by decide)
      (.cons (by decide) (by decide) (.single _))))
  have hp : Pads body (['\t'] ++ body ++ [' ']) := .intro (by decide) (by decide)
  exact ⟨hc, (hpadded _ hpads).trans hc, hw, (hline hw body _ hj hp).trans hc, hwritten⟩

end Schedule

end CronSchedule
