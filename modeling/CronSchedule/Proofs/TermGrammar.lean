import CronSchedule.Proofs.Outcome
import CronSchedule.Term.Grammar

/-!
# Readers and the grammar

A reader accepts the texts of its part of the grammar and no others, and it gives each the meaning that the
grammar gives it. The parts are tokens (`readValue_eq_ok_iff`), steps, ranges and whole terms
(`read_eq_ok_iff`). Letters and digits do not separate anything, so a term has only one way to be cut.
-/

namespace CronSchedule

/-! ## Letters and digits -/

theorem isUpper_iff {c : Char} : c.isUpper = true ↔ 'A'.toNat ≤ c.toNat ∧ c.toNat ≤ 'Z'.toNat :=
  decide_eq_true_iff

theorem isLower_iff {c : Char} : c.isLower = true ↔ 'a'.toNat ≤ c.toNat ∧ c.toNat ≤ 'z'.toNat := by
  show (decide ('a'.val ≤ c.val) && decide (c.val ≤ 'z'.val)) = true ↔ _
  rw [Bool.and_eq_true, decide_eq_true_eq, decide_eq_true_eq]
  exact Iff.rfl

theorem isAlphanum_iff {c : Char} :
    c.isAlphanum = true ↔ (c.isUpper = true ∨ c.isLower = true) ∨ c.isDigit = true := by
  rw [← Bool.or_eq_true, ← Bool.or_eq_true]
  exact Iff.rfl

theorem toLower_of_not_isUpper {c : Char} (h : ¬ c.isUpper = true) : c.toLower = c :=
  dif_neg (mt isUpper_iff.2 h)

theorem toLower_of_isDigit {c : Char} (h : c.isDigit = true) : c.toLower = c := by
  apply toLower_of_not_isUpper
  intro hu
  have hd := Char.isDigit_iff_toNat.1 h
  exact absurd (Nat.le_trans (isUpper_iff.1 hu).1 hd.2) (by decide)

theorem not_isLower_of_isDigit {c : Char} (h : c.isDigit = true) : ¬ c.isLower = true := by
  intro hl
  have hd := Char.isDigit_iff_toNat.1 h
  exact absurd (Nat.le_trans (isLower_iff.1 hl).1 hd.2) (by decide)

theorem isAlphanum_of_isLower_toLower {c : Char} (h : c.toLower.isLower = true) : c.isAlphanum = true := by
  by_cases hu : c.isUpper = true
  · exact isAlphanum_iff.2 (Or.inl (Or.inl hu))
  · rw [toLower_of_not_isUpper hu] at h
    exact isAlphanum_iff.2 (Or.inl (Or.inr h))

theorem isAlphanum_of_isDigit {c : Char} (h : c.isDigit = true) : c.isAlphanum = true :=
  isAlphanum_iff.2 (Or.inr h)

theorem isDigit_of_isNumeral {s : List Char} (h : isNumeral s = true) : s ≠ [] ∧ ∀ c ∈ s, c.isDigit = true := by
  unfold isNumeral at h
  simpa using h

section
variable {f : Field} {name : String}

theorem isLower_of_mem_valueNames (hn : name ∈ f.valueNames) : ∀ c ∈ name.toList, c.isLower = true := by
  have h : ∀ n ∈ f.valueNames, n.toList.all Char.isLower = true := by
    cases f <;> decide
  exact List.all_eq_true.1 (h name hn)

/-- The first three letters tell the names of a field apart. -/
theorem nodup_take_valueNames (f : Field) : (f.valueNames.map fun n => n.toList.take 3).Nodup := by
  cases f <;> decide

end

/-! ## Tokens -/

section
variable {f : Field} {e : Edge} {token : List Char} {v : Nat}

theorem index_unique {i j : Nat} {n m : String} (hi : f.valueNames[i]? = some n) (hj : f.valueNames[j]? = some m)
    (h : 3 ≤ token.length) (hn : token <+: n.toList) (hm : token <+: m.toList) : i = j := by
  have take_eq : ∀ {l : List Char}, token <+: l → l.take 3 = token.take 3 := by
    intro l hl
    obtain ⟨r, rfl⟩ := hl
    exact List.take_append_of_le_length h
  have hlt : i < (f.valueNames.map fun n => n.toList.take 3).length := by
    rw [List.length_map]
    exact (List.getElem?_eq_some_iff.1 hi).1
  refine (List.getElem?_inj hlt (nodup_take_valueNames f)).1 ?_
  rw [List.getElem?_map, List.getElem?_map, hi, hj, Option.map_some, Option.map_some, take_eq hn, take_eq hm]

theorem namedValue?_eq_some_iff :
    f.namedValue? e token = some v ↔ ∃ i name, f.valueNames[i]? = some name ∧ 3 ≤ token.length ∧
      token.map Char.toLower <+: name.toList ∧ f.nameValue e i = v := by
  unfold Field.namedValue?
  by_cases h : token.length < 3
  · rw [if_pos h]
    refine ⟨fun h' => ?_, fun h' => ?_⟩
    · cases h'
    · obtain ⟨_, _, _, h₃, _⟩ := h'; omega
  · rw [if_neg h]
    simp only [Option.map_eq_some_iff, List.findIdx?_eq_some_iff_getElem, List.isPrefixOf_iff_prefix]
    refine ⟨fun h' => ?_, fun h' => ?_⟩
    · obtain ⟨i, ⟨hi, hp, _⟩, hv⟩ := h'
      exact ⟨i, f.valueNames[i], List.getElem?_eq_getElem hi, Nat.le_of_not_lt h, hp, hv⟩
    · obtain ⟨i, name, hi, h₃, hp, hv⟩ := h'
      obtain ⟨hlt, hname⟩ := List.getElem?_eq_some_iff.1 hi
      refine ⟨i, ⟨hlt, hname ▸ hp, fun j hj hp' => ?_⟩, hv⟩
      -- an earlier name with the same first letters would be the same name
      have hl : 3 ≤ (token.map Char.toLower).length := by rw [List.length_map]; exact h₃
      have := index_unique (List.getElem?_eq_getElem (Nat.lt_trans hj hlt)) hi hl hp' hp
      omega

theorem not_isNumeral_of_prefix {name : String} (hn : name ∈ f.valueNames)
    (h : token.map Char.toLower <+: name.toList) : isNumeral token = false := by
  refine Bool.eq_false_iff.mpr fun hnum => ?_
  obtain ⟨hne, hd⟩ := isDigit_of_isNumeral hnum
  obtain ⟨c, rest, rfl⟩ := List.exists_cons_of_ne_nil hne
  have hc := hd c List.mem_cons_self
  have hl : c.toLower.isLower = true :=
    isLower_of_mem_valueNames hn _ (h.subset (List.mem_map_of_mem List.mem_cons_self))
  rw [toLower_of_isDigit hc] at hl
  exact not_isLower_of_isDigit hc hl

theorem readValue_eq_ok_iff : f.readValue e token = .ok v ↔ Denotes f e token v := by
  refine ⟨fun h => ?_, fun h => ?_⟩
  · unfold Field.readValue at h
    split at h
    · cases h
    split at h
    · rename_i hnum
      split at h
      · rename_i hv; cases h; exact .numeral hnum hv.1 hv.2
      · cases h
    · split at h
      · rename_i hv
        cases h
        obtain ⟨i, name, hi, h₃, hp, rfl⟩ := namedValue?_eq_some_iff.1 hv
        exact .name hi h₃ hp
      · cases h
  · cases h with
    | numeral hnum hmin hmax =>
      unfold Field.readValue
      rw [if_neg (isDigit_of_isNumeral hnum).1, if_pos hnum, if_pos ⟨hmin, hmax⟩]
    | @name i _ hi h₃ hp =>
      have hne : token ≠ [] := by
        intro h; subst h; cases h₃
      have hv : f.namedValue? e token = some (f.nameValue e i) := namedValue?_eq_some_iff.2 ⟨i, _, hi, h₃, hp, rfl⟩
      unfold Field.readValue
      rw [if_neg hne, not_isNumeral_of_prefix (List.mem_of_getElem? hi) hp, if_neg Bool.false_ne_true, hv]

theorem Denotes.mem_range (h : Denotes f e token v) : f.min ≤ v ∧ v ≤ f.max :=
  Field.readValue_mem_range (readValue_eq_ok_iff.2 h)

theorem Denotes.ne_nil (h : Denotes f e token v) : token ≠ [] := by
  cases h with
  | numeral hnum => exact (isDigit_of_isNumeral hnum).1
  | name _ h₃ _ => intro h; subst h; cases h₃

theorem Denotes.isAlphanum (h : Denotes f e token v) : ∀ c ∈ token, c.isAlphanum = true := by
  intro c hc
  cases h with
  | numeral hnum => exact isAlphanum_of_isDigit ((isDigit_of_isNumeral hnum).2 c hc)
  | name hi _ hp =>
    have hl := hp.subset (List.mem_map_of_mem hc)
    exact isAlphanum_of_isLower_toLower (isLower_of_mem_valueNames (List.mem_of_getElem? hi) _ hl)

theorem Denotes.not_mem (h : Denotes f e token v) {c : Char} (hc : c.isAlphanum = false) : c ∉ token := by
  intro hm
  rw [h.isAlphanum c hm] at hc
  cases hc

end

/-! ## Steps and ranges -/

section
variable {f : Field} {term : List Char}

theorem readStep_eq_ok_iff {n : List Char} {k : Nat} : Term.readStep f term n = .ok k ↔ IsStep n k := by
  refine ⟨fun h => ?_, fun h => ?_⟩
  · unfold Term.readStep at h
    split at h
    · rename_i hnum
      split at h
      · rename_i hv; cases h; exact .numeral hnum hv.1 hv.2
      · cases h
    · cases h
  · cases h with
    | numeral hnum hpos hlt =>
      unfold Term.readStep
      rw [if_pos hnum, if_pos ⟨hpos, hlt⟩]

theorem readRange_eq_ok_iff {r : List Char} {x y : Nat} :
    Term.readRange f term r = .ok (x, y) ↔
      ∃ a b, r = a ++ '-' :: b ∧ Denotes f .start a x ∧ Denotes f .stop b y ∧ x < y := by
  refine ⟨fun h => ?_, fun h => ?_⟩
  · unfold Term.readRange at h
    split at h
    · cases h
    rename_i a b hcut
    obtain ⟨x', hx, h⟩ := bind_eq_ok_iff.1 h
    obtain ⟨y', hy, h⟩ := bind_eq_ok_iff.1 h
    split at h
    · rename_i hlt
      cases h
      exact ⟨a, b, (cutAt?_eq_some_iff.1 hcut).1, readValue_eq_ok_iff.1 hx, readValue_eq_ok_iff.1 hy, hlt⟩
    · cases h
  · obtain ⟨a, b, rfl, hx, hy, hlt⟩ := h
    have hcut : cutAt? '-' (a ++ '-' :: b) = some (a, b) := cutAt?_eq_some_iff.2 ⟨rfl, hx.not_mem (by decide)⟩
    unfold Term.readRange
    rw [hcut]
    refine bind_eq_ok_iff.2 ⟨x, readValue_eq_ok_iff.2 hx, bind_eq_ok_iff.2 ⟨y, readValue_eq_ok_iff.2 hy, ?_⟩⟩
    rw [if_pos hlt]

/-! ## Terms -/

theorem spells_of_readPlain {t : Term} (h : Term.readPlain f term = .ok t) : Spells f term t := by
  unfold Term.readPlain at h
  split at h
  · rename_i r n hcut
    obtain ⟨⟨x, y⟩, hr, h⟩ := bind_eq_ok_iff.1 h
    obtain ⟨k, hk, h⟩ := bind_eq_ok_iff.1 h
    cases h
    obtain ⟨a, b, rfl, hx, hy, hlt⟩ := readRange_eq_ok_iff.1 hr
    rw [(cutAt?_eq_some_iff.1 hcut).1]
    exact .rangeStep hx hy hlt (readStep_eq_ok_iff.1 hk)
  split at h
  · obtain ⟨⟨x, y⟩, hr, h⟩ := bind_eq_ok_iff.1 h
    cases h
    obtain ⟨a, b, rfl, hx, hy, hlt⟩ := readRange_eq_ok_iff.1 hr
    exact .range hx hy hlt
  split at h
  · obtain ⟨x, hx, h⟩ := bind_eq_ok_iff.1 h
    cases h
    exact .value (readValue_eq_ok_iff.1 hx)
  · cases h

theorem spells_of_read {t : Term} (h : Term.read f term = .ok t) : Spells f term t := by
  unfold Term.read at h
  split at h
  · cases h
  · cases h
    exact .star
  · obtain ⟨k, hk, h⟩ := bind_eq_ok_iff.1 h
    cases h
    exact .starStep (readStep_eq_ok_iff.1 hk)
  · cases h
  · exact spells_of_readPlain h

theorem read_cons_of_ne {c : Char} (hc : c ≠ '*') (s : List Char) :
    Term.read f (c :: s) = Term.readPlain f (c :: s) := by
  unfold Term.read
  split
  · rename_i h; cases h
  · rename_i h; exact absurd (List.cons.inj h).1 hc
  · rename_i h; exact absurd (List.cons.inj h).1 hc
  · rename_i h; exact absurd (List.cons.inj h).1 hc
  · rfl

theorem read_star_cons {c : Char} (hc : c ≠ '/') (s : List Char) :
    Term.read f ('*' :: c :: s) = .error ⟨f, '*' :: c :: s, .unrecognizedTerm⟩ := by
  unfold Term.read
  split
  · rename_i h; cases h
  · rename_i h; cases h
  · rename_i h; cases h; exact absurd rfl hc
  · rfl
  · rename_i h; exact absurd rfl (h _)

theorem read_eq_readPlain {a : List Char} {e : Edge} {x : Nat} (ha : Denotes f e a x) (s : List Char) :
    Term.read f (a ++ s) = Term.readPlain f (a ++ s) := by
  obtain ⟨c, rest, rfl⟩ := List.exists_cons_of_ne_nil ha.ne_nil
  refine read_cons_of_ne ?_ (rest ++ s)
  intro h
  subst h
  exact ha.not_mem (by decide) List.mem_cons_self

theorem slash_not_mem_range {a b : List Char} {x y : Nat} (hx : Denotes f .start a x) (hy : Denotes f .stop b y) :
    '/' ∉ a ++ '-' :: b := by
  intro h
  rcases List.mem_append.1 h with h | h
  · exact hx.not_mem (by decide) h
  · rcases List.mem_cons.1 h with h | h
    · cases h
    · exact hy.not_mem (by decide) h

theorem read_of_spells {t : Term} (h : Spells f term t) : Term.read f term = .ok t := by
  cases h with
  | star => rfl
  | @starStep n k hk =>
    change Term.every <$> Term.readStep f ('*' :: '/' :: n) n = _
    rw [readStep_eq_ok_iff.2 hk]
    rfl
  | @range a b x y hx hy hlt =>
    have hcut : cutAt? '/' (a ++ '-' :: b) = none := cutAt?_eq_none_iff.2 (slash_not_mem_range hx hy)
    rw [read_eq_readPlain hx]
    unfold Term.readPlain
    rw [hcut]
    dsimp only
    rw [if_pos (by simp), readRange_eq_ok_iff.2 ⟨a, b, rfl, hx, hy, hlt⟩]
    rfl
  | @rangeStep a b n x y k hx hy hlt hk =>
    have hcut : cutAt? '/' (a ++ '-' :: b ++ '/' :: n) = some (a ++ '-' :: b, n) :=
      cutAt?_eq_some_iff.2 ⟨rfl, slash_not_mem_range hx hy⟩
    rw [List.append_assoc, read_eq_readPlain hx, ← List.append_assoc]
    unfold Term.readPlain
    rw [hcut]
    dsimp only
    rw [readRange_eq_ok_iff.2 ⟨a, b, rfl, hx, hy, hlt⟩]
    exact bind_eq_ok_iff.2 ⟨(x, y), rfl, bind_eq_ok_iff.2 ⟨k, readStep_eq_ok_iff.2 hk, rfl⟩⟩
  | @value _ x ha =>
    have hcut : cutAt? '/' term = none := cutAt?_eq_none_iff.2 (ha.not_mem (by decide))
    have hread := read_eq_readPlain ha []
    rw [List.append_nil] at hread
    rw [hread]
    unfold Term.readPlain
    rw [hcut]
    dsimp only
    rw [if_neg (ha.not_mem (by decide)), if_pos (List.all_eq_true.2 ha.isAlphanum), readValue_eq_ok_iff.2 ha]
    rfl

theorem read_eq_ok_iff {t : Term} : Term.read f term = .ok t ↔ Spells f term t :=
  ⟨spells_of_read, read_of_spells⟩

end

/-! ## Errors name the field -/

section
variable {f : Field} {term : List Char} {err : TermError}

theorem field_of_readValue {e : Edge} {token : List Char} (h : f.readValue e token = .error err) :
    err.field = f := by
  unfold Field.readValue at h
  split at h
  · cases h; rfl
  split at h
  · split at h <;> cases h
    rfl
  · split at h <;> cases h
    rfl

theorem field_of_readStep {n : List Char} (h : Term.readStep f term n = .error err) : err.field = f := by
  unfold Term.readStep at h
  split at h
  · split at h <;> cases h
    rfl
  · cases h; rfl

theorem field_of_readRange {r : List Char} (h : Term.readRange f term r = .error err) : err.field = f := by
  unfold Term.readRange at h
  split at h
  · cases h; rfl
  rcases bind_eq_error_iff.1 h with h | ⟨x, _, h⟩
  · exact field_of_readValue h
  rcases bind_eq_error_iff.1 h with h | ⟨y, _, h⟩
  · exact field_of_readValue h
  split at h <;> cases h
  rfl

theorem field_of_readPlain (h : Term.readPlain f term = .error err) : err.field = f := by
  unfold Term.readPlain at h
  split at h
  · rcases bind_eq_error_iff.1 h with h | ⟨⟨x, y⟩, _, h⟩
    · exact field_of_readRange h
    rcases bind_eq_error_iff.1 h with h | ⟨k, _, h⟩
    · exact field_of_readStep h
    · cases h
  split at h
  · rcases bind_eq_error_iff.1 h with h | ⟨⟨x, y⟩, _, h⟩
    · exact field_of_readRange h
    · cases h
  split at h
  · rcases bind_eq_error_iff.1 h with h | ⟨x, _, h⟩
    · exact field_of_readValue h
    · cases h
  · cases h; rfl

theorem field_of_read (h : Term.read f term = .error err) : err.field = f := by
  unfold Term.read at h
  split at h
  · cases h; rfl
  · cases h
  · rcases bind_eq_error_iff.1 h with h | ⟨k, _, h⟩
    · exact field_of_readStep h
    · cases h
  · cases h; rfl
  · exact field_of_readPlain h

end

end CronSchedule
