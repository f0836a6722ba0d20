import Mathlib.Data.List.Basic
import CronSchedule.Proofs.TermGrammar
import CronSchedule.Term.Blame

/-!
# Values of a token

A token has at most one value at each edge, and `readValue_meaning` says which. Three letters are enough to tell the
names of a field apart, so it makes no difference in which order the names are looked up (`namedValueIn?_of_perm`), nor
whether the length of a token is counted in letters or in bytes (`abbreviates_iff_bytes`). A token without a value is
blamed as it stands (`readValue_eq_error_iff`).
-/

namespace CronSchedule

namespace Field

/-- The token has three letters at least, and the name with the number `i` begins with them. -/
def Abbreviates (f : Field) (token : List Char) (i : Nat) : Prop :=
  3 ≤ token.length ∧ ∃ name, f.valueNames[i]? = some name ∧ token.map Char.toLower <+: name.toList

/-- The value of a name when the names are looked up in a table that has their numbers. -/
def namedValueIn? (f : Field) (table : List (String × Nat)) (e : Edge) (token : List Char) : Option Nat :=
  if token.length < 3 then none
  else
    let found := table.find? fun entry => (token.map Char.toLower).isPrefixOf entry.1.toList
    found.map fun entry => f.nameValue e entry.2

end Field

open CronSchedule.Field

section
variable {f : Field} {e : Edge} {token : List Char} {v i j : Nat}

/-! ## Names -/

theorem Field.Abbreviates.unique (hi : f.Abbreviates token i) (hj : f.Abbreviates token j) : i = j := by
  obtain ⟨hl, n, hn, hp⟩ := hi
  obtain ⟨-, m, hm, hq⟩ := hj
  refine index_unique hn hm ?_ hp hq
  rw [List.length_map]
  exact hl

theorem Field.Abbreviates.month_or_dayOfWeek (h : f.Abbreviates token i) : f = .month ∨ f = .dayOfWeek := by
  obtain ⟨-, name, hn, -⟩ := h
  cases f <;> simp [valueNames] at hn ⊢

theorem namedValue?_eq_some_iff_abbreviates :
    f.namedValue? e token = some v ↔ ∃ i, f.Abbreviates token i ∧ f.nameValue e i = v := by
  rw [namedValue?_eq_some_iff]
  apply exists_congr
  intro i
  unfold Abbreviates
  constructor
  · intro h
    obtain ⟨name, hn, hl, hp, hv⟩ := h
    exact ⟨⟨hl, name, hn, hp⟩, hv⟩
  · intro h
    obtain ⟨⟨hl, name, hn, hp⟩, hv⟩ := h
    exact ⟨name, hn, hl, hp, hv⟩

section
variable {table : List (String × Nat)} (h : table.Perm f.valueNames.zipIdx)
include h

theorem mem_of_perm_names {name : String} : (name, i) ∈ table ↔ f.valueNames[i]? = some name := by
  rw [h.mem_iff, List.mk_mem_zipIdx_iff_getElem?]

theorem abbreviates_of_find? (hl : 3 ≤ token.length) {entry : String × Nat}
    (hfound : (table.find? fun entry => (token.map Char.toLower).isPrefixOf entry.1.toList) = some entry) :
    f.Abbreviates token entry.2 := by
  have hn := (mem_of_perm_names h).1 (List.mem_of_find?_eq_some hfound)
  have hp := List.find?_some hfound
  exact ⟨hl, entry.1, hn, List.isPrefixOf_iff_prefix.1 hp⟩

theorem namedValueIn?_eq_some_iff :
    f.namedValueIn? table e token = some v ↔ ∃ i, f.Abbreviates token i ∧ f.nameValue e i = v := by
  unfold namedValueIn?
  by_cases hl : token.length < 3
  · simp only [if_pos hl, reduceCtorEq, false_iff, not_exists, not_and]
    intro i hi
    exact absurd hi.1 (Nat.not_le_of_lt hl)
  · simp only [if_neg hl, Option.map_eq_some_iff]
    have hl := Nat.le_of_not_lt hl
    constructor
    · intro h'
      obtain ⟨entry, hfound, hv⟩ := h'
      exact ⟨entry.2, abbreviates_of_find? h hl hfound, hv⟩
    · intro h'
      obtain ⟨i, hi, hv⟩ := h'
      have ⟨_, name, hn, hp⟩ := hi
      cases hfound : table.find? fun entry => (token.map Char.toLower).isPrefixOf entry.1.toList with
      | none =>
        have hnot := List.find?_eq_none.1 hfound _ ((mem_of_perm_names h).2 hn)
        exact absurd (List.isPrefixOf_iff_prefix.2 hp) hnot
      | some entry =>
        -- any entry that is found has the number of the name, since no two names begin alike
        have hj := (abbreviates_of_find? h hl hfound).unique hi
        exact ⟨entry, rfl, by rw [hj, hv]⟩

theorem namedValueIn?_of_perm : f.namedValueIn? table e token = f.namedValue? e token := by
  apply Option.ext
  intro v
  rw [namedValueIn?_eq_some_iff h, namedValue?_eq_some_iff_abbreviates]

end

/-! ## Letters and bytes -/

theorem utf8Size_of_isAlphanum {c : Char} (h : c.isAlphanum = true) : c.utf8Size = 1 := by
  have hlt : c.toNat ≤ 127 := by
    rcases isAlphanum_iff.1 h with (h | h) | h
    · exact Nat.le_trans (isUpper_iff.1 h).2 (by decide)
    · exact Nat.le_trans (isLower_iff.1 h).2 (by decide)
    · exact Nat.le_trans (Char.isDigit_iff_toNat.1 h).2 (by decide)
  exact Char.utf8Size_eq_one_iff.2 hlt

theorem utf8ByteSize_of_isAlphanum {s : List Char} (h : ∀ c ∈ s, c.isAlphanum = true) :
    (String.ofList s).utf8ByteSize = s.length := by
  induction s with
  | nil => rfl
  | cons c s ih =>
    rw [String.ofList_cons, String.utf8ByteSize_append, String.utf8ByteSize_singleton,
      utf8Size_of_isAlphanum (h c List.mem_cons_self), ih fun d hd => h d (List.mem_cons_of_mem c hd),
      List.length_cons, Nat.add_comm]

theorem isAlphanum_of_abbreviated {name : String} (hn : name ∈ f.valueNames)
    (hp : token.map Char.toLower <+: name.toList) : ∀ c ∈ token, c.isAlphanum = true := by
  intro c hc
  apply isAlphanum_of_isLower_toLower
  exact isLower_of_mem_valueNames hn _ (hp.subset (List.mem_map_of_mem hc))

theorem abbreviates_iff_bytes : f.Abbreviates token i ↔ 3 ≤ (String.ofList token).utf8ByteSize ∧
    ∃ name, f.valueNames[i]? = some name ∧ token.map Char.toLower <+: name.toList := by
  unfold Abbreviates
  apply and_congr_left
  intro h
  obtain ⟨name, hn, hp⟩ := h
  rw [utf8ByteSize_of_isAlphanum (isAlphanum_of_abbreviated (List.mem_of_getElem? hn) hp)]

/-! ## Tokens -/

theorem denotes_iff : Denotes f e token v ↔
    isNumeral token = true ∧ numeralValue token = v ∧ f.min ≤ v ∧ v ≤ f.max ∨
      ∃ i, f.Abbreviates token i ∧ f.nameValue e i = v := by
  constructor
  · intro h
    cases h with
    | numeral hnum hmin hmax => exact Or.inl ⟨hnum, rfl, hmin, hmax⟩
    | name hn hl hp => exact Or.inr ⟨_, ⟨hl, _, hn, hp⟩, rfl⟩
  · intro h
    rcases h with h | h
    · obtain ⟨hnum, rfl, hmin, hmax⟩ := h
      exact .numeral hnum hmin hmax
    · obtain ⟨i, ⟨hl, name, hn, hp⟩, rfl⟩ := h
      exact .name hn hl hp

theorem eq_of_readValue_eq_error {err : TermError} (h : f.readValue e token = .error err) :
    err = ⟨f, token, .ofToken token⟩ := by
  unfold readValue at h
  unfold Fault.ofToken
  by_cases hnil : token = []
  · rw [if_pos hnil] at h ⊢
    cases h
    rfl
  rw [if_neg hnil] at h ⊢
  by_cases hnum : isNumeral token = true
  · rw [if_pos hnum] at h ⊢
    split at h <;> cases h
    rfl
  · rw [if_neg hnum] at h ⊢
    split at h <;> cases h
    rfl

theorem readValue_eq_error_iff {err : TermError} :
    f.readValue e token = .error err ↔ (∀ v, ¬ Denotes f e token v) ∧ err = ⟨f, token, .ofToken token⟩ := by
  cases h : f.readValue e token with
  | ok v =>
    simp only [reduceCtorEq, false_iff, not_and]
    intro hnone
    exact absurd (readValue_eq_ok_iff.1 h) (hnone v)
  | error err' =>
    have hnone : ∀ v, ¬ Denotes f e token v := by
      intro v hv
      rw [readValue_eq_ok_iff.2 hv] at h
      cases h
    rw [eq_of_readValue_eq_error h, Except.error.injEq, eq_comm]
    exact (and_iff_right hnone).symm

/-! ## Edges -/

theorem nameValue_eq : f.nameValue e i = if f = .dayOfWeek ∧ e = .stop ∧ i = 0 then 7 else f.min + i := by
  unfold nameValue
  by_cases h : f = .dayOfWeek ∧ e = .stop ∧ i = 0
  · rw [if_pos h, if_pos h, h.1]
    rfl
  · rw [if_neg h, if_neg h]

/-- Only a name of Sunday tells the edges apart. -/
theorem denotes_iff_of_not_sunday (h : ¬ (f = .dayOfWeek ∧ f.Abbreviates token 0)) (d : Edge) :
    Denotes f e token v ↔ Denotes f d token v := by
  rw [denotes_iff, denotes_iff]
  apply or_congr_right
  apply exists_congr
  intro i
  apply and_congr_right
  intro hi
  have hsunday : ¬ (f = .dayOfWeek ∧ i = 0) := by
    intro hf
    rw [hf.2] at hi
    exact h ⟨hf.1, hi⟩
  rw [nameValue_eq, nameValue_eq, if_neg fun hf => hsunday ⟨hf.1, hf.2.2⟩, if_neg fun hf => hsunday ⟨hf.1, hf.2.2⟩]

theorem readValue_eq_of_not_sunday (h : ¬ (f = .dayOfWeek ∧ f.Abbreviates token 0)) (d : Edge) :
    f.readValue e token = f.readValue d token := by
  cases he : f.readValue e token with
  | ok v => exact (readValue_eq_ok_iff.2 ((denotes_iff_of_not_sunday h d).1 (readValue_eq_ok_iff.1 he))).symm
  | error err =>
    obtain ⟨hnone, herr⟩ := readValue_eq_error_iff.1 he
    refine (readValue_eq_error_iff.2 ⟨fun v hv => hnone v ?_, herr⟩).symm
    exact (denotes_iff_of_not_sunday h d).2 hv

theorem readValue_sunday (h : Abbreviates .dayOfWeek token 0) :
    readValue .dayOfWeek e token = .ok (if e = .stop then 7 else 0) := by
  rw [readValue_eq_ok_iff, denotes_iff]
  refine Or.inr ⟨0, h, ?_⟩
  cases e <;> rfl

end

/-- **Meaning of a token.** Its value is that of a numeral in range, or of the one name that it abbreviates; of the names
only Sunday depends on the edge, and none on the order of the names. Any other token is blamed as it stands. -/
theorem readValue_meaning (f : Field) (token : List Char) :
    (∀ e v, f.readValue e token = .ok v ↔
      isNumeral token = true ∧ numeralValue token = v ∧ f.min ≤ v ∧ v ≤ f.max ∨
      (f = .month ∨ f = .dayOfWeek) ∧ ∃ i, f.Abbreviates token i ∧
        v = if f = .dayOfWeek ∧ e = .stop ∧ i = 0 then 7 else f.min + i) ∧
    (∀ i j, f.Abbreviates token i → f.Abbreviates token j → i = j) ∧
    (∀ e (table : List (String × Nat)), table.Perm f.valueNames.zipIdx →
      f.namedValueIn? table e token = f.namedValue? e token) ∧
    (f.readValue .start token = f.readValue .stop token ↔ ¬ (f = .dayOfWeek ∧ f.Abbreviates token 0)) ∧
    ∀ e, (∀ v, f.readValue e token ≠ .ok v) → f.readValue e token = .error ⟨f, token, .ofToken token⟩ := by
  refine ⟨fun e v => ?_, fun i j hi hj => hi.unique hj, fun e table h => namedValueIn?_of_perm h, ?_, fun e h => ?_⟩
  · rw [readValue_eq_ok_iff, denotes_iff]
    apply or_congr_right
    constructor
    · intro h
      obtain ⟨i, hi, rfl⟩ := h
      exact ⟨hi.month_or_dayOfWeek, i, hi, nameValue_eq⟩
    · intro h
      obtain ⟨-, i, hi, rfl⟩ := h
      exact ⟨i, hi, nameValue_eq⟩
  · constructor
    · intro h hsunday
      obtain ⟨rfl, hsunday⟩ := hsunday
      rw [readValue_sunday hsunday, readValue_sunday hsunday] at h
      cases h
    · intro h
      exact readValue_eq_of_not_sunday h .stop
  · cases he : f.readValue e token with
    | ok v => exact absurd he (h v)
    | error err => rw [eq_of_readValue_eq_error he]

-- Sunday in capitals, found from the end of the names; and a token that is too short for any name.
theorem readValue_meaning_sunday :
    readValue .dayOfWeek .start "SUN".toList = .ok 0 ∧ readValue .dayOfWeek .stop "SUN".toList = .ok 7 ∧
      (∀ i, Abbreviates .dayOfWeek "SUN".toList i → i = 0) ∧
      namedValueIn? .dayOfWeek (valueNames .dayOfWeek).zipIdx.reverse .stop "SUN".toList = some 7 ∧
      readValue .dayOfWeek .start "su".toList = .error ⟨.dayOfWeek, "su".toList, .unknownValue⟩ := by
  have hsunday : Abbreviates .dayOfWeek "SUN".toList 0 := ⟨by decide, "sunday", rfl, by decide⟩
  obtain ⟨hvalue, hunique, htable, -, -⟩ := readValue_meaning .dayOfWeek "SUN".toList
  obtain ⟨-, -, -, -, hblame⟩ := readValue_meaning .dayOfWeek "su".toList
  refine ⟨?_, ?_, fun i hi => hunique i 0 hi hsunday, ?_, ?_⟩
  · exact (hvalue .start 0).2 (Or.inr ⟨Or.inr rfl, 0, hsunday, rfl⟩)
  · exact (hvalue .stop 7).2 (Or.inr ⟨Or.inr rfl, 0, hsunday, rfl⟩)
  · rw [htable .stop _ (List.reverse_perm _)]
    decide
  · exact hblame .start (by intro v h; cases h)

end CronSchedule
