/-!
# Texts in small letters

Unicode lays down what a character becomes in small letters: an ASCII character another one, any other character a text
that may be longer and depend on what stands around it. Only two of those texts have an ASCII character in them: the
Kelvin sign becomes `k`, and the capital I with a dot above becomes `i` and a combining dot. `Lowercases` keeps this much
of it, which is enough to recognise a word without these two letters (`Lowercases.eq_iff`).
-/

namespace CronSchedule

/-- The second text can be the first one in small letters. -/
inductive Lowercases : List Char → List Char → Prop
  | nil : Lowercases [] []
  | ascii {c : Char} {s r : List Char} : c.toNat < 128 → Lowercases s r → Lowercases (c :: s) (c.toLower :: r)
  | beyond {c d : Char} {rest s r : List Char} : 128 ≤ c.toNat → d = 'i' ∨ d = 'k' ∨ 128 ≤ d.toNat →
      Lowercases s r → Lowercases (c :: s) (d :: (rest ++ r))

theorem toLower_of_not_ascii {c : Char} (h : 128 ≤ c.toNat) : c.toLower = c := by
  unfold Char.toLower
  rw [dif_neg]
  intro hc
  have hle : c.toNat ≤ 'Z'.toNat := hc.2
  exact absurd (Nat.le_trans h hle) (by decide)

theorem Lowercases.eq_iff {s r word : List Char} (h : Lowercases s r)
    (hword : ∀ c ∈ word, c.toNat < 128 ∧ c ≠ 'i' ∧ c ≠ 'k') : r = word ↔ s.map Char.toLower = word := by
  induction h generalizing word with
  | nil => rfl
  | @ascii c s r _ _ ih =>
    cases word with
    | nil => simp
    | cons w word =>
      rw [List.forall_mem_cons] at hword
      rw [List.map_cons, List.cons.injEq, List.cons.injEq, ih hword.2]
  | @beyond c d rest s r hc hd _ _ =>
    cases word with
    | nil => simp
    | cons w word =>
      obtain ⟨⟨hw, hi, hk⟩, -⟩ := List.forall_mem_cons.1 hword
      rw [List.map_cons, List.cons.injEq, List.cons.injEq, toLower_of_not_ascii hc]
      constructor
      · intro h
        rw [← h.1] at hw hi hk
        rcases hd with hd | hd | hd
        · exact absurd hd hi
        · exact absurd hd hk
        · exact absurd hw (Nat.not_lt_of_le hd)
      · intro h
        rw [← h.1] at hw
        exact absurd hw (Nat.not_lt_of_le hc)

end CronSchedule
