/-!
# Cutting a text in two

`cutAt? sep s` cuts at the first `sep`: what stands before it holds no `sep`, and nothing but that one
character is lost.
-/

namespace CronSchedule

def cutAt? (sep : Char) : List Char → Option (List Char × List Char)
  | [] => none
  | c :: s => if c = sep then some ([], s) else (cutAt? sep s).map fun p => (c :: p.1, p.2)

theorem cutAt?_eq_some_iff {sep : Char} {s a b : List Char} :
    cutAt? sep s = some (a, b) ↔ s = a ++ sep :: b ∧ sep ∉ a := by
  induction s generalizing a with
  | nil => simp [cutAt?]
  | cons c s ih =>
    simp only [cutAt?]
    split
    · next h => subst h; cases a <;> simp +contextual [eq_comm]
    · next h =>
      simp only [Option.map_eq_some_iff, Prod.exists, Prod.mk.injEq]
      constructor
      · rintro ⟨x, y, hxy, rfl, rfl⟩
        obtain ⟨rfl, hx⟩ := ih.1 hxy
        simp [hx, Ne.symm h]
      · cases a with
        | nil => simp [h]
        | cons x a =>
          simp only [List.cons_append, List.cons.injEq, List.mem_cons, not_or, and_imp]
          rintro rfl rfl _ ha
          exact ⟨a, b, ih.2 ⟨rfl, ha⟩, ⟨rfl, rfl⟩, rfl⟩

theorem cutAt?_eq_none_iff {sep : Char} {s : List Char} : cutAt? sep s = none ↔ sep ∉ s := by
  induction s with
  | nil => simp [cutAt?]
  | cons c s ih =>
    simp only [cutAt?]
    split
    · next h => simp [h]
    · next h => simp [ih, Ne.symm h]

end CronSchedule
