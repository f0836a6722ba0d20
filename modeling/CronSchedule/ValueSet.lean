import CronSchedule.Field
import CronSchedule.Text.Decimal

/-!
# Sets of field values

The values of every field lie below 64, so a set of them is a word of 64 bits: bit `v` says whether `v` is in
the set. Larger values cannot be stored, and inserting one changes nothing. Everything else about a set is
read off its bits: `mem_insert`, `mem_union`, `mem_ofList` and `mem_toList` say what the operations do.
-/

namespace CronSchedule

structure ValueSet where
  bits : BitVec 64
  deriving DecidableEq

namespace ValueSet

instance : Membership Nat ValueSet where
  mem s v := s.bits.getLsbD v = true

instance (v : Nat) (s : ValueSet) : Decidable (v ∈ s) :=
  inferInstanceAs (Decidable (s.bits.getLsbD v = true))

instance : EmptyCollection ValueSet where
  emptyCollection := ⟨0#64⟩

instance : Union ValueSet where
  union s t := ⟨s.bits ||| t.bits⟩

/-- Adds a value below 64; a larger one is not stored. -/
def insert (s : ValueSet) (v : Nat) : ValueSet :=
  if v < 64 then ⟨s.bits ||| BitVec.twoPow 64 v⟩ else s

def insertAll (s : ValueSet) (vs : List Nat) : ValueSet :=
  vs.foldl insert s

def ofList (vs : List Nat) : ValueSet :=
  insertAll ∅ vs

/-- Adds `first`, `first + step`, and so on up to `last`. -/
def insertStepped (s : ValueSet) (first last step : Nat) : ValueSet :=
  if first ≤ last then s.insertAll (List.range' first ((last - first) / step + 1) step) else s

def stepped (first last step : Nat) : ValueSet :=
  insertStepped ∅ first last step

def full (f : Field) : ValueSet :=
  stepped f.min f.max 1

def isEmpty (s : ValueSet) : Bool :=
  s.bits == 0#64

def size (s : ValueSet) : Nat :=
  s.bits.cpop.toNat

def toList (s : ValueSet) : List Nat :=
  (List.range 64).filter (· ∈ s)

/-- The values in ascending order, with a space between two of them. -/
def listing (s : ValueSet) : List Char :=
  [' '].intercalate (s.toList.map numeral)

/-! ## What the operations do -/

theorem mem_def {v : Nat} {s : ValueSet} : v ∈ s ↔ s.bits.getLsbD v = true :=
  Iff.rfl

theorem lt_of_mem {v : Nat} {s : ValueSet} (h : v ∈ s) : v < 64 :=
  BitVec.lt_of_getLsbD h

theorem ext {s t : ValueSet} (h : ∀ v, v ∈ s ↔ v ∈ t) : s = t := by
  cases s with
  | mk b =>
    cases t with
    | mk c =>
      congr 1
      exact BitVec.eq_of_getLsbD_eq fun v _ => Bool.eq_iff_iff.mpr (h v)

@[simp] theorem not_mem_empty (v : Nat) : ¬ v ∈ (∅ : ValueSet) := by
  change ¬ (0#64).getLsbD v = true
  simp

@[simp] theorem mem_union {v : Nat} {s t : ValueSet} : v ∈ s ∪ t ↔ v ∈ s ∨ v ∈ t := by
  change (s.bits ||| t.bits).getLsbD v = true ↔ _
  simp [mem_def]

@[simp] theorem mem_insert {v w : Nat} {s : ValueSet} : v ∈ s.insert w ↔ v ∈ s ∨ (v = w ∧ w < 64) := by
  simp only [insert]
  split
  · next h =>
    change (s.bits ||| BitVec.twoPow 64 w).getLsbD v = true ↔ s.bits.getLsbD v = true ∨ _
    simp only [BitVec.getLsbD_or, BitVec.getLsbD_twoPow, h, decide_true, Bool.true_and, Bool.or_eq_true,
      decide_eq_true_eq, and_true, @eq_comm Nat w v]
  · next h => simp [h]

@[simp] theorem mem_insertAll {v : Nat} {s : ValueSet} {vs : List Nat} :
    v ∈ s.insertAll vs ↔ v ∈ s ∨ (v ∈ vs ∧ v < 64) := by
  induction vs generalizing s with
  | nil => simp [insertAll]
  | cons w vs ih =>
    have h : s.insertAll (w :: vs) = (s.insert w).insertAll vs := rfl
    rw [h, ih, mem_insert, List.mem_cons]
    constructor
    · rintro ((h | ⟨rfl, h⟩) | ⟨h, h'⟩)
      · exact .inl h
      · exact .inr ⟨.inl rfl, h⟩
      · exact .inr ⟨.inr h, h'⟩
    · rintro (h | ⟨rfl | h, h'⟩)
      · exact .inl (.inl h)
      · exact .inl (.inr ⟨rfl, h'⟩)
      · exact .inr ⟨h, h'⟩

@[simp] theorem mem_ofList {v : Nat} {vs : List Nat} : v ∈ ofList vs ↔ v ∈ vs ∧ v < 64 := by
  simp [ofList]

@[simp] theorem mem_toList {v : Nat} {s : ValueSet} : v ∈ s.toList ↔ v ∈ s := by
  simp only [toList, List.mem_filter, List.mem_range, decide_eq_true_eq, and_iff_right_iff_imp]
  exact lt_of_mem

theorem pairwise_toList (s : ValueSet) : s.toList.Pairwise (· < ·) :=
  List.Pairwise.filter _ List.pairwise_lt_range

/-- A text lists a set if it writes the values in ascending order, with a space between two of them. -/
def Lists (s : ValueSet) (text : List Char) : Prop :=
  ∃ vs : List Nat, vs.Pairwise (· < ·) ∧ (∀ v, v ∈ vs ↔ v ∈ s) ∧ text = [' '].intercalate (vs.map numeral)

theorem lists_listing (s : ValueSet) : s.Lists s.listing :=
  ⟨s.toList, s.pairwise_toList, fun _ => mem_toList, rfl⟩

end ValueSet

end CronSchedule
