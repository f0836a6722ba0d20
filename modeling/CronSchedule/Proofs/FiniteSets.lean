import Mathlib.Data.Finset.Sort
import CronSchedule.Proofs.Relisting
import CronSchedule.ValueSet.Construction

/-!
# Words of bits as finite sets

A set of values is the finite set of the numbers whose bits are set (`toFinset`), and its list, its size and its listing
are those of that finite set (`toList_eq_sort`, `size_eq_card`, `words_listing`). Putting in a value that has no bit
changes nothing, so what is built is always what was put in below 64 (`build_isFiniteSet`).
-/

namespace CronSchedule

namespace ValueSet

/-! ## Counting bits -/

theorem cpopNatRec_eq_countP {w : Nat} (x : BitVec w) (n : Nat) :
    x.cpopNatRec n 0 = (List.range n).countP fun i => x.getLsbD i := by
  induction n with
  | zero => rfl
  | succ n ih =>
    rw [BitVec.cpopNatRec_succ, BitVec.cpopNatRec_add, ih, List.range_succ, List.countP_append, List.countP_singleton]
    cases x.getLsbD n <;> simp

theorem size_eq_length (s : ValueSet) : s.size = s.toList.length := by
  unfold size toList
  rw [BitVec.toNat_cpop, cpopNatRec_eq_countP, List.countP_eq_length_filter]
  congr 2
  funext v
  exact Bool.decide_eq_true.symm

/-! ## The finite set of a word -/

def toFinset (s : ValueSet) : Finset Nat :=
  {v ∈ Finset.range 64 | v ∈ s}

section
variable {s t : ValueSet} {v : Nat}

@[simp] theorem mem_toFinset : v ∈ s.toFinset ↔ v ∈ s := by
  unfold toFinset
  rw [Finset.mem_filter, Finset.mem_range]
  exact and_iff_right_of_imp lt_of_mem

theorem toFinset_inj : s.toFinset = t.toFinset ↔ s = t := by
  refine ⟨fun h => ext fun v => ?_, fun h => congrArg toFinset h⟩
  rw [← mem_toFinset, h, mem_toFinset]

theorem toFinset_toList (s : ValueSet) : s.toList.toFinset = s.toFinset := by
  ext v
  rw [List.mem_toFinset, mem_toList, mem_toFinset]

theorem nodup_toList (s : ValueSet) : s.toList.Nodup :=
  s.pairwise_toList.imp Nat.ne_of_lt

theorem toList_eq_sort (s : ValueSet) : s.toList = s.toFinset.sort := by
  rw [← toFinset_toList]
  exact ((List.toFinset_sort _ s.nodup_toList).2 (s.pairwise_toList.imp Nat.le_of_lt)).symm

theorem size_eq_card (s : ValueSet) : s.size = s.toFinset.card := by
  rw [size_eq_length, toList_eq_sort, Finset.length_sort]

theorem isEmpty_iff : s.isEmpty = true ↔ s.toFinset = ∅ := by
  have hempty : (∅ : ValueSet).toFinset = ∅ := by
    ext v
    simp
  rw [← hempty, toFinset_inj]
  unfold isEmpty
  rw [beq_iff_eq]
  exact ⟨fun h => congrArg mk h, fun h => congrArg bits h⟩

theorem ofList_toList (s : ValueSet) : ofList s.toList = s := by
  refine ValueSet.ext fun v => ?_
  rw [mem_ofList, mem_toList]
  exact and_iff_left_of_imp lt_of_mem

/-! ## Listings -/

theorem words_listing (s : ValueSet) : words s.listing = s.toList.map numeral :=
  words_of_joins (joins_intercalate _) (List.forall_mem_map.2 fun v _ => isWord_numeral v)

/-- The words of a listing are read back as the values. -/
theorem ofList_words_listing (s : ValueSet) : ofList ((words s.listing).map numeralValue) = s := by
  have hid : numeralValue ∘ numeral = id := funext numeralValue_numeral
  rw [words_listing, List.map_map, hid, List.map_id, ofList_toList]

theorem listing_inj : s.listing = t.listing ↔ s = t := by
  refine ⟨fun h => ?_, fun h => congrArg listing h⟩
  rw [← ofList_words_listing s, h, ofList_words_listing]

end

/-! ## Constructions -/

namespace Construction

variable {v : Nat}

theorem mem_values {e : Construction} : v ∈ e.values ↔ v ∈ e.given ∧ v < 64 :=
  Finset.mem_filter

theorem mem_build (e : Construction) : v ∈ e.build ↔ v ∈ e.given ∧ v < 64 := by
  induction e with
  | empty => simp [build, given]
  | full f =>
    simp only [build, given, mem_full, Finset.mem_Icc]
    exact (and_iff_left_of_imp fun h => Nat.lt_of_le_of_lt h.2 f.max_lt).symm
  | ofList vs => simp only [build, given, mem_ofList, List.mem_toFinset]
  | insert e w ih =>
    simp only [build, given, mem_insert, ih, Finset.mem_union, Finset.mem_singleton]
    constructor
    · rintro (⟨h, h64⟩ | ⟨rfl, h64⟩)
      · exact ⟨Or.inr h, h64⟩
      · exact ⟨Or.inl rfl, h64⟩
    · rintro ⟨rfl | h, h64⟩
      · exact Or.inr ⟨rfl, h64⟩
      · exact Or.inl ⟨h, h64⟩
  | union e e' ih ih' =>
    simp only [build, given, mem_union, ih, ih', Finset.mem_union]
    exact or_and_right.symm

theorem toFinset_build (e : Construction) : e.build.toFinset = e.values := by
  ext v
  rw [mem_toFinset, mem_build, mem_values]

end Construction

/-- **Sets of values.** However a set is put together, it is the finite set of the values below 64 that were put in: its
members, its list in ascending order, its size and its listing are those of the finite set, and equal sets or listings
mean equal finite sets. -/
theorem build_isFiniteSet (e : Construction) :
    (∀ v, v ∈ e.build ↔ v ∈ e.values) ∧ e.values ⊆ Finset.range 64 ∧
      e.build.toList = e.values.sort ∧ e.build.toList.Pairwise (· < ·) ∧ ofList e.build.toList = e.build ∧
      e.build.size = e.values.card ∧ (e.build.isEmpty = true ↔ e.values = ∅) ∧
      e.build.listing = [' '].intercalate (e.values.sort.map numeral) ∧
      ∀ e' : Construction,
        (e.build = e'.build ↔ e.values = e'.values) ∧ (e.build.listing = e'.build.listing ↔ e.values = e'.values) := by
  rw [← e.toFinset_build]
  refine ⟨fun v => mem_toFinset.symm, Finset.filter_subset _ _, toList_eq_sort _, pairwise_toList _, ofList_toList _,
    size_eq_card _, isEmpty_iff, ?_, fun e' => ?_⟩
  · rw [← toList_eq_sort]
    rfl
  · rw [← e'.toFinset_build, toFinset_inj]
    exact ⟨Iff.rfl, listing_inj⟩

-- A value put in twice is listed once, and 64 has no bit.
example : (((Construction.ofList [45, 0, 30]).insert 30).insert 64).build.listing = "0 30 45".toList := by
  decide

end ValueSet

end CronSchedule
