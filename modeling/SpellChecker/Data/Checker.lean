import Mathlib.Data.Finset.Sort
import Mathlib.Tactic.Cases
import SpellChecker.Data.Comparator

namespace checker

variable {α : Type*} [LinearOrder α] (near : α → α → Prop) [DecidableRel near]

/-- The known elements near to `w`, in increasing order. -/
def neighbours (known : Finset α) (w : α) : List α := (known.filter (near w)).sort

/-- What a checker is for: every element that is not known, in the order of the
    input, with the known elements near to it. -/
def check (known : Finset α) (words : List α) : List (α × List α) :=
  (words.filter (· ∉ known)).map fun w => (w, neighbours near known w)

variable {near} {known : Finset α}

theorem neighbours_strict (w : α) : (neighbours near known w).Pairwise (· < ·) :=
  (Finset.sortedLT_sort _).pairwise

@[simp] theorem mem_neighbours {w u : α} : u ∈ neighbours near known w ↔ u ∈ known ∧ near w u := by
  simp [neighbours]

/-- The neighbours are the only strictly increasing list of the right elements. -/
theorem eq_neighbours {w : α} {l : List α} (hstrict : l.Pairwise (· < ·))
    (hmem : ∀ u, u ∈ l ↔ u ∈ known ∧ near w u) : l = neighbours near known w := by
  apply comparator.eq_of_strict_of_mem_iff hstrict (neighbours_strict w)
  intro u
  rw [hmem, mem_neighbours]

/-- The checker answers word by word. -/
theorem check_eq_filterMap (words : List α) :
    check near known words =
      words.filterMap fun w => if w ∈ known then none else some (w, neighbours near known w) := by
  unfold check
  induction words with
  | nil => rfl
  | cons w words ih =>
    rw [List.filter_cons, List.filterMap_cons]
    by_cases hmem : w ∈ known
    · simpa [hmem] using ih
    · simpa [hmem] using ih

end checker
