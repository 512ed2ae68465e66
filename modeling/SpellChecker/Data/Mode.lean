import Mathlib.Data.List.Basic
import Mathlib.Data.List.Count
import Mathlib.Tactic.Cases

namespace mode

variable {α : Type*} [DecidableEq α]

/-- The `k`-th occurrence of `x` in the list is the one at index `i`. -/
def Occurrence (xs : List α) (k : ℕ) (x : α) (i : ℕ) : Prop := xs[i]? = some x ∧ (xs.take (i + 1)).count x = k

/-- No element occurs more than `k` times, and `leader` is the first to have
    its `k`-th occurrence, at index `i`. -/
structure Leads (xs : List α) (k : ℕ) (leader : α) (i : ℕ) : Prop where
  count_le : ∀ x, xs.count x ≤ k
  reached : Occurrence xs k leader i
  first : ∀ x j, Occurrence xs k x j → i ≤ j

variable {xs : List α} {k i j : ℕ} {x y leader : α}

theorem Occurrence.lt_length (h : Occurrence xs k x i) : i < xs.length := (List.getElem?_eq_some_iff.mp h.1).1

/-- There are at least `k` occurrences if there is a `k`-th one. -/
theorem Occurrence.le_count (h : Occurrence xs k x i) : k ≤ xs.count x := by
  rw [← h.2]
  exact (List.take_sublist _ _).count_le x

/-- An occurrence before the end of a list does not depend on what is appended. -/
theorem occurrence_append_iff (hi : i < xs.length) (ys : List α) :
    Occurrence (xs ++ ys) k x i ↔ Occurrence xs k x i := by
  rw [Occurrence, Occurrence, List.getElem?_append_left hi, List.take_append_of_le_length (by omega)]

/-- An element whose count passes every count so far leads, from its new
    occurrence on. -/
theorem leads_of_lt_count (hcount : ∀ y, xs.count y ≤ k) (hlt : k < (xs ++ [x]).count x) :
    Leads (xs ++ [x]) ((xs ++ [x]).count x) x xs.length := by
  constructor
  · intro y
    by_cases hy : y = x
    · exact Nat.le_of_eq (by rw [hy])
    · have hold := hcount y
      rw [List.count_append, List.count_singleton, if_neg (by simpa using Ne.symm hy)]
      omega
  · exact ⟨List.getElem?_concat_length, by rw [List.take_of_length_le (by simp)]⟩
  · intro y j hj
    by_contra hbefore
    have hold := ((occurrence_append_iff (by omega) [x]).mp hj).le_count
    have := hcount y
    omega

/-- The leader stays where the count of the new element does not pass its own. -/
theorem Leads.append (h : Leads xs k leader i) (hle : (xs ++ [x]).count x ≤ k) : Leads (xs ++ [x]) k leader i := by
  have hi := h.reached.lt_length
  constructor
  · intro y
    by_cases hy : y = x
    · rwa [hy]
    · rw [List.count_append, List.count_singleton, if_neg (by simpa using Ne.symm hy)]
      exact h.count_le y
  · exact (occurrence_append_iff hi [x]).mpr h.reached
  · intro y j hj
    by_cases hold : j < xs.length
    · exact h.first y j ((occurrence_append_iff hold [x]).mp hj)
    · omega

theorem Leads.count_leader (h : Leads xs k leader i) : xs.count leader = k :=
  Nat.le_antisymm (h.count_le leader) h.reached.le_count

/-- Among the elements with the greatest count, the `k`-th occurrence of the
    leader is strictly the first. -/
theorem Leads.lt_of_ne (h : Leads xs k leader i) (hne : x ≠ leader) (hj : Occurrence xs k x j) : i < j := by
  refine Nat.lt_of_le_of_ne (h.first x j hj) ?_
  rintro rfl
  exact hne (Option.some.inj (hj.1.symm.trans h.reached.1))

end mode
