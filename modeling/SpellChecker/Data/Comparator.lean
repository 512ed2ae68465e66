import Mathlib.Data.List.Sort
import Mathlib.Order.RelClasses
import Mathlib.Tactic.Cases

namespace comparator

variable {α : Type*}

/-- A less-than comparator that orders its arguments by a key in a linear order. -/
structure KeyedBy {κ : Type*} [LinearOrder κ] (key : α → κ) (lt : α → α → Bool) : Prop where
  lt_iff : ∀ a b, lt a b = true ↔ key a < key b

/-- What a sorting routine promises about any strict weak order: some
    permutation of its input in which no element precedes a smaller one. It
    need not be stable. -/
structure Sorter where
  run : {α : Type} → (α → α → Bool) → List α → List α
  perm : ∀ {α : Type} (lt : α → α → Bool) (l : List α), (run lt l).Perm l
  sorted : ∀ {α : Type} (lt : α → α → Bool) (l : List α), IsStrictWeakOrder α (fun a b => lt a b = true) →
    (run lt l).Pairwise fun a b => lt b a = false

/-- In a strict weak order "not greater" is transitive. -/
theorem not_lt_trans {lt : α → α → Bool} (h : IsStrictWeakOrder α (fun a b => lt a b = true)) {a b c : α}
    (hab : ¬ lt b a = true) (hbc : ¬ lt c b = true) : ¬ lt c a = true := by
  intro hca
  have hba : ¬ lt a b = true := fun hlt => hbc (h.trans c a b hca hlt)
  have hcb : ¬ lt b c = true := fun hlt => hab (h.trans b c a hlt hca)
  exact (h.incomp_trans c b a ⟨hbc, hcb⟩ ⟨hab, hba⟩).1 hca

/-- Merge sort is a sorting routine. -/
instance : Inhabited Sorter where
  default :=
    { run := fun lt l => l.mergeSort fun a b => !lt b a
      perm := fun lt l => List.mergeSort_perm l _
      sorted := fun {α} lt l h => by
        have htrans (a b c : α) (hab : (!lt b a) = true) (hbc : (!lt c b) = true) : (!lt c a) = true := by
          simp only [Bool.not_eq_true', ← Bool.not_eq_true] at hab hbc ⊢
          exact not_lt_trans h hab hbc
        have htotal (a b : α) : ((!lt b a) || !lt a b) = true := by
          by_cases hba : lt b a = true
          · have hab : ¬ lt a b = true := fun hab => h.irrefl a (h.trans a b a hab hba)
            simp [hab]
          · simp [hba]
        refine (List.pairwise_mergeSort htrans htotal l).imp fun hab => ?_
        simpa using hab }

section Keyed

variable {κ : Type*} [LinearOrder κ] {key : α → κ} {lt : α → α → Bool}

theorem KeyedBy.eq_false_iff (h : KeyedBy key lt) (a b : α) : lt a b = false ↔ key b ≤ key a := by
  rw [← not_lt, ← h.lt_iff, Bool.not_eq_true]

theorem KeyedBy.strictWeakOrder (h : KeyedBy key lt) :
    IsStrictWeakOrder α (fun a b => lt a b = true) where
  irrefl a := by simp [h.lt_iff]
  trans a b c := by
    simp only [h.lt_iff]
    exact lt_trans
  incomp_trans a b c := by
    simp only [h.lt_iff, not_lt]
    rintro ⟨hba, hab⟩ ⟨hcb, hbc⟩
    exact ⟨hcb.trans hba, hab.trans hbc⟩

theorem Sorter.sorted_key (sorter : Sorter) {α : Type} {key : α → κ} {lt : α → α → Bool}
    (h : KeyedBy key lt) (l : List α) : (sorter.run lt l).Pairwise fun a b => key a ≤ key b :=
  (sorter.sorted lt l h.strictWeakOrder).imp fun hab => (h.eq_false_iff _ _).mp hab

/-- Sorting sees the keys only: a change of the elements that keeps them can be
    made after sorting as well as before, also with another sorting routine. -/
theorem Sorter.map_run_eq_of_perm (sorter sorter' : Sorter) {α : Type} {key : α → κ} {lt : α → α → Bool}
    (h : KeyedBy key lt) {l l' : List α} {f : α → α} (hkey : ∀ a ∈ l, key (f a) = key a) (hperm : (l.map f).Perm l')
    (hties : ∀ a ∈ l', ∀ b ∈ l', key a = key b → a = b) : (sorter.run lt l).map f = sorter'.run lt l' := by
  have hsorted : ((sorter.run lt l).map f).Pairwise fun a b => key a ≤ key b := by
    rw [List.pairwise_map]
    refine (sorter.sorted_key h l).imp_of_mem fun {a b} ha hb hab => ?_
    rwa [hkey a ((sorter.perm lt l).mem_iff.mp ha), hkey b ((sorter.perm lt l).mem_iff.mp hb)]
  have hmap : ((sorter.run lt l).map f).Perm l' := ((sorter.perm lt l).map f).trans hperm
  refine List.Perm.eq_of_pairwise ?_ hsorted (sorter'.sorted_key h l') (hmap.trans (sorter'.perm lt l').symm)
  intro a b ha hb hab hba
  exact hties a (hmap.mem_iff.mp ha) b ((sorter'.perm lt l').mem_iff.mp hb) (le_antisymm hab hba)

/-- Sorting settles a list up to the order of ties: when equal keys mean equal
    elements, any two arrangements of the same elements sort to one list, also
    with different sorting routines. -/
theorem Sorter.run_eq_of_perm (sorter sorter' : Sorter) {α : Type} {key : α → κ} {lt : α → α → Bool}
    (h : KeyedBy key lt) {l l' : List α} (hperm : l.Perm l')
    (hties : ∀ a ∈ l, ∀ b ∈ l, key a = key b → a = b) : sorter.run lt l = sorter'.run lt l' := by
  refine List.Perm.eq_of_pairwise ?_ (sorter.sorted_key h l) (sorter'.sorted_key h l')
    ((sorter.perm lt l).trans (hperm.trans (sorter'.perm lt l').symm))
  intro a b ha hb hab hba
  have hal : a ∈ l := (sorter.perm lt l).mem_iff.mp ha
  have hbl : b ∈ l := hperm.mem_iff.mpr ((sorter'.perm lt l').mem_iff.mp hb)
  exact hties a hal b hbl (le_antisymm hab hba)

end Keyed

/-- Insertion into an ordered set: an element equivalent to one that is already
    there is not inserted. -/
def insert (lt : α → α → Bool) (x : α) : List α → List α
  | [] => [x]
  | y :: set => if lt x y then x :: y :: set else if lt y x then y :: insert lt x set else y :: set

/-- Successive insertions. -/
def insertAll (lt : α → α → Bool) (set xs : List α) : List α := xs.foldl (fun set x => insert lt x set) set

@[simp] theorem insertAll_nil (lt : α → α → Bool) (set : List α) : insertAll lt set [] = set := rfl

@[simp] theorem insertAll_cons (lt : α → α → Bool) (set : List α) (x : α) (xs : List α) :
    insertAll lt set (x :: xs) = insertAll lt (insert lt x set) xs := rfl

theorem insertAll_append (lt : α → α → Bool) (set xs ys : List α) :
    insertAll lt set (xs ++ ys) = insertAll lt (insertAll lt set xs) ys := by
  simp [insertAll, List.foldl_append]

theorem mem_of_mem_insert {lt : α → α → Bool} {x y : α} {set : List α} (h : y ∈ insert lt x set) :
    y = x ∨ y ∈ set := by
  induction set with
  | nil => simpa [insert] using h
  | cons z set ih =>
    unfold insert at h
    split at h
    · simpa using h
    · split at h
      · cases List.mem_cons.mp h with
        | inl heq =>
          subst heq
          simp
        | inr h => exact (ih h).imp id (List.mem_cons_of_mem z)
      · exact .inr h

theorem mem_insert_of_mem {lt : α → α → Bool} {x y : α} {set : List α} (h : y ∈ set) :
    y ∈ insert lt x set := by
  induction set with
  | nil => simp at h
  | cons z set ih =>
    unfold insert
    split
    · exact List.mem_cons_of_mem x h
    · split
      · cases List.mem_cons.mp h with
        | inl heq =>
          subst heq
          simp
        | inr h => exact List.mem_cons_of_mem z (ih h)
      · exact h

theorem mem_insertAll {lt : α → α → Bool} {y : α} {set xs : List α} (h : y ∈ insertAll lt set xs) :
    y ∈ set ∨ y ∈ xs := by
  induction xs generalizing set with
  | nil => exact .inl h
  | cons x xs ih =>
    cases ih h with
    | inl h =>
      rcases mem_of_mem_insert h with rfl | h
      · simp
      · exact .inl h
    | inr h => simp [h]

theorem mem_insertAll_of_mem {lt : α → α → Bool} {y : α} {set : List α} (h : y ∈ set) (xs : List α) :
    y ∈ insertAll lt set xs := by
  induction xs generalizing set with
  | nil => exact h
  | cons x xs ih => exact ih (mem_insert_of_mem h)

section Keyed

variable {κ : Type*} [LinearOrder κ] {key : α → κ} {lt : α → α → Bool}

theorem insert_pairwise (h : KeyedBy key lt) (x : α) {set : List α}
    (hset : set.Pairwise fun a b => key a < key b) :
    (insert lt x set).Pairwise fun a b => key a < key b := by
  induction set with
  | nil => simp [insert]
  | cons y set ih =>
    obtain ⟨hhead, htail⟩ := List.pairwise_cons.mp hset
    unfold insert
    split
    · rename_i hxy
      have hlt := (h.lt_iff x y).mp hxy
      refine List.pairwise_cons.mpr ⟨fun z hz => ?_, hset⟩
      cases List.mem_cons.mp hz with
      | inl heq =>
        subst heq
        exact hlt
      | inr hz => exact hlt.trans (hhead z hz)
    · split
      · rename_i hyx
        refine List.pairwise_cons.mpr ⟨fun z hz => ?_, ih htail⟩
        cases mem_of_mem_insert hz with
        | inl heq =>
          subst heq
          exact (h.lt_iff y z).mp hyx
        | inr hz => exact hhead z hz
      · exact hset

/-- After an insertion some element is equivalent to the inserted one. -/
theorem exists_key_eq_insert (h : KeyedBy key lt) (x : α) (set : List α) :
    ∃ y ∈ insert lt x set, key y = key x := by
  induction set with
  | nil => exact ⟨x, by simp [insert], rfl⟩
  | cons y set ih =>
    unfold insert
    split
    · exact ⟨x, by simp, rfl⟩
    · rename_i hxy
      split
      · obtain ⟨z, hz, hkey⟩ := ih
        exact ⟨z, List.mem_cons_of_mem y hz, hkey⟩
      · rename_i hyx
        refine ⟨y, by simp, le_antisymm ?_ ?_⟩
        · exact (h.eq_false_iff x y).mp (by simpa using hxy)
        · exact (h.eq_false_iff y x).mp (by simpa using hyx)

theorem insertAll_pairwise (h : KeyedBy key lt) {set : List α}
    (hset : set.Pairwise fun a b => key a < key b) (xs : List α) :
    (insertAll lt set xs).Pairwise fun a b => key a < key b := by
  induction xs generalizing set with
  | nil => exact hset
  | cons x xs ih => exact ih (insert_pairwise h x hset)

theorem exists_key_eq_insertAll (h : KeyedBy key lt) (set : List α) {x : α} {xs : List α} (hx : x ∈ xs) :
    ∃ y ∈ insertAll lt set xs, key y = key x := by
  induction xs generalizing set with
  | nil => simp at hx
  | cons z xs ih =>
    cases List.mem_cons.mp hx with
    | inl heq =>
      subst heq
      obtain ⟨y, hy, hkey⟩ := exists_key_eq_insert h x set
      exact ⟨y, mem_insertAll_of_mem hy xs, hkey⟩
    | inr hx => exact ih _ hx

/-- When equal keys mean equal elements, the set holds exactly what was inserted. -/
theorem mem_insertAll_iff (h : KeyedBy key lt) {xs : List α}
    (hties : ∀ a ∈ xs, ∀ b ∈ xs, key a = key b → a = b) (x : α) : x ∈ insertAll lt [] xs ↔ x ∈ xs := by
  constructor
  · intro hx
    simpa using mem_insertAll hx
  · intro hx
    obtain ⟨y, hy, hkey⟩ := exists_key_eq_insertAll h [] hx
    have hyx : y ∈ xs := by simpa using mem_insertAll hy
    rwa [hties x hx y hyx hkey.symm]

end Keyed

/-- A strictly increasing list is determined by its members. -/
theorem eq_of_strict_of_mem_iff {κ : Type*} [LinearOrder κ] {l l' : List κ} (hl : l.Pairwise (· < ·))
    (hl' : l'.Pairwise (· < ·)) (hmem : ∀ x, x ∈ l ↔ x ∈ l') : l = l' := by
  have hperm : l.Perm l' := (List.perm_ext_iff_of_nodup (hl.imp ne_of_lt) (hl'.imp ne_of_lt)).mpr hmem
  exact hperm.eq_of_pairwise (fun a b _ _ hab hba => absurd (hab.trans hba) (lt_irrefl a)) hl hl'

end comparator
