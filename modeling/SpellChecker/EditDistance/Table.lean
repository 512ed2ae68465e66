import SpellChecker.Machine

namespace spellcheck.edit_distance

/-- `thread_local std::vector<std::vector<size_t>> dp`. Rows may have different
    widths: they are whatever earlier calls left. -/
abbrev Table := List (List ℕ)

/-- `if (v.size() < size) v.resize(size)`. -/
def growTo {α : Type} (size : ℕ) (fill : α) (v : List α) : List α :=
  v ++ List.replicate (size - v.length) fill

/-- The read `dp[i][j]`. -/
def Table.read (dp : Table) (i j : ℕ) : Except Fault ℕ := do
  let row ← vecAt dp i
  vecAt row j

/-- The assignment `dp[i][j] = value`. -/
def Table.write (dp : Table) (i j value : ℕ) : Except Fault Table := do
  let row ← vecAt dp i
  if j < row.length then .ok (dp.set i (row.set j value)) else .error .outOfBounds

/-- The resize of row `i` to at least `n + 1` cells. -/
def growRow (n : ℕ) (dp : Table) (i : ℕ) : Except Fault Table := do
  let row ← vecAt dp i
  return dp.set i (growTo (n + 1) 0 row)

/-- The body of the double loop, at cell `(i + 1, j + 1)`. -/
def fillCell (s1 s2 : Word) (i : ℕ) (dp : Table) (j : ℕ) : Except Fault Table := do
  let c1 ← vecAt s1 i
  let c2 ← vecAt s2 j
  if c1 = c2 then
    let diagonal ← dp.read i j
    dp.write (i + 1) (j + 1) diagonal
  else
    let above ← dp.read i (j + 1)
    let left ← dp.read (i + 1) j
    let diagonal ← dp.read i j
    dp.write (i + 1) (j + 1) (min (min (above + 1) (left + 1)) (diagonal + 1))

/-- `EditDistance` on the table `dp` that earlier calls on this thread left;
    returns the distance and the table as this call leaves it. -/
def EditDistanceOn (dp : Table) (s1 s2 : Word) : Except Fault (ℕ × Table) := do
  let m := s1.length
  let n := s2.length
  let dp := growTo (m + 1) [] dp
  let dp ← (List.range (m + 1)).foldlM (growRow n) dp
  let dp ← (List.range (m + 1)).foldlM (fun dp i => dp.write i 0 i) dp
  let dp ← (List.range (n + 1)).foldlM (fun dp j => dp.write 0 j j) dp
  let dp ← (List.range m).foldlM (fun dp i => (List.range n).foldlM (fillCell s1 s2 i) dp) dp
  let distance ← dp.read m n
  return (distance, dp)

/-- The value of `EditDistance(s1, s2)`, computed on an empty table. -/
def EditDistance (s1 s2 : Word) : ℕ :=
  match EditDistanceOn [] s1 s2 with
  | .ok (distance, _) => distance
  | .error _ => 0

/-- The content of cell `(i, j)`, if the table has that cell. -/
def Table.cell (dp : Table) (i j : ℕ) : Option ℕ := dp[i]?.bind fun row => row[j]?

theorem Table.read_eq_ok {dp : Table} {i j value : ℕ} (h : dp.cell i j = some value) :
    dp.read i j = .ok value := by
  obtain ⟨row, hrow, hvalue⟩ := Option.bind_eq_some_iff.mp h
  unfold Table.read
  rw [vecAt_of_getElem? hrow]
  exact vecAt_of_getElem? hvalue

/-- A write to a cell the table has succeeds and changes that cell only. -/
theorem Table.write_spec {dp : Table} {i j : ℕ} (value : ℕ) (h : (dp.cell i j).isSome) :
    ∃ after, dp.write i j value = .ok after ∧
      ∀ a b, after.cell a b = if a = i ∧ b = j then some value else dp.cell a b := by
  obtain ⟨old, hold⟩ := Option.isSome_iff_exists.mp h
  obtain ⟨row, hrow, hvalue⟩ := Option.bind_eq_some_iff.mp hold
  have hj : j < row.length := (List.getElem?_eq_some_iff.mp hvalue).1
  have hi : i < dp.length := (List.getElem?_eq_some_iff.mp hrow).1
  refine ⟨dp.set i (row.set j value), ?_, ?_⟩
  · unfold Table.write
    rw [vecAt_of_getElem? hrow]
    exact if_pos hj
  · intro a b
    by_cases ha : a = i
    · subst a
      simp only [Table.cell, List.getElem?_set_self hi, hrow, Option.bind_some, true_and]
      by_cases hb : b = j
      · subst b
        rw [if_pos rfl, List.getElem?_set_self hj]
      · rw [if_neg hb, List.getElem?_set_ne (Ne.symm hb)]
    · simp [Table.cell, ha, List.getElem?_set_ne (Ne.symm ha)]

end spellcheck.edit_distance
