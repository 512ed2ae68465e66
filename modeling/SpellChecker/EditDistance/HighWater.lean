import SpellChecker.EditDistance.Reuse

namespace spellcheck.edit_distance

/-- The number of cells of row `i`. -/
def Table.width (dp : Table) (i : ℕ) : ℕ := (dp[i]?.map List.length).getD 0

/-- The most rows that one of the calls needs. -/
def rowsFor (calls : List (Word × Word)) : ℕ := calls.foldr (fun call rows => max (call.1.length + 1) rows) 0

/-- The most cells in row `i` that one of the calls needs. -/
def widthFor (calls : List (Word × Word)) (i : ℕ) : ℕ :=
  calls.foldr (fun call width => if i ≤ call.1.length then max (call.2.length + 1) width else width) 0

theorem Table.width_eq_of_shape {dp after : Table} (h : after.shape = dp.shape) (i : ℕ) :
    after.width i = dp.width i := by
  rw [Table.width, Table.width, ← List.getElem?_map, ← List.getElem?_map]
  exact congrArg (fun shape : List ℕ => shape[i]?.getD 0) h

theorem length_growTo {α : Type} (size : ℕ) (fill : α) (v : List α) :
    (growTo size fill v).length = max v.length size := by
  simp [growTo]
  omega

/-- New rows are empty. -/
theorem width_growTo (dp : Table) (size i : ℕ) : Table.width (growTo size [] dp) i = dp.width i := by
  rw [Table.width, Table.width, growTo]
  by_cases hi : i < dp.length
  · rw [List.getElem?_append_left hi]
  · rw [List.getElem?_append_right (by omega), List.getElem?_eq_none (l := dp) (by omega), List.getElem?_replicate]
    split
    · rfl
    · rfl

/-- The resizing loop widens the rows it comes to, and no other. -/
theorem resize_width (dp : Table) (s1 s2 : Word) :
    ∃ grown, resize dp s1 s2 = .ok grown ∧ grown.length = max dp.length (s1.length + 1) ∧
      ∀ i, grown.width i = if i ≤ s1.length then max (s2.length + 1) (dp.width i) else dp.width i := by
  have hrule := loop.foldlM_range_ok (growRow s2.length)
    (fun rows (after : Table) => after.length = max dp.length (s1.length + 1) ∧
      ∀ i, after.width i = if i < rows then max (s2.length + 1) (dp.width i) else dp.width i)
    (s1.length + 1) (growTo (s1.length + 1) [] dp)
    ⟨length_growTo _ _ _, fun i => by rw [width_growTo, if_neg (Nat.not_lt_zero i)]⟩
  obtain ⟨grown, hgrown, hlength, hwidth⟩ := hrule (by
    rintro rows after hrows ⟨hlength, hwidth⟩
    have hlt : rows < after.length := by omega
    obtain ⟨row, hrow⟩ : ∃ row, after[rows]? = some row := ⟨_, List.getElem?_eq_getElem hlt⟩
    refine ⟨after.set rows (growTo (s2.length + 1) 0 row), by rw [growRow, vecAt_of_getElem? hrow]; rfl,
      by rwa [List.length_set], fun i => ?_⟩
    by_cases hi : i = rows
    · subst hi
      have hold := hwidth i
      rw [Table.width, hrow, if_neg (Nat.lt_irrefl i)] at hold
      rw [Table.width, List.getElem?_set_self hlt, if_pos (Nat.lt_succ_self i), ← hold, Option.map_some,
        Option.getD_some, length_growTo]
      exact max_comm _ _
    · have hkeep : Table.width (after.set rows (growTo (s2.length + 1) 0 row)) i = after.width i := by
        rw [Table.width, List.getElem?_set_ne (Ne.symm hi), Table.width]
      rw [hkeep, hwidth]
      split
      · rw [if_pos (by omega)]
      · rw [if_neg (by omega)])
  refine ⟨grown, hgrown, hlength, fun i => ?_⟩
  rw [hwidth]
  split
  · rw [if_pos (by omega)]
  · rw [if_neg (by omega)]

/-- Of a call only its resizes change the shape of the table. -/
theorem EditDistanceOn_width (dp : Table) (s1 s2 : Word) :
    ∃ after, EditDistanceOn dp s1 s2 = .ok (EditDistance s1 s2, after) ∧
      after.length = max dp.length (s1.length + 1) ∧
      ∀ i, after.width i = if i ≤ s1.length then max (s2.length + 1) (dp.width i) else dp.width i := by
  obtain ⟨grown, t, hgrown, -, -, hplain, hdone⟩ := EditDistanceTraced_spec dp s1 s2
  obtain ⟨resized, hresized, hlength, hwidth⟩ := resize_width dp s1 s2
  obtain rfl := loop.ok_unique hgrown hresized
  have hrows := congrArg List.length hdone.shape
  rw [Table.shape, Table.shape, List.length_map, List.length_map] at hrows
  exact ⟨t.dp, hplain, hrows.trans hlength, fun i => (Table.width_eq_of_shape hdone.shape i).trans (hwidth i)⟩

theorem runCalls_width (dp : Table) (calls : List (Word × Word)) :
    ∃ after, runCalls dp calls = .ok (calls.map fun call => EditDistance call.1 call.2, after) ∧
      after.length = max dp.length (rowsFor calls) ∧ ∀ i, after.width i = max (dp.width i) (widthFor calls i) := by
  induction calls generalizing dp with
  | nil => exact ⟨dp, rfl, (Nat.max_zero _).symm, fun i => (Nat.max_zero _).symm⟩
  | cons call calls ih =>
    obtain ⟨s1, s2⟩ := call
    obtain ⟨mid, hcall, hlength, hwidth⟩ := EditDistanceOn_width dp s1 s2
    obtain ⟨after, hrest, hlength', hwidth'⟩ := ih mid
    refine ⟨after, ?_, ?_, fun i => ?_⟩
    · rw [runCalls, hcall, loop.bind_ok]
      simp only [hrest, loop.bind_ok]
      rfl
    · rw [hlength', hlength, rowsFor, rowsFor, List.foldr_cons, max_assoc]
    · rw [hwidth', hwidth, widthFor, widthFor, List.foldr_cons]
      split
      · rw [max_comm (s2.length + 1), max_assoc]
      · rfl

/-- The table of a thread is as large as its calls have needed it, and no
    larger: after any sequence of calls it has the rows of the longest first
    word, and row `i` the cells of the longest second word among the calls that
    reach row `i`. -/
theorem runCalls_shape (calls : List (Word × Word)) :
    ∃ dp, runCalls [] calls = .ok (calls.map fun call => EditDistance call.1 call.2, dp) ∧
      dp.length = rowsFor calls ∧ ∀ i, dp.width i = widthFor calls i := by
  obtain ⟨dp, hcalls, hlength, hwidth⟩ := runCalls_width [] calls
  refine ⟨dp, hcalls, hlength.trans (Nat.zero_max _), fun i => ?_⟩
  rw [hwidth]
  exact Nat.zero_max _

end spellcheck.edit_distance
