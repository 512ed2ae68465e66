import SpellChecker.Data.Loop
import SpellChecker.EditDistance.Table

namespace spellcheck.edit_distance

/-- Within rows `0..m` and columns `0..n`, `next` holds of nothing but the cells
    of `done` and of the cell `(i, j)`. -/
def Adds (m n : ℕ) (done : ℕ → ℕ → Prop) (i j : ℕ) (next : ℕ → ℕ → Prop) : Prop :=
  ∀ a b, a ≤ m → b ≤ n → next a b → done a b ∨ (a = i ∧ b = j)

/-- The order in which `EditDistance` fills its table: first the left column,
    then the top row, then row by row the cells whose three neighbours are done.
    A property of the cells done so far that every fill extends by its cell
    holds of all cells in the end. -/
theorem fill_in_order {σ : Type} {m n : ℕ} (column row : σ → ℕ → Except Fault σ) (cell : ℕ → σ → ℕ → Except Fault σ)
    (invariant : (ℕ → ℕ → Prop) → σ → Prop) (init : σ)
    (hmono : ∀ done next s, invariant done s → (∀ a b, a ≤ m → b ≤ n → next a b → done a b) → invariant next s)
    (hcolumn : ∀ i done next s, i ≤ m → invariant done s → Adds m n done i 0 next →
      ∃ after, column s i = .ok after ∧ invariant next after)
    (hrow : ∀ j done next s, j ≤ n → invariant done s → Adds m n done 0 j next →
      ∃ after, row s j = .ok after ∧ invariant next after)
    (hcell : ∀ i j done next s, i < m → j < n → invariant done s → done i (j + 1) → done (i + 1) j → done i j →
      Adds m n done (i + 1) (j + 1) next → ∃ after, cell i s j = .ok after ∧ invariant next after)
    (hinit : invariant (fun _ _ => False) init) :
    ∃ left border full, (List.range (m + 1)).foldlM column init = .ok left ∧
      (List.range (n + 1)).foldlM row left = .ok border ∧
      (List.range m).foldlM (fun s i => (List.range n).foldlM (cell i) s) border = .ok full ∧
      invariant (fun _ _ => True) full := by
  obtain ⟨left, hleft, hdoneLeft⟩ := loop.foldlM_range_ok column
    (fun i => invariant fun a b => a < i ∧ b = 0) (m + 1) init
    (hmono _ _ _ hinit (by intro a b _ _ h; omega)) (by
      intro i s hi hdone
      exact hcolumn i _ _ s (by omega) hdone (by intro a b _ _ h; omega))
  obtain ⟨border, hborder, hdoneBorder⟩ := loop.foldlM_range_ok row
    (fun j => invariant fun a b => b = 0 ∨ (a = 0 ∧ b < j)) (n + 1) left
    (hmono _ _ _ hdoneLeft (by intro a b _ _ h; omega)) (by
      intro j s hj hdone
      exact hrow j _ _ s (by omega) hdone (by intro a b _ _ h; omega))
  -- The outer invariant: rows up to `i` are complete, and so is the left border.
  obtain ⟨full, hfull, hdoneFull⟩ := loop.foldlM_range_ok
    (fun s i => (List.range n).foldlM (cell i) s)
    (fun i => invariant fun a b => b = 0 ∨ a ≤ i) m border
    (hmono _ _ _ hdoneBorder (by intro a b _ _ h; omega)) (by
      intro i s hi hdone
      obtain ⟨after, hafter, hdoneRow⟩ := loop.foldlM_range_ok (cell i)
        (fun j => invariant fun a b => b = 0 ∨ a ≤ i ∨ (a = i + 1 ∧ b ≤ j)) n s
        (hmono _ _ _ hdone (by intro a b _ _ h; omega)) (by
          intro j s hj hdone
          exact hcell i j _ _ s hi hj hdone (by omega) (by omega) (by omega) (by intro a b _ _ h; omega))
      exact ⟨after, hafter, hmono _ _ _ hdoneRow (by intro a b _ _ h; omega)⟩)
  exact ⟨left, border, full, hleft, hborder, hfull, hmono _ _ _ hdoneFull (by intro a b ha _ _; omega)⟩

end spellcheck.edit_distance
