import SpellChecker.Data.EditScript
import SpellChecker.EditDistance.Order

open edit_script

namespace spellcheck.edit_distance

/-- The distance of the first `i` bytes of `s1` to the first `j` bytes of `s2`. -/
def prefixDistance (s1 s2 : Word) (i j : ℕ) : ℕ := lev (s1.take i).reverse (s2.take j).reverse

theorem prefixDistance_zero_left (s1 s2 : Word) {j : ℕ} (hj : j ≤ s2.length) :
    prefixDistance s1 s2 0 j = j := by
  simp [prefixDistance, hj]

theorem prefixDistance_zero_right (s1 s2 : Word) {i : ℕ} (hi : i ≤ s1.length) :
    prefixDistance s1 s2 i 0 = i := by
  simp [prefixDistance, hi]

theorem reverse_take_succ {s : Word} {i : ℕ} {c : Byte} (h : s[i]? = some c) :
    (s.take (i + 1)).reverse = c :: (s.take i).reverse := by
  rw [List.take_add_one, h, Option.toList_some, List.reverse_append]
  rfl

/-- On equal bytes the recurrence takes the diagonal cell. -/
theorem prefixDistance_succ_eq {s1 s2 : Word} {i j : ℕ} {c : Byte} (h1 : s1[i]? = some c)
    (h2 : s2[j]? = some c) : prefixDistance s1 s2 (i + 1) (j + 1) = prefixDistance s1 s2 i j := by
  rw [prefixDistance, reverse_take_succ h1, reverse_take_succ h2, lev_cons_self]
  rfl

theorem prefixDistance_succ_ne {s1 s2 : Word} {i j : ℕ} {c1 c2 : Byte} (h1 : s1[i]? = some c1)
    (h2 : s2[j]? = some c2) (hne : c1 ≠ c2) :
    prefixDistance s1 s2 (i + 1) (j + 1) =
      min (min (prefixDistance s1 s2 i (j + 1) + 1) (prefixDistance s1 s2 (i + 1) j + 1))
        (prefixDistance s1 s2 i j + 1) := by
  simp only [prefixDistance, reverse_take_succ h1, reverse_take_succ h2]
  rw [lev_cons_ne hne]
  omega

theorem prefixDistance_full (s1 s2 : Word) :
    prefixDistance s1 s2 s1.length s2.length = lev s1 s2 := by
  simp [prefixDistance, lev_reverse]

/-- The table has every cell of the rows `0..m` and columns `0..n`. -/
def Covers (m n : ℕ) (dp : Table) : Prop := ∀ i j, i ≤ m → j ≤ n → (dp.cell i j).isSome

/-- The cells `(i, j)` that the loops have filled so far, as a set, hold the
    distances of the prefixes. -/
def Filled (s1 s2 : Word) (done : ℕ → ℕ → Prop) (dp : Table) : Prop :=
  Covers s1.length s2.length dp ∧
    ∀ i j, i ≤ s1.length → j ≤ s2.length → done i j → dp.cell i j = some (prefixDistance s1 s2 i j)

/-- Writing one more correct cell extends the filled set by that cell. -/
theorem Filled.write {s1 s2 : Word} {done next : ℕ → ℕ → Prop} {dp : Table}
    (h : Filled s1 s2 done dp) {i j value : ℕ} (hi : i ≤ s1.length) (hj : j ≤ s2.length)
    (hvalue : value = prefixDistance s1 s2 i j)
    (hnext : ∀ a b, a ≤ s1.length → b ≤ s2.length → next a b → done a b ∨ (a = i ∧ b = j)) :
    ∃ after, dp.write i j value = .ok after ∧ Filled s1 s2 next after := by
  obtain ⟨after, hwrite, hcell⟩ := dp.write_spec value (h.1 i j hi hj)
  refine ⟨after, hwrite, ?_, ?_⟩
  · intro a b ha hb
    rw [hcell]
    split
    · rfl
    · exact h.1 a b ha hb
  · intro a b ha hb hdone
    rw [hcell]
    split
    · rename_i hab
      rw [hab.1, hab.2, hvalue]
    · rename_i hab
      exact h.2 a b ha hb ((hnext a b ha hb hdone).resolve_right hab)

theorem growTo_length {α : Type} (size : ℕ) (fill : α) (v : List α) :
    size ≤ (growTo size fill v).length ∧ v.length ≤ (growTo size fill v).length := by
  simp [growTo]
  omega

/-- The resizing loop succeeds and leaves room for every cell the call uses. -/
theorem growRows_spec (dp : Table) (m n : ℕ) :
    ∃ after, (List.range (m + 1)).foldlM (growRow n) (growTo (m + 1) [] dp) = .ok after ∧
      Covers m n after := by
  have hrule := loop.foldlM_range_ok (growRow n)
    (fun i (dp : Table) => m + 1 ≤ dp.length ∧ ∀ a, a < i → ∃ row, dp[a]? = some row ∧ n < row.length)
    (m + 1) (growTo (m + 1) [] dp)
    ⟨(growTo_length _ _ _).1, by intro a ha; omega⟩
  obtain ⟨after, hafter, _, hrows⟩ := hrule (by
    intro i dp hi ⟨hlength, hrows⟩
    obtain ⟨row, hrow⟩ : ∃ row, dp[i]? = some row := ⟨_, List.getElem?_eq_getElem (by omega)⟩
    refine ⟨dp.set i (growTo (n + 1) 0 row), by rw [growRow, vecAt_of_getElem? hrow]; rfl, by simpa using hlength, ?_⟩
    intro a ha
    by_cases hai : a = i
    · subst a
      exact ⟨_, List.getElem?_set_self (by omega), (growTo_length _ _ _).1⟩
    · rw [List.getElem?_set_ne (Ne.symm hai)]
      exact hrows a (by omega))
  refine ⟨after, hafter, ?_⟩
  intro i j hi hj
  obtain ⟨row, hrow, hwidth⟩ := hrows i (by omega)
  simp only [Table.cell, hrow, Option.bind_some]
  simp
  omega

/-- One execution of the loop body computes one cell of the recurrence. -/
theorem fillCell_spec {s1 s2 : Word} {done next : ℕ → ℕ → Prop} {dp : Table}
    (h : Filled s1 s2 done dp) {i j : ℕ} (hi : i < s1.length) (hj : j < s2.length)
    (habove : done i (j + 1)) (hleft : done (i + 1) j) (hdiagonal : done i j)
    (hnext : ∀ a b, a ≤ s1.length → b ≤ s2.length → next a b → done a b ∨ (a = i + 1 ∧ b = j + 1)) :
    ∃ after, fillCell s1 s2 i dp j = .ok after ∧ Filled s1 s2 next after := by
  obtain ⟨c1, h1⟩ : ∃ c, s1[i]? = some c := ⟨_, List.getElem?_eq_getElem hi⟩
  obtain ⟨c2, h2⟩ : ∃ c, s2[j]? = some c := ⟨_, List.getElem?_eq_getElem hj⟩
  have hreadDiagonal := Table.read_eq_ok (h.2 i j (by omega) (by omega) hdiagonal)
  unfold fillCell
  rw [vecAt_of_getElem? h1, loop.bind_ok, vecAt_of_getElem? h2, loop.bind_ok]
  by_cases hc : c1 = c2
  · subst c2
    rw [if_pos rfl, hreadDiagonal, loop.bind_ok]
    exact h.write (by omega) (by omega) (prefixDistance_succ_eq h1 h2).symm hnext
  · have hreadAbove := Table.read_eq_ok (h.2 i (j + 1) (by omega) (by omega) habove)
    have hreadLeft := Table.read_eq_ok (h.2 (i + 1) j (by omega) (by omega) hleft)
    rw [if_neg hc, hreadAbove, loop.bind_ok, hreadLeft, loop.bind_ok, hreadDiagonal, loop.bind_ok]
    exact h.write (by omega) (by omega) (prefixDistance_succ_ne h1 h2 hc).symm hnext

/-- From any table at all, a call succeeds, every index it uses is inside the
    resized table, and it returns the Levenshtein distance. -/
theorem EditDistanceOn_spec (dp : Table) (s1 s2 : Word) :
    ∃ after, EditDistanceOn dp s1 s2 = .ok (lev s1 s2, after) := by
  obtain ⟨grown, hgrown, hcovers⟩ := growRows_spec dp s1.length s2.length
  obtain ⟨left, border, full, hleft, hborder, hfull, hfilled⟩ := fill_in_order
    (fun dp i => Table.write dp i 0 i) (fun dp j => Table.write dp 0 j j) (fillCell s1 s2) (Filled s1 s2) grown
    (fun done next dp h hsub => ⟨h.1, fun i j hi hj hnext => h.2 i j hi hj (hsub i j hi hj hnext)⟩)
    (fun i done next dp hi h hadds =>
      h.write hi (Nat.zero_le _) (prefixDistance_zero_right s1 s2 hi).symm hadds)
    (fun j done next dp hj h hadds =>
      h.write (Nat.zero_le _) hj (prefixDistance_zero_left s1 s2 hj).symm hadds)
    (fun i j done next dp hi hj h habove hleft hdiagonal hadds => fillCell_spec h hi hj habove hleft hdiagonal hadds)
    ⟨hcovers, fun i j _ _ h => h.elim⟩
  have hread := Table.read_eq_ok (hfilled.2 s1.length s2.length (Nat.le_refl _) (Nat.le_refl _) trivial)
  refine ⟨full, ?_⟩
  rw [EditDistanceOn, hgrown, loop.bind_ok, hleft, loop.bind_ok, hborder, loop.bind_ok, hfull, loop.bind_ok, hread,
    prefixDistance_full]
  rfl

theorem EditDistance_eq_lev (s1 s2 : Word) : EditDistance s1 s2 = lev s1 s2 := by
  obtain ⟨after, h⟩ := EditDistanceOn_spec [] s1 s2
  simp [EditDistance, h]

/-- The table earlier calls left never matters: callers may use the value on
    the empty table. -/
theorem EditDistanceOn_eq (dp : Table) (s1 s2 : Word) :
    ∃ after, EditDistanceOn dp s1 s2 = .ok (EditDistance s1 s2, after) := by
  rw [EditDistance_eq_lev]
  exact EditDistanceOn_spec dp s1 s2

theorem EditDistance_comm (s1 s2 : Word) : EditDistance s1 s2 = EditDistance s2 s1 := by
  rw [EditDistance_eq_lev, EditDistance_eq_lev, lev_comm]

end spellcheck.edit_distance
