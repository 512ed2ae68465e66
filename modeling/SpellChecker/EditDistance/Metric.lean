import SpellChecker.EditDistance.Correct

open edit_script

namespace spellcheck.edit_distance

/-- From any table, a call returns normally, and its value is the least number
    of operations of a script that turns `s1` into `s2`. -/
theorem EditDistance_isLeast (s1 s2 : Word) :
    (∀ dp, ∃ after, EditDistanceOn dp s1 s2 = .ok (EditDistance s1 s2, after)) ∧
      IsLeast {n | ∃ script, runScript script s1 = some s2 ∧ script.length = n} (EditDistance s1 s2) := by
  refine ⟨fun dp => EditDistanceOn_eq dp s1 s2, ?_⟩
  rw [EditDistance_eq_lev]
  exact isLeast_lev s1 s2

/-- From any table, a call returns normally, and its values are a metric on
    byte strings. -/
theorem EditDistance_metric (a b c : Word) :
    (∀ dp, ∃ after, EditDistanceOn dp a b = .ok (EditDistance a b, after)) ∧
      (EditDistance a b = 0 ↔ a = b) ∧
      EditDistance a b = EditDistance b a ∧
      EditDistance a c ≤ EditDistance a b + EditDistance b c := by
  refine ⟨fun dp => EditDistanceOn_eq dp a b, ?_, EditDistance_comm a b, ?_⟩
  · rw [EditDistance_eq_lev]
    exact lev_eq_zero_iff a b
  · simp only [EditDistance_eq_lev]
    exact lev_triangle a b c

end spellcheck.edit_distance
