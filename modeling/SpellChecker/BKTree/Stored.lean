import SpellChecker.BKTree.Insert

open keyed_tree
open spellcheck.edit_distance

namespace spellcheck.bk_tree

/-- The root word is found at the root. -/
theorem BKTree.AddNode_root (tree : BKTree) : tree.AddNode tree.root.label = tree := by
  rw [BKTree.AddNode]
  exact if_pos (Distance_self _)

/-- Below `2^32` bytes a word that is not stored yet is stored once. -/
theorem BKTree.AddNode_new {tree : BKTree} (hlabels : ∀ label ∈ tree.root.labels, label.length < 4294967296)
    {word : Word} (hword : word.length < 4294967296) (hnew : word ∉ tree.root.labels) :
    (tree.AddNode word).root.label = tree.root.label ∧
      (tree.AddNode word).root.labels.Perm (word :: tree.root.labels) := by
  have hdiffer : ∀ label ∈ tree.root.labels, BKTree.Distance label word ≠ 0 := by
    intro label hlabel hzero
    obtain rfl := (Distance_eq_zero_iff_of_length (hlabels label hlabel) hword).mp hzero
    exact hnew hlabel
  obtain ⟨⟨label, children⟩⟩ := tree
  simp only [Tree.labels_eq, List.mem_cons, forall_eq_or_imp] at hdiffer
  rw [BKTree.AddNode, if_neg hdiffer.1]
  refine ⟨rfl, ?_⟩
  simp only [Tree.labels_eq]
  exact ((descend_addsLeaf hdiffer.2).labels_perm.cons label).trans (List.Perm.swap _ _ _)

/-- Inserting different words, none of them stored but possibly the root word,
    stores each of the others once. -/
theorem BKTree.foldl_AddNode_perm {tree : BKTree} (hlabels : ∀ label ∈ tree.root.labels, label.length < 4294967296)
    {words : List Word} (hwords : ∀ w ∈ words, w.length < 4294967296) (hnodup : words.Nodup)
    (hnew : ∀ w ∈ words, w ≠ tree.root.label → w ∉ tree.root.labels) :
    (words.foldl BKTree.AddNode tree).root.labels.Perm
      (words.filter (· ≠ tree.root.label) ++ tree.root.labels) := by
  induction words generalizing tree with
  | nil => simp
  | cons word words ih =>
    obtain ⟨hword, hlater⟩ := List.forall_mem_cons.mp hwords
    obtain ⟨hnotMem, hdistinct⟩ := List.nodup_cons.mp hnodup
    rw [List.foldl_cons]
    by_cases hroot : word = tree.root.label
    · subst hroot
      rw [tree.AddNode_root, List.filter_cons_of_neg (by simp)]
      exact ih hlabels hlater hdistinct fun w hw => hnew w (by simp [hw])
    · obtain ⟨hlabel, hperm⟩ := tree.AddNode_new hlabels hword (hnew word (by simp) hroot)
      have hlabels' : ∀ label ∈ (tree.AddNode word).root.labels, label.length < 4294967296 := by
        intro label hmem
        rw [hperm.mem_iff, List.mem_cons] at hmem
        cases hmem with
        | inl heq => rwa [heq]
        | inr hmem => exact hlabels label hmem
      have hnew' : ∀ w ∈ words, w ≠ (tree.AddNode word).root.label → w ∉ (tree.AddNode word).root.labels := by
        intro w hw hne
        rw [hlabel] at hne
        rw [hperm.mem_iff, List.mem_cons]
        rintro (rfl | hmem)
        · exact hnotMem hw
        · exact hnew w (by simp [hw]) hne hmem
      have hrest := ih hlabels' hlater hdistinct hnew'
      rw [hlabel] at hrest
      rw [List.filter_cons_of_pos (by simpa using hroot), List.cons_append]
      exact (hrest.trans (hperm.append_left _)).trans List.perm_middle

/-- A tree built from different words, one of them at its root, stores exactly
    these words, each once. -/
theorem BKTree.foldl_AddNode_new_perm {root : Word} {words : List Word} (hroot : root ∈ words)
    (hwords : ∀ w ∈ words, w.length < 4294967296) (hnodup : words.Nodup) :
    (words.foldl BKTree.AddNode (.new root)).root.labels.Perm words := by
  have hperm := @BKTree.foldl_AddNode_perm (.new root) (List.forall_mem_singleton.mpr (hwords root hroot)) words
    hwords hnodup fun w _ hne => List.mem_singleton.not.mpr hne
  have hothers : words.filter (· ≠ root) = words.erase root := by
    rw [hnodup.erase_eq_filter]
    exact List.filter_congr fun w _ => by by_cases h : w = root <;> simp [h]
  have hmove : (words.filter (· ≠ root) ++ [root]).Perm (root :: words.erase root) := by
    rw [hothers]
    exact List.perm_append_singleton _ _
  exact (hperm.trans hmove).trans (List.perm_cons_erase hroot).symm

end spellcheck.bk_tree
