import Mathlib.Data.List.Permutation
import SpellChecker.Candidates.Save
import SpellChecker.Pipeline.Shards

open blocks checker comparator edit_script lines
open spellcheck.bk_tree spellcheck.candidates spellcheck.dictionary spellcheck.edit_distance

namespace spellcheck.pipeline

/-- The neighbours of `word` stand in increasing byte order in the level order of a tree. -/
def NeighboursInOrder (tree : BKTree) (word : Word) : Prop :=
  tree.root.levelOrder.Pairwise fun u v => OneEdit word u → OneEdit word v → u < v

theorem matches_pairwise_iff (tree : BKTree) (word : Word) :
    (tree.matches word).Pairwise (· < ·) ↔ NeighboursInOrder tree word := by
  rw [BKTree.matches, List.pairwise_filter, NeighboursInOrder]
  simp only [decide_eq_true_eq, EditDistance_eq_one_iff]

section Built

variable {d : Dictionary} (hready : Ready d) {words : List Word}

include hready

theorem Ready.candidates_eq_matches {w : Word} (hw : Short w) : d.Candidates w [] = d.bk_tree.matches w := by
  have h := (hready.built.candidates hready.short hw []).1
  rwa [List.nil_append] at h

end Built

/-- A hash container of two words iterates in one of two orders. -/
theorem orig_pair (order : HashOrder) {a b : Word} (hne : a ≠ b) :
    order.orig {a, b} = [a, b] ∨ order.orig {a, b} = [b, a] := by
  have hperm : (order.orig {a, b}).Perm [a, b] := by
    apply (List.perm_ext_iff_of_nodup (order.orig_nodup _) (by simpa using hne)).mpr
    intro w
    rw [order.mem_orig]
    simp
  exact List.perm_pair.mp hperm

/-- A dictionary of two words whose tree does not depend on the hash order. -/
theorem builds_pair (order : HashOrder) {text a b : Word} {rest : List Word} {tree : BKTree} (hne : a ≠ b)
    (horig : (Dictionary.new text).orig = {a, b})
    (hlookup : (Dictionary.new text).len_to_words.lookup 1 = some (a :: rest))
    (hforward : [a, b].foldl BKTree.AddNode (.new a) = tree)
    (hbackward : [b, a].foldl BKTree.AddNode (.new a) = tree) :
    (Dictionary.new text).builds [(order, 1)] = .ok { Dictionary.new text with bk_tree := tree } := by
  have htree : (order.orig (Dictionary.new text).orig).foldl BKTree.AddNode (.new a) = tree := by
    rw [horig]
    cases orig_pair order hne with
    | inl h => rw [h, hforward]
    | inr h => rw [h, hbackward]
  have hroot : (Dictionary.new text).Root order 1 a := .inl ⟨rest, hlookup⟩
  rw [← htree, hroot.builds_singleton]
  rfl

end spellcheck.pipeline
