import SpellChecker.BKTree.Stored
import SpellChecker.Dictionary.Candidates

open keyed_tree lines
open spellcheck.bk_tree

namespace spellcheck.dictionary

/-- The tree stores exactly the words of `orig`, each once. -/
def Dictionary.StoresWords (d : Dictionary) : Prop :=
  d.bk_tree.root.labels.Nodup ∧ ∀ w, w ∈ d.bk_tree.root.labels ↔ w ∈ d.orig

theorem Dictionary.withTree_storesWords {d : Dictionary} {root : Word} (hroot : root ∈ d.orig)
    (hlength : ∀ w ∈ d.orig, w.length < 4294967296) (order : HashOrder) : (d.withTree order root).StoresWords := by
  have hperm : (d.withTree order root).bk_tree.root.labels.Perm (order.orig d.orig) :=
    BKTree.foldl_AddNode_new_perm ((order.mem_orig _ _).mpr hroot)
      (fun w hw => hlength w ((order.mem_orig _ _).mp hw)) (order.orig_nodup _)
  exact ⟨hperm.nodup_iff.mpr (order.orig_nodup _), fun w => hperm.mem_iff.trans (order.mem_orig _ _)⟩

/-- For every text and any calls made before: the two containers agree after
    `Build` and still do. The next call, whatever tree it finds, throws when the
    text has no non-empty line, and leaves the object as it was; otherwise it
    takes a root that heads a bucket, changes the tree only, and, for lines
    shorter than `2^32` bytes, leaves a tree that stores exactly the words. -/
theorem Dictionary.BuildBKTree_all_or_nothing (text : Word) (calls : List (HashOrder × ℕ)) :
    let built := Dictionary.new text
    let after := built.afterBuilds calls
    built.Valid ∧ after.Valid ∧
      (after.orig = built.orig ∧ after.len_to_words = built.len_to_words ∧ after.size = built.size) ∧
      ∀ (bk_tree : BKTree) (order : HashOrder) (root_len : ℕ),
        let d : Dictionary := { after with bk_tree }
        (segments newline text = [] → d.BuildBKTree order root_len = (.error .dictionaryEmpty, d)) ∧
        (segments newline text ≠ [] → ∃ root ∈ d.orig, d.Root order root_len root ∧
          chooseRoot order root_len d.orig d.len_to_words = (.ok root, d.len_to_words) ∧
          d.BuildBKTree order root_len = (.ok (), d.withTree order root) ∧
          ((∀ l ∈ segments newline text, l.length < 4294967296) → (d.withTree order root).StoresWords)) := by
  intro built after
  have hvalid : built.Valid := Dictionary.new_valid text
  obtain ⟨tree, hframe⟩ := Dictionary.afterBuilds_frame hvalid calls
  refine ⟨hvalid, ?_, ?_, fun bk_tree order root_len => ?_⟩
  · rw [show after = { built with bk_tree := tree } from hframe]
    exact ⟨hvalid.bucket, hvalid.mem_bucket⟩
  · rw [show after = { built with bk_tree := tree } from hframe]
    exact ⟨rfl, rfl, rfl⟩
  · rw [show after = { built with bk_tree := tree } from hframe]
    have hd : ({ built with bk_tree } : Dictionary).Valid := ⟨hvalid.bucket, hvalid.mem_bucket⟩
    have hwords : built.orig = dictionaryWords text := Dictionary.new_orig text
    constructor
    · intro hlines
      refine Dictionary.BuildBKTree_empty hd ?_ order root_len
      rw [← Finset.not_nonempty_iff_eq_empty, hwords, dictionaryWords_nonempty_iff]
      exact not_not.mpr hlines
    · intro hlines
      have hne : built.orig.Nonempty := by
        rw [hwords, dictionaryWords_nonempty_iff]
        exact hlines
      obtain ⟨root, hroot, hchosen⟩ := hd.exists_root hne order root_len
      refine ⟨root, hroot, hchosen, hchosen.chooseRoot_eq, hchosen.BuildBKTree_eq, fun hlength => ?_⟩
      refine Dictionary.withTree_storesWords hroot ?_ order
      rw [show ({ built with bk_tree } : Dictionary).orig = dictionaryWords text from hwords]
      exact length_dictionaryWords hlength

/-- When the distance of `1` to the long word wraps to zero, the tree built
    from the root `1` misses the long word. -/
theorem Dictionary.BuildBKTree_longText {n : ℕ} (hwrap : toInt (n : Int) = 0) (hn : 0 < n) :
    longWord n ∈ (Dictionary.new (longText n)).orig ∧
      ∀ order, ∃ d, (Dictionary.new (longText n)).BuildBKTree order 1 = (.ok (), d) ∧
        longWord n ∉ d.bk_tree.root.labels := by
  refine ⟨?_, fun order => ⟨_, (root_longText hn order).BuildBKTree_eq, ?_⟩⟩
  · rw [Dictionary.new_orig, dictionaryWords_longText]
    exact Finset.mem_insert_of_mem (Finset.mem_singleton_self _)
  · rw [bk_tree_longText hwrap]
    exact List.mem_singleton.not.mpr (longWord_ne hn)

/-- Without a bound on the lines a word can be missing from the tree: here the
    second line has `2^32 + 1` bytes. -/
theorem Dictionary.BuildBKTree_misses_long_word :
    longWord 4294967296 ∈ (Dictionary.new (longText 4294967296)).orig ∧
      ∀ order, ∃ d, (Dictionary.new (longText 4294967296)).BuildBKTree order 1 = (.ok (), d) ∧
        longWord 4294967296 ∉ d.bk_tree.root.labels :=
  Dictionary.BuildBKTree_longText (by decide) (by omega)

end spellcheck.dictionary
