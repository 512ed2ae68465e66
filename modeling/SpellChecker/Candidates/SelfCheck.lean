import SpellChecker.Candidates.Save
import SpellChecker.Dictionary.Build

open lines
open spellcheck.dictionary

namespace spellcheck.candidates

/-- What a list of words makes known: the words, and each word that begins with
    `'a'..'z'` with that letter in upper case. -/
def Known (words : List Word) (w : Word) : Prop :=
  w ∈ words ∨ ∃ first rest, first :: rest ∈ words ∧ 97 ≤ first ∧ first ≤ 122 ∧ w = (first - 32) :: rest

theorem mem_dictionaryWords_iff_known {text w : Word} :
    w ∈ dictionaryWords text ↔ Known (segments newline text) w := by
  rw [mem_dictionaryWords]
  constructor
  · rintro ⟨l, hl, hw⟩
    rcases mem_variants_iff.mp hw with ⟨-, rfl⟩ | ⟨first, rest, rfl, hcapital⟩
    · exact .inl hl
    · exact .inr ⟨first, rest, hl, hcapital⟩
  · rintro (hw | ⟨first, rest, hl, hcapital⟩)
    · exact ⟨w, hw, mem_variants_self (mem_segments hw).1⟩
    · exact ⟨first :: rest, hl, mem_variants_iff.mpr (.inr ⟨first, rest, rfl, hcapital⟩)⟩

theorem Contains_iff_known (text w : Word) :
    (Dictionary.new text).Contains w = true ↔ Known (BuildWordList text).words w := by
  rw [Dictionary.Contains, decide_eq_true_iff, Dictionary.new_orig, mem_dictionaryWords_iff_known,
    BuildWordList_words]

theorem Dictionary_size_eq_card (text : Word) : (Dictionary.new text).size = (dictionaryWords text).card := by
  rw [← Dictionary.new_orig, Dictionary.new_eq]

/-- A dictionary that has every word of the list finds nothing to report. -/
theorem GetMisspelled_eq_nil {wl : WordList} {dict : Dictionary}
    (h : ∀ w ∈ wl.words, dict.Contains w = true) (schedule : Schedule wl.words.length) :
    GetMisspelled wl dict schedule = [] := by
  have hnone : wl.words.filterMap (misspelledLine dict) = [] := by
    rw [List.filterMap_eq_nil_iff]
    intro w hw
    exact if_pos (h w hw)
  exact List.perm_nil.mp (hnone ▸ GetMisspelled_perm wl dict schedule)

/-- For every text: the words of its word list are its non-empty maximal
    newline-free segments, in order; its dictionary contains exactly these and
    their capitals, and `size` counts them; and the text checked against its own
    dictionary has no misspelling, whichever trees were built before. -/
theorem Dictionary_agrees_with_word_list (text : Word) :
    let words := (BuildWordList text).words
    let dict := Dictionary.new text
    (∃ found : List (ℕ × Word), words = found.map Prod.snd ∧
        (found.Pairwise fun a b => a.1 + a.2.length < b.1) ∧
        ∀ offset l, (offset, l) ∈ found ↔ SegmentAt newline text offset l) ∧
      (∀ w, dict.Contains w = true ↔ Known words w) ∧
      (∃ distinct : Finset Word, (∀ w, w ∈ distinct ↔ Known words w) ∧ dict.size = distinct.card) ∧
      ∀ calls (schedule : Schedule words.length),
        GetMisspelled (BuildWordList text) (dict.afterBuilds calls) schedule = [] := by
  intro words dict
  have hwords : words = segments newline text := BuildWordList_words text
  refine ⟨?_, Contains_iff_known text, ⟨dictionaryWords text, fun w => ?_, Dictionary_size_eq_card text⟩,
    fun calls schedule => ?_⟩
  · rw [hwords]
    exact segments_spec newline text
  · rw [hwords]
    exact mem_dictionaryWords_iff_known
  · obtain ⟨bk_tree, hframe⟩ := Dictionary.afterBuilds_frame (Dictionary.new_valid text) calls
    apply GetMisspelled_eq_nil
    intro w hw
    rw [hframe]
    exact (Contains_iff_known text w).mpr (.inl hw)

end spellcheck.candidates
