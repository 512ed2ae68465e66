import Mathlib.Data.Prod.Lex
import SpellChecker.Candidates.Basic
import SpellChecker.Data.Blocks
import SpellChecker.Dictionary.Candidates

open blocks comparator
open spellcheck.dictionary

namespace spellcheck.candidates

/-- `SaveMisspelled` orders lines by the number of candidates, then by the word. -/
theorem lineLess_keyedBy : KeyedBy (fun line : Line => toLex (line.candidates.length, c_str line.word)) lineLess := by
  constructor
  intro a b
  unfold lineLess
  rw [Prod.Lex.toLex_lt_toLex]
  split
  · rename_i hsame
    simp [hsame, strcmpLess]
  · rename_i hdiffer
    simp [hdiffer]

theorem misspelledLine_eq_some {dict : Dictionary} {word : Word} {line : Line} :
    misspelledLine dict word = some line ↔ dict.Contains word = false ∧ line = ⟨word, dict.Candidates word []⟩ := by
  unfold misspelledLine
  cases dict.Contains word with
  | true => simp
  | false => simp [eq_comm]

theorem mem_filterMap_misspelledLine {dict : Dictionary} {words : List Word} {line : Line} :
    line ∈ words.filterMap (misspelledLine dict) ↔
      ∃ word ∈ words, dict.Contains word = false ∧ line = ⟨word, dict.Candidates word []⟩ := by
  simp only [List.mem_filterMap, misspelledLine_eq_some]

/-- Every schedule finds the same lines; only their order depends on it. -/
theorem GetMisspelled_perm (wl : WordList) (dict : Dictionary) (schedule : Schedule wl.words.length) :
    (GetMisspelled wl dict schedule).Perm (wl.words.filterMap (misspelledLine dict)) := by
  have hflat : GetMisspelled wl dict schedule =
      schedule.threads.flatten.filterMap fun i => wl.words[i]?.bind (misspelledLine dict) := by
    unfold GetMisspelled
    rw [List.filterMap_flatten, List.flatMap_def]
  rw [hflat, ← filterMap_range_getElem? wl.words]
  exact schedule.perm.filterMap _

theorem SaveMisspelled_singleton (sorter : Sorter) (line : Line) :
    SaveMisspelled sorter [line] = ([line], lineBytes line) := by
  rw [SaveMisspelled, List.perm_singleton.mp (sorter.perm lineLess [line])]
  simp

/-- Two lists with the same lines, in which a word never stands with two
    different lists of candidates, are written alike. -/
theorem SaveMisspelled_eq_of_perm (sorter sorter' : Sorter) {first second : Misspelled} (hperm : first.Perm second)
    (hties : ∀ a ∈ first, ∀ b ∈ first, c_str a.word = c_str b.word → a = b) :
    SaveMisspelled sorter first = SaveMisspelled sorter' second := by
  have hsorted : sorter.run lineLess first = sorter'.run lineLess second := by
    apply sorter.run_eq_of_perm sorter' lineLess_keyedBy hperm
    intro a ha b hb hkey
    exact hties a ha b hb (congrArg Prod.snd (toLex.injective hkey))
  rw [SaveMisspelled, SaveMisspelled, hsorted]

end spellcheck.candidates
