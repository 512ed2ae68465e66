import SpellChecker.Candidates.Save
import SpellChecker.Data.Lines

open comparator lines

namespace spellcheck.candidates

/-- A line of the output file, without its newline. -/
def lineText (line : Line) : Word := line.word ++ 58 :: line.candidates.flatMap (32 :: ·)

/-- What a line of the output file says: the word up to the first colon, and
    the candidates between the blanks behind it. -/
def readLine (text : Word) : Line :=
  let word := text.takeWhile (· ≠ 58)
  ⟨word, segments 32 (text.drop (word.length + 1))⟩

/-- What the output file says. -/
def readMisspelled (text : Word) : Misspelled := (segments newline text).map readLine

/-- A line that can be told from all others in the output file: no colon ends
    its word early, and no blank its candidates. -/
structure Readable (line : Line) : Prop where
  colon : 58 ∉ line.word
  blank : ∀ u ∈ line.candidates, u ≠ [] ∧ 32 ∉ u

theorem lineBytes_eq (line : Line) : lineBytes line = lineText line ++ [newline] := by
  rw [lineBytes, lineText, List.foldl_append_eq_append, List.flatMap_def]
  simp

theorem SaveMisspelled_bytes (sorter : Sorter) (misspelled : Misspelled) :
    (SaveMisspelled sorter misspelled).2 = unlines newline ((SaveMisspelled sorter misspelled).1.map lineText) := by
  rw [SaveMisspelled, unlines, List.flatMap_map]
  exact List.flatMap_congr fun line _ => lineBytes_eq line

theorem lineText_ne_nil (line : Line) : lineText line ≠ [] := by simp [lineText]

theorem newline_notMem_lineText {line : Line} (hword : newline ∉ line.word)
    (hcandidates : ∀ u ∈ line.candidates, newline ∉ u) : newline ∉ lineText line := by
  have hcolon : newline ≠ 58 := by decide
  have hblank : newline ≠ 32 := by decide
  simp only [lineText, List.mem_append, List.mem_cons, List.mem_flatMap, not_or, not_exists, not_and]
  exact ⟨hword, hcolon, fun u hu => ⟨hblank, hcandidates u hu⟩⟩

/-- A line is read back exactly if it is readable. -/
theorem readLine_lineText (line : Line) : readLine (lineText line) = line ↔ Readable line := by
  constructor
  · intro h
    constructor
    · rw [← h]
      exact (takeWhile_split 58 (lineText line)).1
    · intro u hu
      rw [← h] at hu
      exact ⟨(mem_segments hu).1, (mem_segments hu).2.1⟩
  · intro h
    have hkeep : line.candidates.filter (· ≠ []) = line.candidates :=
      List.filter_eq_self.mpr fun u hu => decide_eq_true (h.blank u hu).1
    have hsplit := segments_flatMap_cons (fun u hu => (h.blank u hu).2) List.not_mem_nil
    rw [List.nil_append, List.filter_cons_of_neg (by simp), hkeep] at hsplit
    have hdrop : (lineText line).drop (line.word.length + 1) = line.candidates.flatMap (32 :: ·) := by
      rw [lineText, ← List.drop_drop, List.drop_left]
      rfl
    rw [readLine]
    simp only [lineText, takeWhile_line h.colon] at hdrop ⊢
    rw [hdrop, hsplit]

theorem map_readLine_iff {lines : Misspelled} :
    (lines.map fun line => readLine (lineText line)) = lines ↔ ∀ line ∈ lines, Readable line := by
  constructor
  · intro h line hline
    nth_rewrite 2 [← List.map_id lines] at h
    exact (readLine_lineText line).mp (List.map_inj_left.mp h line hline)
  · intro h
    exact (List.map_congr_left fun line hline => (readLine_lineText line).mpr (h line hline)).trans (List.map_id _)

/-- The output file is read line by line. -/
theorem readMisspelled_eq_map (sorter : Sorter) {misspelled : Misspelled}
    (hnewline : ∀ line ∈ misspelled, newline ∉ line.word ∧ ∀ u ∈ line.candidates, newline ∉ u) :
    readMisspelled (SaveMisspelled sorter misspelled).2 =
      (SaveMisspelled sorter misspelled).1.map fun line => readLine (lineText line) := by
  have hperm : (SaveMisspelled sorter misspelled).1.Perm misspelled := sorter.perm lineLess misspelled
  have hlines : ∀ text ∈ (SaveMisspelled sorter misspelled).1.map lineText, newline ∉ text := by
    rw [List.forall_mem_map]
    intro line hline
    obtain ⟨hword, hcandidates⟩ := hnewline line (hperm.mem_iff.mp hline)
    exact newline_notMem_lineText hword hcandidates
  have hkeep : ∀ text ∈ (SaveMisspelled sorter misspelled).1.map lineText, decide (text ≠ []) = true := by
    rw [List.forall_mem_map]
    exact fun line _ => decide_eq_true (lineText_ne_nil line)
  rw [readMisspelled, SaveMisspelled_bytes, segments_unlines hlines, List.filter_eq_self.mpr hkeep, List.map_map]
  rfl

/-- A file of readable lines says what has been written, in some order. -/
theorem readMisspelled_perm (sorter : Sorter) {misspelled : Misspelled}
    (hnewline : ∀ line ∈ misspelled, newline ∉ line.word ∧ ∀ u ∈ line.candidates, newline ∉ u)
    (hreadable : ∀ line ∈ misspelled, Readable line) :
    (readMisspelled (SaveMisspelled sorter misspelled).2).Perm misspelled := by
  have hperm : (SaveMisspelled sorter misspelled).1.Perm misspelled := sorter.perm lineLess misspelled
  rw [readMisspelled_eq_map sorter hnewline, map_readLine_iff.mpr fun line h => hreadable line (hperm.mem_iff.mp h)]
  exact hperm

/-- For words without line breaks, what `SaveMisspelled` writes determines the
    sorted list exactly when each of its lines is readable. -/
theorem readMisspelled_SaveMisspelled (sorter : Sorter) (misspelled : Misspelled)
    (hnewline : ∀ line ∈ misspelled, newline ∉ line.word ∧ ∀ u ∈ line.candidates, newline ∉ u) :
    readMisspelled (SaveMisspelled sorter misspelled).2 = (SaveMisspelled sorter misspelled).1 ↔
      ∀ line ∈ misspelled, Readable line := by
  have hperm : (SaveMisspelled sorter misspelled).1.Perm misspelled := sorter.perm lineLess misspelled
  rw [readMisspelled_eq_map sorter hnewline, map_readLine_iff]
  exact forall_congr' fun line => imp_congr_left hperm.mem_iff

/-- Two lines that the file does not keep in this order. -/
theorem readMisspelled_SaveMisspelled_small :
    readMisspelled (SaveMisspelled default [⟨[98], [[97], [99]]⟩, ⟨[100], []⟩]).2 =
      (SaveMisspelled default [⟨[98], [[97], [99]]⟩, ⟨[100], []⟩]).1 :=
  (readMisspelled_SaveMisspelled default [⟨[98], [[97], [99]]⟩, ⟨[100], []⟩] (by decide)).mpr
    (List.forall_mem_cons.mpr ⟨⟨by decide, by decide⟩, List.forall_mem_singleton.mpr ⟨by decide, by decide⟩⟩)

/-- Lines with a colon in the word or a blank in a candidate look like others. -/
example : lineText ⟨[97, 58, 32, 98], []⟩ = lineText ⟨[97], [[98, 58]]⟩ ∧
    lineText ⟨[97], [[98, 32, 99]]⟩ = lineText ⟨[97], [[98], [99]]⟩ := by decide

end spellcheck.candidates
