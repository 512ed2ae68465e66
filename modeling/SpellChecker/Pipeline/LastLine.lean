import SpellChecker.Pipeline.Ranks

open lines
open spellcheck.dictionary spellcheck.slice

namespace spellcheck.pipeline

theorem capital_lt {c : Byte} (hlo : 97 ≤ c) (hhi : c ≤ 122) : c - 32 < 97 := by
  have hhi' : c.toNat ≤ 122 := UInt8.le_iff_toNat_le.mp hhi
  have hsub := toNat_capital hlo
  rw [UInt8.lt_iff_toNat_lt, hsub]
  change c.toNat - 32 < 97
  omega

/-- What a word of a line contributes is contributed by the line. -/
theorem variants_trans {l u w : Word} (hu : u ∈ variants l) (hw : w ∈ variants u) : w ∈ variants l := by
  rcases mem_variants_iff.mp hu with ⟨-, rfl⟩ | ⟨first, rest, rfl, hlo, hhi, rfl⟩
  · exact hw
  · rcases mem_variants_iff.mp hw with ⟨-, rfl⟩ | ⟨capital, tail, heq, hagain, -, -⟩
    · exact hu
    · -- A capital is no lower-case letter.
      obtain ⟨rfl, rfl⟩ := List.cons.inj heq
      exact absurd hagain (not_le.mpr (capital_lt hlo hhi))

variable {file : Word}

/-- The reader with one rank gets the whole file as its slice. -/
theorem read_whole_file (file : Word) :
    read_slice_aligned file ⟨0, file.length⟩ file.length = .ok (rank_text file 1 0) := by
  rw [rank_text, slice_off_zero, slice_len_one]
  exact @read_slice_aligned_eq file 0 file.length (Nat.le_of_eq (Nat.zero_add _))

theorem dictionaryWords_rank_text_one : dictionaryWords (rank_text file 1 0) = completeWords (readWhole file) := by
  rw [← carriedWords_one]
  ext w
  rw [mem_dictionaryWords, mem_carriedWords]
  constructor
  · rintro ⟨l, hl, hw⟩
    obtain ⟨-, entry, hentry, hreaches, rfl⟩ := (mem_segments_rank_text (by decide)).mp hl
    exact ⟨entry, hentry, ⟨0, by decide, hreaches⟩, hw⟩
  · rintro ⟨entry, hentry, ⟨rank, hrank, hreaches⟩, hw⟩
    obtain rfl : rank = 0 := by omega
    have hne : entry.2 ≠ [] := by
      intro hnil
      simp [hnil, variants] at hw
    exact ⟨entry.2, (mem_segments_rank_text (by decide)).mpr ⟨hne, entry, hentry, hreaches, rfl⟩, hw⟩

/-- The words of a text that is read up to some point are those of the complete
    lines read and those of what follows the last newline read. -/
theorem mem_dictionaryWords_append {read rest w : Word} :
    w ∈ dictionaryWords (read ++ rest) ↔
      w ∈ completeWords read ∨ ∃ l ∈ segments newline (remainder newline read ++ rest), w ∈ variants l := by
  rw [mem_dictionaryWords, mem_completeWords, segments_append]
  constructor
  · rintro ⟨l, hl, hw⟩
    cases List.mem_append.mp hl with
    | inl hl =>
      obtain ⟨entry, hentry, rfl⟩ := List.mem_map.mp (List.mem_of_mem_filter hl)
      exact .inl ⟨entry, hentry, hw⟩
    | inr hl => exact .inr ⟨l, hl, hw⟩
  · rintro (⟨entry, hentry, hw⟩ | ⟨l, hl, hw⟩)
    · have hne : entry.2 ≠ [] := by
        intro hnil
        simp [hnil, variants] at hw
      refine ⟨entry.2, List.mem_append_left _ ?_, hw⟩
      exact List.mem_filter.mpr ⟨List.mem_map_of_mem hentry, decide_eq_true hne⟩
    · exact ⟨l, List.mem_append_right _ hl, hw⟩

theorem mem_dictionaryWords_file {w : Word} : w ∈ dictionaryWords file ↔
    w ∈ completeWords (readWhole file) ∨ ∃ l ∈ segments newline
      (remainder newline (readWhole file) ++ file.drop (toInt file.length).toNat), w ∈ variants l := by
  have hsplit : readWhole file ++ file.drop (toInt file.length).toNat = file := List.take_append_drop _ _
  have h := @mem_dictionaryWords_append (readWhole file) (file.drop (toInt file.length).toNat) w
  rwa [hsplit] at h

/-- The dictionary read by one rank has exactly the words of the file if and
    only if what is left of the file behind the last newline read has no word that
    is not one of a line read: what `MPI_File_read_at` reads are as many bytes as
    the file has, converted to `int`. -/
theorem read_slice_aligned_keeps_words_iff (file : Word) :
    (∃ text, read_slice_aligned file ⟨0, file.length⟩ file.length = .ok text ∧
      ∀ w, (Dictionary.new text).Contains w = (Dictionary.new file).Contains w) ↔
    let count := (toInt file.length).toNat
    ∀ l ∈ segments newline (remainder newline (file.take count) ++ file.drop count),
      l ∈ completeWords (file.take count) := by
  have hcontains (w : Word) : (Dictionary.new (rank_text file 1 0)).Contains w = (Dictionary.new file).Contains w ↔
      ((∃ l ∈ segments newline (remainder newline (readWhole file) ++ file.drop (toInt file.length).toNat),
        w ∈ variants l) → w ∈ completeWords (readWhole file)) := by
    rw [Dictionary.Contains, Dictionary.Contains, decide_eq_decide, Dictionary.new_orig, Dictionary.new_orig,
      dictionaryWords_rank_text_one, mem_dictionaryWords_file, iff_self_or]
  constructor
  · rintro ⟨text, hread, hsame⟩ count l hl
    obtain rfl := Except.ok.inj ((read_whole_file file).symm.trans hread)
    exact (hcontains l).mp (hsame l) ⟨l, hl, mem_variants_self (mem_segments hl).1⟩
  · intro h
    refine ⟨rank_text file 1 0, read_whole_file file, fun w => (hcontains w).mpr ?_⟩
    rintro ⟨l, hl, hw⟩
    obtain ⟨entry, hentry, hvariant⟩ := mem_completeWords.mp (h l hl)
    exact mem_completeWords.mpr ⟨entry, hentry, variants_trans hvariant hw⟩

/-- A file with one line and no newline: the reader drops the line, which
    `Build` takes from the same bytes. -/
theorem read_slice_aligned_loses_last_line :
    read_slice_aligned [97] ⟨0, 1⟩ 1 = .ok [] ∧ (Dictionary.new []).Contains [97] = false ∧
      (Dictionary.new [97]).Contains [97] = true := by
  refine ⟨by decide, ?_, ?_⟩
  · rw [Dictionary.Contains, Dictionary.new_orig]
    decide
  · rw [Dictionary.Contains, Dictionary.new_orig]
    decide

end spellcheck.pipeline
