import SpellChecker.Cluster.Failure
import SpellChecker.Pipeline.Bounds
import SpellChecker.Pipeline.LastLine
import SpellChecker.Slice.Reconstruct

open checker collective comparator edit_script interleaving lines
open spellcheck.bk_tree spellcheck.candidates spellcheck.dictionary spellcheck.pipeline spellcheck.slice

namespace spellcheck.cluster

theorem dictionaryWords_of_closed {file : Word} (hclosed : Closed newline file) :
    dictionaryWords file = completeWords file := by
  ext w
  have h := @mem_dictionaryWords_append file [] w
  rw [List.append_nil, List.append_nil, remainder_of_closed hclosed, segments_nil] at h
  simpa using h

section ShortLines

variable {file : Word} {width size : ℕ} (hclosed : Closed newline file)
  (hlines : ∀ entry ∈ spans newline 0 file, entry.2 ≠ [] ∧ entry.2.length ≤ width) (hwidth : width ≤ 127)
  (hcut : width < file.length / size)
  (hread : ∀ rank < size, max_len (compute_slice file.length rank size) file.length < 2147483648)

include hclosed hlines hwidth hcut hread

/-- A line that starts in a slice reaches the rank. -/
theorem reaches_of_starts {rank : ℕ} (hrank : rank < size) {entry : ℕ × Word} (hentry : entry ∈ spans newline 0 file)
    (hstarts : starts_in (slice_off file.length size rank) (slice_len file.length size rank) entry = true) :
    Reaches file size rank entry := by
  refine ⟨hstarts, ?_⟩
  simp only [starts_in, decide_eq_true_eq] at hstarts
  exact carried_of_short_lines hclosed (fun entry hentry => (hlines entry hentry).2) hwidth hcut hrank
    (hread rank hrank) hentry hstarts.2

theorem hasLine_of_short_lines {rank : ℕ} (hrank : rank < size) : HasLine file size rank := by
  have hfit := slice_fits (n := file.length) hrank
  have hbase : file.length / size ≤ slice_len file.length size rank := Nat.le_add_right _ _
  obtain ⟨entry, hentry, hle, hge⟩ := exists_span_between hclosed (fun entry hentry => (hlines entry hentry).2)
    (by omega : slice_off file.length size rank + width < file.length)
  refine ⟨entry, hentry, (hlines entry hentry).1, reaches_of_starts hclosed hlines hwidth hcut hread hrank hentry ?_⟩
  simp only [starts_in, decide_eq_true_eq]
  omega

theorem carriedWords_of_short_lines : carriedWords file size = dictionaryWords file := by
  have hsize : 0 < size := Nat.pos_of_ne_zero fun h => by simp [h] at hcut
  rw [dictionaryWords_of_closed hclosed]
  ext w
  rw [mem_carriedWords, mem_completeWords]
  constructor
  · rintro ⟨entry, hentry, -, hvariant⟩
    exact ⟨entry, hentry, hvariant⟩
  · rintro ⟨entry, hentry, hvariant⟩
    have hplace := hentry
    rw [← flatMap_starts_in file hsize] at hplace
    obtain ⟨rank, hrank, hstarts⟩ := List.mem_flatMap.mp hplace
    have hlt := List.mem_range.mp hrank
    exact ⟨entry, hentry, ⟨rank, hlt, reaches_of_starts hclosed hlines hwidth hcut hread hlt hentry
      (List.mem_filter.mp hstarts).2⟩, hvariant⟩

end ShortLines

/-- A maximal run of the ranks either finishes on all of them, with the answer
    on rank 0, or on none; which of the two it is depends on the file alone. -/
theorem ranks_finish_or_block (sorter : Sorter) (orders : ℕ → HashOrder) (file text : Word) (malloc : ℕ → Bool)
    (hnul : NulFree file) (htext : text ≠ []) (hmalloc : malloc text.length = true)
    (hlength : text.length < 2147483648) (size : ℕ) (hindex : (segments newline text).length * size < 2147483648)
    (hroom : (segments newline text).length * (2 * file.length) < 2147483648) (waiting : Waiting (@reads size)) (m : ℕ)
    (s : Fin size → Member Payload Outcome)
    (hsteps : Steps (GroupStep waiting) m (start (ranks sorter orders ⟨file, some text, malloc⟩ size)) s)
    (hstuck : Stuck (GroupStep waiting) s) :
    if ∀ rank < size, HasLine file size rank then
      ∀ rank, (s rank).process =
        .stop (saved sorter (answer (carriedWords file size) (segments newline text)) rank)
    else ∀ (rank : Fin size) (written : Option Word), (s rank).process ≠ .stop (.finished written) := by
  split
  · rename_i hreach
    intro rank
    have hrun := run_eq_answer_of_mul_lt hnul hlength rank.pos hindex
      (fits_of_length sorter orders hnul hreach hlength hroom)
    have hadvance : Advances waiting 13 _ _ := advances_run sorter orders file htext hmalloc hlength hrun
    exact (hadvance.settles hsteps).2.1 hstuck rank
  · rename_i hempty
    have hmissing : ∃ rank < size, ¬ HasLine file size rank := by simpa using hempty
    intro rank written hwritten
    have hadvance : Advances waiting 7 _ (checking sorter orders file text) :=
      advances_load sorter orders file htext hmalloc hlength (.refl _)
    obtain ⟨-, -, hstopped⟩ := hadvance.blocks (blocked_checking sorter orders file text hmissing) hsteps
    obtain ⟨hended, hprocess⟩ := hstopped rank _ hwritten
    rw [checking_without_line sorter orders file text (by simpa using hended)] at hprocess
    cases hprocess

/-- Two lines that both start on the first of two ranks: a run that can go no
    further has not finished. -/
theorem ranks_finish_or_block_small : ∃ s m,
    Steps (GroupStep (.least (@reads 2))) m
      (start (ranks default default ⟨[97, 10, 98, 98, 98, 98, 10], some [97, 10], fun _ => true⟩ 2)) s ∧
    Stuck (GroupStep (.least (@reads 2))) s ∧
    ∀ (rank : Fin 2) (written : Option Word), (s rank).process ≠ .stop (.finished written) := by
  have hnone : ¬ ∀ rank < 2, HasLine [97, 10, 98, 98, 98, 98, 10] 2 rank := by decide +kernel
  have hadvance : Advances (.least (@reads 2)) 7
      (ranks default default ⟨[97, 10, 98, 98, 98, 98, 10], some [97, 10], fun _ => true⟩ 2)
      (checking default default [97, 10, 98, 98, 98, 98, 10] [97, 10]) :=
    advances_load default default _ (by simp) rfl (by decide) (.refl _)
  obtain ⟨⟨s, m, -, hsteps, hstuck⟩, -⟩ :=
    hadvance.blocks (blocked_checking default default _ _ (by simpa using hnone)) (.refl _)
  have hends := ranks_finish_or_block default default [97, 10, 98, 98, 98, 98, 10] [97, 10] (fun _ => true)
    (by simp [NulFree]) (by simp) rfl (by decide) 2 (by decide) (by decide) (.least reads) m s hsteps hstuck
  rw [if_neg hnone] at hends
  exact ⟨s, m, hsteps, hstuck, hends⟩

/-- Inputs the program is good for on `size` ranks: the dictionary file ends in
    a newline, has no empty line and none longer than `width ≤ 127` bytes, is long
    enough for the number of ranks, and the window of every rank is small enough
    for an `int`; the word list is not empty, and both are small enough for the
    `int` counters of the exchange. -/
structure Handled (file text : Word) (malloc : ℕ → Bool) (width size : ℕ) : Prop where
  nulFree : NulFree file
  ended : file.getLast? = some newline
  lines : ∀ entry ∈ spans newline 0 file, entry.2 ≠ [] ∧ entry.2.length ≤ width
  width_le : width ≤ 127
  cut : width < file.length / size
  window : ∀ rank < size, max_len (compute_slice file.length rank size) file.length < 2147483648
  text_ne_nil : text ≠ []
  malloc : malloc text.length = true
  text_length : text.length < 2147483648
  room : (segments newline text).length * (2 * file.length) < 2147483648

instance (file text : Word) (malloc : ℕ → Bool) (width size : ℕ) : Decidable (Handled file text malloc width size) :=
  decidable_of_iff ((0 : Byte) ∉ file ∧ file.getLast? = some newline ∧
      (∀ entry ∈ spans newline 0 file, entry.2 ≠ [] ∧ entry.2.length ≤ width) ∧ width ≤ 127 ∧
      width < file.length / size ∧
      (∀ rank < size, max_len (compute_slice file.length rank size) file.length < 2147483648) ∧
      text ≠ [] ∧ malloc text.length = true ∧ text.length < 2147483648 ∧
      (segments newline text).length * (2 * file.length) < 2147483648)
    ⟨fun ⟨hnul, hend, hlines, hwidth, hcut, hread, hne, hmalloc, hlength, hroom⟩ =>
        ⟨fun _ hc hzero => hnul (hzero ▸ hc), hend, hlines, hwidth, hcut, hread, hne, hmalloc, hlength, hroom⟩,
      fun h => ⟨fun hzero => h.nulFree 0 hzero rfl, h.ended, h.lines, h.width_le, h.cut, h.window, h.text_ne_nil,
        h.malloc, h.text_length, h.room⟩⟩

section Handled

variable {file text : Word} {malloc : ℕ → Bool} {width size : ℕ} (h : Handled file text malloc width size)

include h

/-- On inputs the program is good for, rank 0 obtains the answer over the whole
    dictionary. -/
theorem Handled.run_eq (sorter : Sorter) (orders : ℕ → HashOrder) :
    run sorter orders file text size = .ok (answer (dictionaryWords file) (segments newline text)) := by
  have hclosed : Closed newline file := .inr h.ended
  obtain ⟨hsize, hle⟩ := Nat.div_pos_iff.mp (Nat.zero_lt_of_lt h.cut)
  have hindex : (segments newline text).length * size < 2147483648 :=
    (Nat.mul_le_mul_left _ (by omega)).trans_lt h.room
  have hfits : Fits sorter orders file text size :=
    fits_of_length sorter orders h.nulFree
      (fun rank hrank => hasLine_of_short_lines hclosed h.lines h.width_le h.cut h.window hrank) h.text_length h.room
  have hrun := run_eq_answer_of_mul_lt h.nulFree h.text_length hsize hindex hfits
  rwa [carriedWords_of_short_lines hclosed h.lines h.width_le h.cut h.window] at hrun

/-- On inputs the program is good for, all ranks come to their ends together. -/
theorem Handled.advances (sorter : Sorter) (orders : ℕ → HashOrder) (waiting : Waiting (@reads size)) :
    Advances waiting 13 (ranks sorter orders ⟨file, some text, malloc⟩ size) fun rank =>
      .stop (saved sorter (answer (dictionaryWords file) (segments newline text)) rank) :=
  advances_run sorter orders file h.text_ne_nil h.malloc h.text_length (h.run_eq sorter orders)

end Handled

/-- The program does what it is for: in whichever order the ranks take their
    steps, the run ends after 26 steps for each of them, and rank 0 has written,
    for every word of the word list that is not in the dictionary, its one-edit
    neighbours there. -/
theorem ranks_write_dictionary_answer (sorter : Sorter) (orders : ℕ → HashOrder) (file text : Word)
    (malloc : ℕ → Bool) (width size : ℕ) (h : Handled file text malloc width size) (waiting : Waiting (@reads size))
    (m : ℕ) (s : Fin size → Member Payload Outcome)
    (hsteps : Steps (GroupStep waiting) m (start (ranks sorter orders ⟨file, some text, malloc⟩ size)) s) :
    (∃ t rest, 26 * size = m + rest ∧ Steps (GroupStep waiting) rest s t ∧
        ∀ rank, (t rank).process =
          .stop (saved sorter (answer (dictionaryWords file) (segments newline text)) rank)) ∧
      (Stuck (GroupStep waiting) s → ∀ rank, (s rank).process =
        .stop (saved sorter (answer (dictionaryWords file) (segments newline text)) rank)) := by
  obtain ⟨⟨t, rest, hcount, hrest, hfinish⟩, hstuck, -⟩ := (h.advances sorter orders waiting).settles hsteps
  exact ⟨⟨t, rest, by omega, hrest, hfinish⟩, hstuck⟩

/-- The lines `1` to `4`, on two ranks. -/
theorem handled_digits : Handled [49, 10, 50, 10, 51, 10, 52, 10] [53, 10] (fun _ => true) 1 2 := by decide +kernel

theorem answer_digits : answer (dictionaryWords [49, 10, 50, 10, 51, 10, 52, 10]) (segments newline [53, 10]) =
    [⟨[53], [[49], [50], [51], [52]]⟩] := by
  have hknown : dictionaryWords [49, 10, 50, 10, 51, 10, 52, 10] = {[49], [50], [51], [52]} := by decide +kernel
  have hwords : segments newline [53, 10] = [[53]] := by decide
  rw [hknown, hwords]
  exact answer_four_digits

/-- The word `5` against the lines `1` to `4`, on two ranks. -/
theorem ranks_write_dictionary_answer_small : ∃ s,
    Steps (GroupStep (.least (@reads 2))) 52
      (start (ranks default default ⟨[49, 10, 50, 10, 51, 10, 52, 10], some [53, 10], fun _ => true⟩ 2)) s ∧
    (s 0).process = .stop (.finished (some [53, 58, 32, 49, 32, 50, 32, 51, 32, 52, 10])) ∧
    (s 1).process = .stop (.finished none) := by
  obtain ⟨⟨s, rest, hcount, hsteps, hend⟩, -⟩ := ranks_write_dictionary_answer default default
    [49, 10, 50, 10, 51, 10, 52, 10] [53, 10] (fun _ => true) 1 2 handled_digits (.least reads) 0 _ (.refl _)
  obtain rfl : rest = 52 := by omega
  rw [answer_digits] at hend
  refine ⟨s, hsteps, ?_, ?_⟩
  · rw [hend]
    simp [saved, SaveMisspelled_singleton, lineBytes]
  · rw [hend]
    rfl

end spellcheck.cluster
