import SpellChecker.Candidates.Format
import SpellChecker.Cluster.EndToEnd

open checker collective comparator edit_script interleaving lines
open spellcheck.candidates spellcheck.dictionary spellcheck.pipeline

namespace spellcheck.cluster

variable {sorter sorter' : Sorter} {orders orders' : ℕ → HashOrder} {file file' text text' : Word}
  {malloc malloc' : ℕ → Bool} {width width' size size' : ℕ}

/-- A run of `main` on all ranks that can go no further leads to the state `s`. -/
def Complete (sorter : Sorter) (orders : ℕ → HashOrder) (file text : Word) (malloc : ℕ → Bool)
    (s : Fin size → Member Payload Outcome) : Prop :=
  ∃ (waiting : Waiting (@reads size)) (m : ℕ),
    Steps (GroupStep waiting) m (start (ranks sorter orders ⟨file, some text, malloc⟩ size)) s ∧
      Stuck (GroupStep waiting) s

/-- All ranks have come to their ends, and rank 0 has written these bytes. -/
def Writes (s : Fin size → Member Payload Outcome) (written : Word) : Prop :=
  ∀ rank, (s rank).process = .stop (.finished (if rank.val = 0 then some written else none))

theorem Handled.writes (h : Handled file text malloc width size) {s : Fin size → Member Payload Outcome}
    (hrun : Complete sorter orders file text malloc s) :
    Writes s (SaveMisspelled sorter (answer (dictionaryWords file) (segments newline text))).2 := by
  obtain ⟨waiting, m, hsteps, hstuck⟩ := hrun
  exact ((h.advances sorter orders waiting).settles hsteps).2.1 hstuck

/-- Inputs the program is good for have a complete run. -/
theorem Handled.complete (h : Handled file text malloc width size) (sorter : Sorter) (orders : ℕ → HashOrder) :
    ∃ s : Fin size → Member Payload Outcome, Complete sorter orders file text malloc s := by
  have hadvance := h.advances sorter orders (.least reads)
  obtain ⟨⟨s, m, -, hsteps, hend⟩, -⟩ := hadvance.settles (.refl _)
  exact ⟨s, .least reads, m, hsteps, stuck_iff.mpr fun rank => move_stop (hend rank)⟩

theorem mem_answer {known : Finset Word} {words : List Word} {line : Line} :
    line ∈ answer known words ↔
      line.word ∈ words ∧ line.word ∉ known ∧ line.candidates = neighbours OneEdit known line.word := by
  rw [answer_eq_filterMap, List.mem_filterMap]
  constructor
  · rintro ⟨w, hw, hline⟩
    split at hline
    · cases hline
    · rename_i hunknown
      obtain rfl := Option.some.inj hline
      exact ⟨hw, hunknown, rfl⟩
  · rintro ⟨hw, hunknown, hcandidates⟩
    refine ⟨line.word, hw, ?_⟩
    rw [if_neg hunknown, ← hcandidates]

/-- Lines for words without NUL that tie in the output file are the same line. -/
theorem eq_of_mem_answer (hnul : NulFree text) {known : Finset Word} {a b : Line}
    (ha : a ∈ answer known (segments newline text)) (hb : b ∈ answer known (segments newline text))
    (hsame : c_str a.word = c_str b.word) : a = b := by
  obtain ⟨hword, -, hcandidates⟩ := mem_answer.mp ha
  obtain ⟨hword', -, hcandidates'⟩ := mem_answer.mp hb
  have hwhole {w : Word} (hw : w ∈ segments newline text) : c_str w = w :=
    NulFree.c_str_eq fun c hc => hnul c ((mem_segments hw).2.2 c hc)
  rw [hwhole hword, hwhole hword'] at hsame
  rw [hsame, ← hcandidates'] at hcandidates
  exact congrArg₂ Line.mk hsame hcandidates

/-- A character below the letters is in a word of the dictionary only if it is
    in a line. -/
theorem notMem_dictionaryWords {c : Byte} (hc : c < 65) (hlines : ∀ l ∈ segments newline file, c ∉ l) :
    ∀ u ∈ dictionaryWords file, c ∉ u := by
  apply forall_dictionaryWords hlines
  intro first rest hlo hline hmem
  cases List.mem_cons.mp hmem with
  | inl h =>
    have hlow := UInt8.le_iff_toNat_le.mp hlo
    have hvalue := toNat_capital hlo
    rw [← h] at hvalue
    rw [UInt8.lt_iff_toNat_lt] at hc
    simp only [UInt8.reduceToNat] at hc hlow
    omega
  | inr h => exact hline (List.mem_cons_of_mem first h)

theorem readable_answer (hblank : ∀ l ∈ segments newline file, 32 ∉ l)
    (hcolon : ∀ w ∈ segments newline text, 58 ∉ w) {line : Line}
    (hline : line ∈ answer (dictionaryWords file) (segments newline text)) : Readable line := by
  obtain ⟨hword, -, hcandidates⟩ := mem_answer.mp hline
  refine ⟨hcolon _ hword, fun u hu => ?_⟩
  rw [hcandidates, mem_neighbours] at hu
  refine ⟨?_, notMem_dictionaryWords (by decide) hblank u hu.1⟩
  exact forall_dictionaryWords (fun l hl => (mem_segments hl).1) (fun first rest _ _ => List.cons_ne_nil _ _) u hu.1

theorem newline_notMem_answer {line : Line} (hline : line ∈ answer (dictionaryWords file) (segments newline text)) :
    newline ∉ line.word ∧ ∀ u ∈ line.candidates, newline ∉ u := by
  obtain ⟨hword, -, hcandidates⟩ := mem_answer.mp hline
  refine ⟨(mem_segments hword).2.1, fun u hu => ?_⟩
  rw [hcandidates, mem_neighbours] at hu
  exact notMem_dictionaryWords (by decide) (fun l hl => (mem_segments hl).2.1) u hu.1

/-- The output file says the answer, if no dictionary word has a blank and no
    word of the list a colon. -/
theorem readMisspelled_answer (sorter : Sorter) (hblank : ∀ l ∈ segments newline file, 32 ∉ l)
    (hcolon : ∀ w ∈ segments newline text, 58 ∉ w) :
    (readMisspelled (SaveMisspelled sorter (answer (dictionaryWords file) (segments newline text))).2).Perm
      (answer (dictionaryWords file) (segments newline text)) :=
  readMisspelled_perm sorter (fun _ hline => newline_notMem_answer hline)
    fun _ hline => readable_answer hblank hcolon hline

/-- What a complete run on any number of ranks leaves in the output file says,
    line by line, which words are misspelled and what their one-edit neighbours in
    the dictionary are, if no line of the dictionary has a blank and no word of
    the list a colon. -/
theorem ranks_write_readable_file (h : Handled file text malloc width size)
    (hblank : ∀ l ∈ segments newline file, 32 ∉ l) (hcolon : ∀ w ∈ segments newline text, 58 ∉ w)
    (s : Fin size → Member Payload Outcome) (hrun : Complete sorter orders file text malloc s) :
    ∃ written, Writes s written ∧
      (readMisspelled written).Perm (answer (dictionaryWords file) (segments newline text)) :=
  ⟨_, h.writes hrun, readMisspelled_answer sorter hblank hcolon⟩

/-- A run on two ranks. -/
theorem ranks_write_readable_file_small : ∃ (s : Fin 2 → Member Payload Outcome) (written : Word), Writes s written ∧
    (readMisspelled written).Perm
      (answer (dictionaryWords [49, 10, 50, 10, 51, 10, 52, 10]) (segments newline [53, 10])) := by
  obtain ⟨s, hrun⟩ := handled_digits.complete default default
  exact ⟨s, ranks_write_readable_file handled_digits (by decide) (by decide) s hrun⟩

theorem dictionaryWords_mono (h : ∀ l ∈ segments newline file, l ∈ segments newline file') :
    dictionaryWords file ⊆ dictionaryWords file' := by
  intro w hw
  obtain ⟨l, hl, hvariant⟩ := mem_dictionaryWords.mp hw
  exact mem_dictionaryWords.mpr ⟨l, h l hl, hvariant⟩

/-- Two complete runs write the same bytes when their dictionary files have the
    same lines, with any repetitions, and their word lists the same words, both in
    any order, whatever the numbers of ranks, the orders of the hash containers
    and the sorting routines. -/
theorem ranks_write_same_bytes (h : Handled file text malloc width size)
    (h' : Handled file' text' malloc' width' size') (hnul : NulFree text)
    (hlines : ∀ l, l ∈ segments newline file ↔ l ∈ segments newline file')
    (hwords : (segments newline text).Perm (segments newline text'))
    (s : Fin size → Member Payload Outcome) (hrun : Complete sorter orders file text malloc s)
    (s' : Fin size' → Member Payload Outcome) (hrun' : Complete sorter' orders' file' text' malloc' s') :
    ∃ written, Writes s written ∧ Writes s' written := by
  have hknown : dictionaryWords file = dictionaryWords file' :=
    Finset.Subset.antisymm (dictionaryWords_mono fun l => (hlines l).mp) (dictionaryWords_mono fun l => (hlines l).mpr)
  have hperm : (answer (dictionaryWords file) (segments newline text)).Perm
      (answer (dictionaryWords file') (segments newline text')) := by
    rw [hknown, answer_eq_filterMap, answer_eq_filterMap]
    exact hwords.filterMap _
  refine ⟨_, h.writes hrun, ?_⟩
  rw [SaveMisspelled_eq_of_perm sorter sorter' hperm fun a ha b hb => eq_of_mem_answer hnul ha hb]
  exact h'.writes hrun'

/-- Two dictionary files with the same lines in different orders, one of them on one
    rank. -/
theorem ranks_write_same_bytes_small : ∃ (s : Fin 2 → Member Payload Outcome) (s' : Fin 1 → Member Payload Outcome)
    (written : Word), Writes s written ∧ Writes s' written := by
  have hreversed : Handled [52, 10, 51, 10, 50, 10, 49, 10] [10, 53] (fun _ => true) 1 1 := by decide +kernel
  obtain ⟨s, hrun⟩ := handled_digits.complete default default
  obtain ⟨s', hrun'⟩ := hreversed.complete default default
  have hlines : segments newline [52, 10, 51, 10, 50, 10, 49, 10] =
      (segments newline [49, 10, 50, 10, 51, 10, 52, 10]).reverse := by decide
  exact ⟨s, s', ranks_write_same_bytes handled_digits hreversed (by simp [NulFree])
    (fun l => by rw [hlines, List.mem_reverse]) (by decide) s hrun s' hrun'⟩

/-- A complete run writes one file, as there is a rank 0. -/
theorem Handled.writes_unique (h : Handled file text malloc width size) {s : Fin size → Member Payload Outcome}
    (hrun : Complete sorter orders file text malloc s) {written : Word} (hwritten : Writes s written) :
    written = (SaveMisspelled sorter (answer (dictionaryWords file) (segments newline text))).2 := by
  have hsize : 0 < size := (Nat.div_pos_iff.mp (Nat.zero_lt_of_lt h.cut)).1
  have hsame := (hwritten ⟨0, hsize⟩).symm.trans (h.writes hrun ⟨0, hsize⟩)
  simpa using hsame

theorem SaveMisspelled_nil (sorter : Sorter) : SaveMisspelled sorter [] = ([], []) := by
  rw [SaveMisspelled, List.perm_nil.mp (sorter.perm lineLess [])]
  rfl

/-- The program accepts what it proposes: when the word list of a second run,
    on any number of ranks, has only words that stand as candidates in the file
    that a first run has written, the second run writes an empty file. -/
theorem ranks_accept_candidates (h : Handled file text malloc width size)
    (h' : Handled file text' malloc' width' size') (hblank : ∀ l ∈ segments newline file, 32 ∉ l)
    (hcolon : ∀ w ∈ segments newline text, 58 ∉ w) (s : Fin size → Member Payload Outcome)
    (hrun : Complete sorter orders file text malloc s) (written : Word) (hwritten : Writes s written)
    (hwords : ∀ w ∈ segments newline text', ∃ line ∈ readMisspelled written, w ∈ line.candidates)
    (s' : Fin size' → Member Payload Outcome) (hrun' : Complete sorter' orders' file text' malloc' s') :
    Writes s' [] := by
  have hknown : ∀ w ∈ segments newline text', w ∈ dictionaryWords file := by
    intro w hw
    obtain ⟨line, hline, hmem⟩ := hwords w hw
    rw [h.writes_unique hrun hwritten, (readMisspelled_answer sorter hblank hcolon).mem_iff, mem_answer] at hline
    rw [hline.2.2, mem_neighbours] at hmem
    exact hmem.1
  have hempty : answer (dictionaryWords file) (segments newline text') = [] := by
    rw [List.eq_nil_iff_forall_not_mem]
    intro line hline
    exact (mem_answer.mp hline).2.1 (hknown _ (mem_answer.mp hline).1)
  have hend := h'.writes hrun'
  rwa [hempty, SaveMisspelled_nil] at hend

/-- Two of the four candidates for `5`, checked in a second run. -/
theorem ranks_accept_candidates_small : ∃ s s' : Fin 2 → Member Payload Outcome,
    Writes s [53, 58, 32, 49, 32, 50, 32, 51, 32, 52, 10] ∧ Writes s' [] := by
  have hcandidates : Handled [49, 10, 50, 10, 51, 10, 52, 10] [52, 10, 49] (fun _ => true) 1 2 := by decide +kernel
  obtain ⟨s, hrun⟩ := handled_digits.complete default default
  obtain ⟨s', hrun'⟩ := hcandidates.complete default default
  have hwritten : Writes s [53, 58, 32, 49, 32, 50, 32, 51, 32, 52, 10] := by
    have hend := handled_digits.writes hrun
    rwa [answer_digits, SaveMisspelled_singleton] at hend
  exact ⟨s, s', hwritten, ranks_accept_candidates handled_digits hcandidates (by decide) (by decide) s hrun _
    hwritten (by decide) s' hrun'⟩

/-- A larger dictionary complains less and proposes more: every line of the
    second file belongs to a line of the first, for the same word, whose
    candidates it keeps. -/
theorem ranks_write_fewer_lines (h : Handled file text malloc width size)
    (h' : Handled file' text malloc' width' size') (hblank : ∀ l ∈ segments newline file', 32 ∉ l)
    (hcolon : ∀ w ∈ segments newline text, 58 ∉ w) (hlines : ∀ l ∈ segments newline file, l ∈ segments newline file')
    (s : Fin size → Member Payload Outcome) (hrun : Complete sorter orders file text malloc s)
    (s' : Fin size' → Member Payload Outcome) (hrun' : Complete sorter' orders' file' text malloc' s') :
    ∃ written written', Writes s written ∧ Writes s' written' ∧
      ∀ line' ∈ readMisspelled written', ∃ line ∈ readMisspelled written,
        line.word = line'.word ∧ line.candidates ⊆ line'.candidates := by
  refine ⟨_, _, h.writes hrun, h'.writes hrun', fun line' hline' => ?_⟩
  rw [(readMisspelled_answer sorter' hblank hcolon).mem_iff, mem_answer] at hline'
  obtain ⟨hword, hunknown, hcandidates⟩ := hline'
  refine ⟨⟨line'.word, neighbours OneEdit (dictionaryWords file) line'.word⟩, ?_, rfl, ?_⟩
  · rw [(readMisspelled_answer sorter (fun l hl => hblank l (hlines l hl)) hcolon).mem_iff, mem_answer]
    exact ⟨hword, fun hmem => hunknown (dictionaryWords_mono hlines hmem), rfl⟩
  · intro u hu
    rw [hcandidates, mem_neighbours]
    exact (mem_neighbours.mp hu).imp_left fun hmem => dictionaryWords_mono hlines hmem

/-- The line `6` has come to the dictionary. -/
theorem ranks_write_fewer_lines_small : ∃ (s s' : Fin 2 → Member Payload Outcome) (written written' : Word),
    Writes s written ∧ Writes s' written' ∧ ∀ line' ∈ readMisspelled written', ∃ line ∈ readMisspelled written,
      line.word = line'.word ∧ line.candidates ⊆ line'.candidates := by
  have hmore : Handled [49, 10, 50, 10, 51, 10, 52, 10, 54, 10] [53, 10] (fun _ => true) 1 2 := by decide +kernel
  obtain ⟨s, hrun⟩ := handled_digits.complete default default
  obtain ⟨s', hrun'⟩ := hmore.complete default default
  exact ⟨s, s', ranks_write_fewer_lines handled_digits hmore (by decide) (by decide) (by decide) s hrun
    s' hrun'⟩

end spellcheck.cluster
