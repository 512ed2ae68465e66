import SpellChecker.Candidates.Threads
import SpellChecker.Cluster.Report
import SpellChecker.Pipeline.SingleNode

open checker collective comparator edit_script lines
open spellcheck.bk_tree spellcheck.candidates spellcheck.dictionary spellcheck.pipeline

namespace spellcheck.cluster

/-- A loaded dictionary has the nodes of its tree in memory. -/
theorem exists_placed_of_load {order : HashOrder} {root_len : ℕ} {text : Word} {dict : Dictionary}
    (hload : load order root_len text = .ok dict) : ∃ d : PlacedDictionary, d.toDictionary = dict := by
  rw [load] at hload
  split at hload
  · rename_i built hbuild
    obtain rfl := Except.ok.inj hload
    obtain ⟨d, -, -, hd, -⟩ := exists_placed hbuild []
    exact ⟨d, hd⟩
  · cases hload

theorem candidates_eq_neighbours_iff {dict : Dictionary} (hready : Ready dict) {w : Word} (hw : Short w) :
    dict.Candidates w [] = neighbours OneEdit dict.orig w ↔ NeighboursInOrder dict.bk_tree w := by
  rw [hready.candidates_eq_matches hw, ← matches_pairwise_iff]
  constructor
  · intro h
    rw [h]
    exact neighbours_strict w
  · exact fun h => eq_neighbours h (hready.built.candidates hready.short hw []).2.2

/-- A line with the neighbours of its word in byte order. -/
def ordered (known : Finset Word) (line : Line) : Line := ⟨line.word, neighbours OneEdit known line.word⟩

theorem map_ordered_eq_answer (dict : Dictionary) (words : List Word) :
    (words.filterMap (misspelledLine dict)).map (ordered dict.orig) = answer dict.orig words := by
  rw [answer_eq_filterMap, List.map_filterMap]
  apply List.filterMap_congr
  intro w _
  by_cases hknown : w ∈ dict.orig
  · simp [misspelledLine, Dictionary.Contains, hknown]
  · simp [misspelledLine, Dictionary.Contains, hknown, ordered]

section Agreement

variable {sorter sorter' : Sorter} {orders : ℕ → HashOrder} {file text : Word} {malloc : ℕ → Bool} {width size : ℕ}
  {d : PlacedDictionary} {misspelled : Misspelled}

theorem Handled.ready (h : Handled file text malloc width size) {order : HashOrder} {root_len : ℕ} {dict : Dictionary}
    (hload : load order root_len file = .ok dict) : Ready dict ∧ dict.orig = dictionaryWords file := by
  refine load_ready h.nulFree (fun l hl => ?_) hload
  rw [segments_eq_lines newline file 0, remainder_of_closed (.inr h.ended)] at hl
  obtain ⟨hl, hne⟩ := List.mem_filter.mp hl
  cases List.mem_append.mp hl with
  | inl hl =>
    obtain ⟨entry, hentry, rfl⟩ := List.mem_map.mp hl
    exact ⟨((h.lines entry hentry).2.trans h.width_le).trans_lt (by decide)⟩
  | inr hl =>
    obtain rfl := List.mem_singleton.mp hl
    simp at hne

/-- The words of a list below `2^31` bytes can be looked up. -/
theorem serves_of_ready (hready : Ready d.toDictionary) (hlength : text.length < 2147483648) :
    d.Serves (BuildWordList text) := by
  refine ⟨hready.built, hready.short, fun w hw => ?_⟩
  rw [BuildWordList_words] at hw
  exact short_of_mem_segments hlength hw

/-- The lines that the threads of the single-node program find. -/
theorem mem_found (hready : Ready d.toDictionary) (hlength : text.length < 2147483648)
    (hfound : ThreadsFind (BuildWordList text) d misspelled) {line : Line} :
    line ∈ misspelled ↔ ∃ w ∈ segments newline text, w ∉ d.orig ∧ line = ⟨w, d.Candidates w []⟩ := by
  rw [(hfound.perm (serves_of_ready hready hlength)).mem_iff, mem_filterMap_misspelledLine, BuildWordList_words]
  simp [Dictionary.Contains]

theorem perm_ordered (hready : Ready d.toDictionary) (hlength : text.length < 2147483648)
    (hfound : ThreadsFind (BuildWordList text) d misspelled) {line : Line} (hline : line ∈ misspelled) :
    line.candidates.Perm (ordered d.orig line).candidates := by
  obtain ⟨w, hw, -, rfl⟩ := (mem_found hready hlength hfound).mp hline
  exact hready.candidates_perm_neighbours (short_of_mem_segments hlength hw)

theorem map_ordered_perm (hready : Ready d.toDictionary) (hlength : text.length < 2147483648)
    (hfound : ThreadsFind (BuildWordList text) d misspelled) :
    (misspelled.map (ordered d.orig)).Perm (answer d.orig (segments newline text)) := by
  rw [← BuildWordList_words, ← map_ordered_eq_answer]
  exact (hfound.perm (serves_of_ready hready hlength)).map _

/-- The candidates stand in byte order on all lines exactly when the tree shows
    the neighbours of every unknown word in this order. -/
theorem forall_ordered_iff (hready : Ready d.toDictionary) (hlength : text.length < 2147483648)
    (hfound : ThreadsFind (BuildWordList text) d misspelled) :
    (∀ line ∈ misspelled, ordered d.orig line = line) ↔
      ∀ w ∈ segments newline text, w ∉ d.orig → NeighboursInOrder d.bk_tree w := by
  constructor
  · intro h w hw hunknown
    have hline := h ⟨w, d.Candidates w []⟩ ((mem_found hready hlength hfound).mpr ⟨w, hw, hunknown, rfl⟩)
    exact (candidates_eq_neighbours_iff hready (short_of_mem_segments hlength hw)).mp (Line.mk.inj hline).2.symm
  · intro h line hline
    obtain ⟨w, hw, hunknown, rfl⟩ := (mem_found hready hlength hfound).mp hline
    rw [(candidates_eq_neighbours_iff hready (short_of_mem_segments hlength hw)).mpr (h w hw hunknown)]
    rfl

/-- The file that the single-node program writes says what its threads have found. -/
theorem readMisspelled_found (sorter' : Sorter) (hready : Ready d.toDictionary) (hlength : text.length < 2147483648)
    (hfound : ThreadsFind (BuildWordList text) d misspelled)
    (hanswer : ∀ line ∈ answer d.orig (segments newline text),
      Readable line ∧ newline ∉ line.word ∧ ∀ u ∈ line.candidates, newline ∉ u) :
    (readMisspelled (SaveMisspelled sorter' misspelled).2).Perm misspelled := by
  have hline : ∀ line ∈ misspelled, Readable line ∧ newline ∉ line.word ∧ ∀ u ∈ line.candidates, newline ∉ u := by
    intro line hline
    have hsub := (perm_ordered hready hlength hfound hline).subset
    obtain ⟨⟨hcolon, hblank⟩, hword, hcandidates⟩ :=
      hanswer _ ((map_ordered_perm hready hlength hfound).mem_iff.mp (List.mem_map_of_mem hline))
    exact ⟨⟨hcolon, fun u hu => hblank u (hsub hu)⟩, hword, fun u hu => hcandidates u (hsub hu)⟩
  exact readMisspelled_perm sorter' (fun line h => (hline line h).2) fun line h => (hline line h).1

/-- Up to the order of the candidates, the threads find the answer, and so the
    two programs sort their lines alike. -/
theorem map_ordered_sorted (sorter sorter' : Sorter) (hready : Ready d.toDictionary) (hnul : NulFree text)
    (hlength : text.length < 2147483648) (hfound : ThreadsFind (BuildWordList text) d misspelled) :
    (SaveMisspelled sorter' misspelled).1.map (ordered d.orig) =
      (SaveMisspelled sorter (answer d.orig (segments newline text))).1 := by
  apply sorter'.map_run_eq_of_perm sorter lineLess_keyedBy
  · intro line hline
    rw [(perm_ordered hready hlength hfound hline).length_eq]
    rfl
  · exact map_ordered_perm hready hlength hfound
  · intro a ha b hb hkey
    exact eq_of_mem_answer hnul ha hb (congrArg Prod.snd (toLex.injective hkey))

/-- The ranks and the threads agree: a complete run of `main` on any number of
    ranks, and a complete run of `GetMisspelled` on any number of threads with the
    whole dictionary, give files with the same lines in the same order, each with
    the same candidates; only within a line these may stand in different orders. -/
theorem ranks_write_lines_of_threads (h : Handled file text malloc width size) (hnul : NulFree text)
    (s : Fin size → Member Payload Outcome) (hrun : Complete sorter orders file text malloc s) (order : HashOrder)
    (hload : load order (BuildWordList text).root_len file = .ok d.toDictionary)
    (hfound : ThreadsFind (BuildWordList text) d misspelled) :
    ∃ lines lines' : Misspelled, Writes s (lines.flatMap lineBytes) ∧
      (SaveMisspelled sorter' misspelled).2 = lines'.flatMap lineBytes ∧
      List.Forall₂ (fun line line' => line.word = line'.word ∧ line.candidates.Perm line'.candidates) lines lines' := by
  obtain ⟨hready, horig⟩ := h.ready hload
  refine ⟨(SaveMisspelled sorter (answer (dictionaryWords file) (segments newline text))).1,
    (SaveMisspelled sorter' misspelled).1, h.writes hrun, rfl, ?_⟩
  rw [← horig, ← map_ordered_sorted sorter sorter' hready hnul h.text_length hfound, List.forall₂_map_left_iff,
    List.forall₂_same]
  intro line hline
  have hmem := (sorter'.perm lineLess misspelled).mem_iff.mp hline
  exact ⟨rfl, (perm_ordered hready h.text_length hfound hmem).symm⟩

/-- The word `5` against the lines `1` to `4`, on two ranks and on three threads. -/
theorem ranks_write_lines_of_threads_small : ∃ (s : Fin 2 → Member Payload Outcome) (d : PlacedDictionary)
    (misspelled lines lines' : Misspelled), ThreadsFind (BuildWordList [53, 10]) d misspelled ∧
      Writes s (lines.flatMap lineBytes) ∧ (SaveMisspelled default misspelled).2 = lines'.flatMap lineBytes ∧
      List.Forall₂ (fun line line' => line.word = line'.word ∧ line.candidates.Perm line'.candidates) lines lines' := by
  obtain ⟨s, hrun⟩ := handled_digits.complete default default
  have hlines : segments newline [49, 10, 50, 10, 51, 10, 52, 10] ≠ [] := by decide
  obtain ⟨dict, hload, -⟩ := load_ok hlines default (BuildWordList [53, 10]).root_len
  obtain ⟨d, rfl⟩ := exists_placed_of_load hload
  have hserves : d.Serves (BuildWordList [53, 10]) := serves_of_ready (handled_digits.ready hload).1 (by decide)
  obtain ⟨misspelled, hfound⟩ := exists_threadsFind hserves (by decide : 0 < 3)
  obtain ⟨lines, lines', hagree⟩ :=
    ranks_write_lines_of_threads handled_digits (by simp [NulFree]) s hrun default hload hfound
  exact ⟨s, d, misspelled, lines, lines', hfound, hagree⟩

/-- A complete run of `main` on the ranks and one of `GetMisspelled` on threads write
    the same bytes exactly when the tree shows the neighbours of every unknown word
    in byte order, if no line of the dictionary has a blank and no word of the list a
    colon. -/
theorem ranks_write_bytes_of_threads_iff (h : Handled file text malloc width size) (hnul : NulFree text)
    (hblank : ∀ l ∈ segments newline file, 32 ∉ l) (hcolon : ∀ w ∈ segments newline text, 58 ∉ w)
    (s : Fin size → Member Payload Outcome) (hrun : Complete sorter orders file text malloc s) (order : HashOrder)
    (hload : load order (BuildWordList text).root_len file = .ok d.toDictionary)
    (hfound : ThreadsFind (BuildWordList text) d misspelled) :
    Writes s (SaveMisspelled sorter' misspelled).2 ↔
      ∀ w ∈ segments newline text, w ∉ dictionaryWords file → NeighboursInOrder d.bk_tree w := by
  obtain ⟨hready, horig⟩ := h.ready hload
  have hordered := map_ordered_perm hready h.text_length hfound
  rw [← horig, ← forall_ordered_iff hready h.text_length hfound]
  constructor
  · intro hwritten line hline
    have hbytes := h.writes_unique hrun hwritten
    have hread := readMisspelled_found sorter' hready h.text_length hfound fun line hline =>
      ⟨readable_answer hblank hcolon (horig ▸ hline), newline_notMem_answer (horig ▸ hline)⟩
    rw [hbytes] at hread
    have hmem := hread.mem_iff.mpr hline
    rw [(readMisspelled_answer sorter hblank hcolon).mem_iff, ← horig, mem_answer] at hmem
    rw [ordered, ← hmem.2.2]
  · intro hlines
    have hsame : misspelled.map (ordered d.orig) = misspelled :=
      (List.map_congr_left hlines).trans (List.map_id misspelled)
    rw [hsame] at hordered
    rw [SaveMisspelled_eq_of_perm sorter' sorter hordered fun a ha b hb =>
      eq_of_mem_answer hnul (hordered.mem_iff.mp ha) (hordered.mem_iff.mp hb), horig]
    exact h.writes hrun

/-- The word `3` against the lines `1` and `2`, which the tree shows in order. -/
theorem ranks_write_bytes_of_threads_iff_small : ∃ (s : Fin 2 → Member Payload Outcome) (d : PlacedDictionary)
    (misspelled : Misspelled), ThreadsFind (BuildWordList [51, 10]) d misspelled ∧
      Writes s (SaveMisspelled default misspelled).2 := by
  have hhandled : Handled [49, 10, 50, 10] [51, 10] (fun _ => true) 1 2 := by decide +kernel
  obtain ⟨s, hrun⟩ := hhandled.complete default default
  have hbuild : (Dictionary.new [49, 10, 50, 10]).builds [(default, 1)] =
      .ok { Dictionary.new [49, 10, 50, 10] with bk_tree := ⟨⟨[49], .cons 1 [50] .nil .nil⟩⟩ } :=
    builds_pair default (show [49] ≠ [50] by decide) (by decide +kernel)
      (show _ = some ([49] :: [[50]]) by decide +kernel) (by decide +kernel) (by decide +kernel)
  have hroot : (BuildWordList [51, 10]).root_len = 1 := by decide +kernel
  have hwords : segments newline [51, 10] = [[51]] := by decide
  rw [← hroot, ← load_eq_builds] at hbuild
  obtain ⟨d, hd⟩ := exists_placed_of_load hbuild
  rw [← hd] at hbuild
  have hserves : d.Serves (BuildWordList [51, 10]) := serves_of_ready (hhandled.ready hbuild).1 (by decide)
  obtain ⟨misspelled, hfound⟩ := exists_threadsFind hserves (by decide : 0 < 3)
  refine ⟨s, d, misspelled, hfound, (ranks_write_bytes_of_threads_iff hhandled (by simp [NulFree]) (by decide)
    (by decide) s hrun default hbuild hfound).mpr ?_⟩
  rw [hwords, List.forall_mem_singleton, hd]
  intro _
  unfold NeighboursInOrder
  decide +kernel

end Agreement

end spellcheck.cluster
