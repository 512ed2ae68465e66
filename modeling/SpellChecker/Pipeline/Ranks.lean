import SpellChecker.Pipeline.Shards
import SpellChecker.Slice.Partition

open blocks checker comparator edit_script lines
open spellcheck.bk_tree spellcheck.candidates spellcheck.dictionary spellcheck.mpi spellcheck.slice

namespace spellcheck.pipeline

/-- The dictionary `main` builds on one rank. -/
def rankDictionary (orders : ℕ → HashOrder) (file : Word) (root_len size rank : ℕ) : Except Fault Dictionary := do
  let local_dict_text ← read_slice_aligned file (compute_slice file.length rank size) file.length
  load (orders rank) root_len local_dict_text

/-- `word_list` on one rank: the text that rank 0 has loaded is broadcast into a
    buffer of its size. The count of the broadcast is an `int`. -/
def rankWordList (word_list_text : Word) (rank : ℕ) : Except Fault WordList := do
  let buf := if rank = 0 then word_list_text else List.replicate word_list_text.length 0
  let word_list_text_str ← MPI_Bcast (toInt word_list_text.length) word_list_text buf
  return BuildWordList word_list_text_str

/-- `word_list` and `dict` on one rank. -/
def startRank (orders : ℕ → HashOrder) (file word_list_text : Word) (size rank : ℕ) :
    Except Fault (WordList × Dictionary) := do
  let local_dict_text ← read_slice_aligned file (compute_slice file.length rank size) file.length
  let word_list ← rankWordList word_list_text rank
  let dict ← load (orders rank) word_list.root_len local_dict_text
  return (word_list, dict)

/-- `present_global` on a rank with this word list, when `ranks` have called the reduction. -/
def rankPresent (ranks : List (WordList × Dictionary)) (word_list : WordList) : Except Fault (List Byte) :=
  MPI_Allreduce_BOR (toInt word_list.words.length) (ranks.map fun r => GetPresentLocal r.1 r.2)
    (List.replicate word_list.words.length 0)

/-- `pk` on one rank. -/
def packOnRank (sorter : Sorter) (ranks : List (WordList × Dictionary)) (r : WordList × Dictionary) :
    Except Fault Packed := do
  let present_global ← rankPresent ranks r.1
  let local_masked ← GetCandidatesLocalMasked sorter r.1 r.2 present_global
  PackAllCandidates r.1 local_masked

/-- `main` up to the `pk` of every rank. -/
def packOnRanks (sorter : Sorter) (orders : ℕ → HashOrder) (file word_list_text : Word) (size : ℕ) :
    Except Fault (List Packed) := do
  let ranks ← (List.range size).mapM (startRank orders file word_list_text size)
  ranks.mapM (packOnRank sorter ranks)

/-- `misspelled` on rank 0 of a run of `main` with `size` ranks. -/
def run (sorter : Sorter) (orders : ℕ → HashOrder) (file word_list_text : Word) (size : ℕ) :
    Except Fault Misspelled := do
  let ranks ← (List.range size).mapM (startRank orders file word_list_text size)
  let pks ← ranks.mapM (packOnRank sorter ranks)
  let word_list ← rankWordList word_list_text 0
  let present_global ← rankPresent ranks word_list
  MergePackedAcrossRanks word_list present_global pks 0

/-- `BuildBKTree` returns normally on all ranks, and the packed totals fit in `int`. -/
def Fits (sorter : Sorter) (orders : ℕ → HashOrder) (file word_list_text : Word) (size : ℕ) : Prop :=
  ∃ pks, packOnRanks sorter orders file word_list_text size = .ok pks ∧ packedBytes pks < 2147483648

/-- A line of the file reaches the rank it starts on. -/
def Reaches (file : Word) (size rank : ℕ) (entry : ℕ × Word) : Prop :=
  starts_in (slice_off file.length size rank) (slice_len file.length size rank) entry = true ∧
    Carried file (slice_off file.length size rank) (slice_len file.length size rank) entry

instance (file : Word) (size rank : ℕ) (entry : ℕ × Word) : Decidable (Reaches file size rank entry) :=
  inferInstanceAs (Decidable (_ ∧ _))

/-- The words of the lines that reach some rank. -/
def carriedWords (file : Word) (size : ℕ) : Finset Word :=
  (((spans newline 0 file).filter fun entry => ∃ rank < size, Reaches file size rank entry).flatMap
    fun entry => variants entry.2).toFinset

/-- The words of all complete lines of the file. -/
def completeWords (file : Word) : Finset Word := ((spans newline 0 file).flatMap fun entry => variants entry.2).toFinset

section RankText

variable {file : Word} {size rank : ℕ}

/-- The non-empty lines of a rank's text are the non-empty lines that reach it. -/
theorem mem_segments_rank_text (hrank : rank < size) {l : Word} : l ∈ segments newline (rank_text file size rank) ↔
    l ≠ [] ∧ ∃ entry ∈ spans newline 0 file, Reaches file size rank entry ∧ entry.2 = l := by
  have hfit := slice_fits (n := file.length) hrank
  have hnewline : ∀ l ∈ (kept_lines file (slice_off file.length size rank)
      (slice_len file.length size rank)).map Prod.snd, newline ∉ l := by
    intro l hl
    obtain ⟨entry, hentry, rfl⟩ := List.mem_map.mp hl
    exact (spans_bounds (mem_kept_lines.mp hentry).1).2.2
  unfold rank_text
  rw [segments_unlines hnewline, List.mem_filter, List.mem_map]
  simp only [ne_eq, decide_not, Bool.not_eq_true', decide_eq_false_iff_not]
  constructor
  · rintro ⟨⟨entry, hentry, rfl⟩, hne⟩
    obtain ⟨hspan, hinside, hkept⟩ := mem_kept_lines.mp hentry
    refine ⟨hne, entry, hspan, ⟨by simpa [starts_in] using hinside, ?_⟩, rfl⟩
    exact carried_of_lt_scan_end hfit hspan hinside.1 hinside.2 hne hkept
  · rintro ⟨hne, entry, hspan, ⟨hstarts, hcarried⟩, rfl⟩
    simp only [starts_in, decide_eq_true_eq] at hstarts
    refine ⟨⟨entry, mem_kept_lines.mpr ⟨hspan, hstarts, ?_⟩, rfl⟩, hne⟩
    exact lt_scan_end_of_carried hfit hstarts.1 hcarried

theorem segments_rank_text_ne_nil_iff (hrank : rank < size) : segments newline (rank_text file size rank) ≠ [] ↔
    ∃ entry ∈ spans newline 0 file, entry.2 ≠ [] ∧ Reaches file size rank entry := by
  constructor
  · intro h
    obtain ⟨l, hl⟩ := List.exists_mem_of_ne_nil _ h
    obtain ⟨hne, entry, hentry, hreaches, rfl⟩ := (mem_segments_rank_text hrank).mp hl
    exact ⟨entry, hentry, hne, hreaches⟩
  · rintro ⟨entry, hentry, hne, hreaches⟩
    exact List.ne_nil_of_mem ((mem_segments_rank_text hrank).mpr ⟨hne, entry, hentry, hreaches, rfl⟩)

theorem rankDictionary_eq (orders : ℕ → HashOrder) (root_len : ℕ) (hrank : rank < size) :
    rankDictionary orders file root_len size rank = load (orders rank) root_len (rank_text file size rank) := by
  unfold rankDictionary
  rw [read_rank_slice hrank, loop.bind_ok]

/-- `BuildBKTree` returns normally on the ranks that some line reaches. -/
theorem rankDictionary_eq_ok_iff (orders : ℕ → HashOrder) (root_len : ℕ) (hrank : rank < size) :
    (∃ dict, rankDictionary orders file root_len size rank = .ok dict) ↔
      ∃ entry ∈ spans newline 0 file, entry.2 ≠ [] ∧ Reaches file size rank entry := by
  rw [rankDictionary_eq orders root_len hrank, load_eq_ok_iff, segments_rank_text_ne_nil_iff hrank]

/-- The bytes of a rank's text are bytes of the file. -/
theorem nulFree_rank_text (hnul : NulFree file) : NulFree (rank_text file size rank) := by
  intro c hc
  simp only [rank_text, unlines, List.mem_flatMap, List.mem_map] at hc
  obtain ⟨l, ⟨entry, hentry, rfl⟩, hc⟩ := hc
  obtain ⟨before, after, hfile, -⟩ := mem_spans_iff.mp (mem_kept_lines.mp hentry).1
  cases List.mem_append.mp hc with
  | inl h => exact hnul c (by rw [hfile]; simp [h])
  | inr h =>
    rw [List.mem_singleton.mp h]
    decide

/-- A line that reaches a rank is short: less than `2^31` bytes are read. -/
theorem Reaches.short {entry : ℕ × Word} (h : Reaches file size rank entry) : Short entry.2 := by
  obtain ⟨hstarts, hcarried⟩ := h
  simp only [starts_in, decide_eq_true_eq] at hstarts
  have hread := hcarried.lt_read_end
  have hcount := toNat_toInt_lt (window_end file.length (slice_off file.length size rank)
    (slice_len file.length size rank) - (slice_off file.length size rank - 256))
  unfold read_end read_count at hread
  exact ⟨by omega⟩

theorem short_rank_text (hrank : rank < size) : ∀ l ∈ segments newline (rank_text file size rank), Short l := by
  intro l hl
  obtain ⟨-, entry, -, hreaches, rfl⟩ := (mem_segments_rank_text hrank).mp hl
  exact hreaches.short

end RankText

/-- Every rank has a word, and `BuildBKTree` returns normally on all of them,
    exactly when on every rank some non-empty line starts in the slice and
    reaches the rank: it is read with its newline, and the slice ends the file or
    a further newline is read behind it. -/
theorem rankDictionary_ok_iff (orders : ℕ → HashOrder) (file : Word) (root_len size : ℕ) :
    (∀ rank < size, ∃ dict, rankDictionary orders file root_len size rank = .ok dict) ↔
      ∀ rank < size, ∃ entry ∈ spans newline 0 file, entry.2 ≠ [] ∧ Reaches file size rank entry := by
  exact forall₂_congr fun rank hrank => rankDictionary_eq_ok_iff orders root_len hrank

/-- The one line of the file `a` reaches the only rank, but neither of two: the
    window of rank 0 ends with the newline of that line. -/
theorem rankDictionary_throws_on_second_rank :
    (∀ orders root_len, ∃ dict, rankDictionary orders [97, 10] root_len 1 0 = .ok dict) ∧
      ∀ orders root_len, rankDictionary orders [97, 10] root_len 2 0 = .error .dictionaryEmpty := by
  constructor
  · intro orders root_len
    rw [rankDictionary_eq orders root_len (by decide), load_eq_ok_iff]
    decide +kernel
  · intro orders root_len
    rw [rankDictionary_eq orders root_len (by decide)]
    exact load_empty (by decide +kernel) _ _

section Run

variable {file : Word}

theorem mem_carriedWords {size : ℕ} {w : Word} : w ∈ carriedWords file size ↔
    ∃ entry ∈ spans newline 0 file, (∃ rank < size, Reaches file size rank entry) ∧ w ∈ variants entry.2 := by
  simp only [carriedWords, List.mem_toFinset, List.mem_flatMap, List.mem_filter, decide_eq_true_eq, and_assoc]

theorem mem_completeWords {w : Word} :
    w ∈ completeWords file ↔ ∃ entry ∈ spans newline 0 file, w ∈ variants entry.2 := by
  simp only [completeWords, List.mem_toFinset, List.mem_flatMap]

/-- What a single rank reads of the file. -/
def readWhole (file : Word) : Word := file.take (toInt file.length).toNat

theorem read_end_one : read_end file.length (slice_off file.length 1 0) (slice_len file.length 1 0) =
    (toInt file.length).toNat := by
  have hwindow : window_end file.length 0 file.length - (0 - 256) = file.length := by
    unfold window_end
    omega
  rw [slice_off_zero, slice_len_one, read_end, read_count, hwindow, Nat.zero_sub, Nat.zero_add]

/-- One rank receives every line it reads whole. -/
theorem reaches_one_iff {entry : ℕ × Word} (hentry : entry ∈ spans newline 0 file) :
    Reaches file 1 0 entry ↔ entry.1 + entry.2.length < (toInt file.length).toNat := by
  have hspan := spans_bounds hentry
  rw [← read_end_one]
  constructor
  · exact fun h => h.2.lt_read_end
  · intro hread
    refine ⟨?_, .inl ⟨?_, hread⟩⟩
    · rw [slice_off_zero, slice_len_one]
      simp only [starts_in, decide_eq_true_eq]
      omega
    · rw [slice_off_zero, slice_len_one, Nat.zero_add]

theorem carriedWords_one : carriedWords file 1 = completeWords (readWhole file) := by
  have hlines : spans newline 0 (readWhole file) =
      (spans newline 0 file).filter fun entry => entry.1 + entry.2.length < (toInt file.length).toNat := by
    rw [readWhole, spans_take, Nat.zero_add]
  ext w
  rw [mem_carriedWords, mem_completeWords, hlines]
  constructor
  · rintro ⟨entry, hentry, ⟨rank, hrank, hreaches⟩, hvariant⟩
    obtain rfl : rank = 0 := by omega
    exact ⟨entry, List.mem_filter.mpr ⟨hentry, decide_eq_true ((reaches_one_iff hentry).mp hreaches)⟩, hvariant⟩
  · rintro ⟨entry, hentry, hvariant⟩
    obtain ⟨hentry, hread⟩ := List.mem_filter.mp hentry
    exact ⟨entry, hentry, ⟨0, by decide, (reaches_one_iff hentry).mpr (of_decide_eq_true hread)⟩, hvariant⟩

/-- What the ranks of a run load. -/
def rankShards (orders : ℕ → HashOrder) (file : Word) (root_len size : ℕ) : List Shard :=
  (List.range size).map fun rank => ⟨rank_text file size rank, orders rank, root_len⟩

theorem nulFree_rankShards (orders : ℕ → HashOrder) (hnul : NulFree file) (root_len size : ℕ) :
    ∀ s ∈ rankShards orders file root_len size, NulFree s.text := by
  intro s hs
  obtain ⟨rank, -, rfl⟩ := List.mem_map.mp hs
  exact nulFree_rank_text hnul

theorem short_rankShards (orders : ℕ → HashOrder) (root_len size : ℕ) :
    ∀ s ∈ rankShards orders file root_len size, ∀ l ∈ segments newline s.text, Short l := by
  intro s hs
  obtain ⟨rank, hrank, rfl⟩ := List.mem_map.mp hs
  exact short_rank_text (List.mem_range.mp hrank)

theorem mapM_rankDictionary_eq (orders : ℕ → HashOrder) (root_len size : ℕ) :
    (List.range size).mapM (rankDictionary orders file root_len size) =
      (rankShards orders file root_len size).mapM Shard.load := by
  unfold rankShards
  rw [List.mapM_map]
  exact loop.mapM_congr fun rank hrank => rankDictionary_eq orders root_len (List.mem_range.mp hrank)

theorem shardWords_rankShards (orders : ℕ → HashOrder) (root_len size : ℕ) :
    shardWords (rankShards orders file root_len size) = carriedWords file size := by
  ext w
  rw [mem_shardWords, mem_carriedWords]
  constructor
  · rintro ⟨s, hs, hw⟩
    obtain ⟨rank, hrank, rfl⟩ := List.mem_map.mp hs
    obtain ⟨l, hl, hvariant⟩ := mem_dictionaryWords.mp hw
    obtain ⟨-, entry, hentry, hreaches, rfl⟩ := (mem_segments_rank_text (List.mem_range.mp hrank)).mp hl
    exact ⟨entry, hentry, ⟨rank, List.mem_range.mp hrank, hreaches⟩, hvariant⟩
  · rintro ⟨entry, hentry, ⟨rank, hrank, hreaches⟩, hvariant⟩
    have hne : entry.2 ≠ [] := by
      intro h
      simp [h, variants] at hvariant
    refine ⟨_, List.mem_map.mpr ⟨rank, List.mem_range.mpr hrank, rfl⟩, mem_dictionaryWords.mpr ⟨entry.2, ?_, hvariant⟩⟩
    exact (mem_segments_rank_text hrank).mpr ⟨hne, entry, hentry, hreaches, rfl⟩

/-- When `BuildBKTree` returns normally everywhere, the ranks together hold the
    words of the carried lines. -/
theorem mapM_rankDictionary_ok (orders : ℕ → HashOrder) (hnul : NulFree file) {root_len size : ℕ}
    (hload : ∀ rank < size, ∃ dict, rankDictionary orders file root_len size rank = .ok dict) :
    ∃ dicts, (List.range size).mapM (rankDictionary orders file root_len size) = .ok dicts ∧ dicts.length = size ∧
      (∀ d ∈ dicts, Ready d) ∧ unionWords dicts = carriedWords file size := by
  have hlines : ∀ s ∈ rankShards orders file root_len size, segments newline s.text ≠ [] := by
    intro s hs
    obtain ⟨rank, hrank, rfl⟩ := List.mem_map.mp hs
    obtain ⟨dict, hdict⟩ := hload rank (List.mem_range.mp hrank)
    rw [rankDictionary_eq orders root_len (List.mem_range.mp hrank)] at hdict
    exact (load_eq_ok_iff _ _ _).mp ⟨dict, hdict⟩
  obtain ⟨dicts, hdicts, hlength, hready, hunion⟩ := mapM_load_ok (nulFree_rankShards orders hnul root_len size) hlines
    (short_rankShards orders root_len size)
  refine ⟨dicts, ?_, ?_, hready, ?_⟩
  · rw [mapM_rankDictionary_eq, hdicts]
  · rw [hlength, rankShards, List.length_map, List.length_range]
  · rw [hunion, shardWords_rankShards]

/-- The words of a text are no longer than it. -/
theorem short_of_mem_segments {text l : Word} (hlength : text.length < 2147483648) (h : l ∈ segments newline text) :
    Short l := by
  rw [segments_eq_spans newline text 0] at h
  obtain ⟨entry, hentry, rfl⟩ := List.mem_map.mp h
  have hbounds := spans_bounds (List.mem_of_mem_filter hentry)
  rw [List.length_append, List.length_singleton] at hbounds
  exact ⟨by omega⟩

section Shared

variable {word_list_text : Word} (hlength : word_list_text.length < 2147483648)

include hlength

/-- A word list below `2^31` bytes reaches every rank whole. -/
theorem rankWordList_eq (rank : ℕ) : rankWordList word_list_text rank = .ok (BuildWordList word_list_text) := by
  have hcount : (toInt word_list_text.length).toNat = word_list_text.length := (toNat_toInt_eq_iff _).mpr hlength
  have hdrop : (if rank = 0 then word_list_text else List.replicate word_list_text.length 0).drop
      word_list_text.length = [] := by
    split <;> simp
  rw [rankWordList, MPI_Bcast, toInt_of_isInt (isInt_natCast hlength), if_neg (by omega), Int.toNat_natCast,
    List.take_length, hdrop, List.append_nil, loop.bind_ok, loop.pure_eq_ok]

theorem length_words_lt : (BuildWordList word_list_text).words.length < 2147483648 := by
  rw [BuildWordList_words]
  exact (length_segments_le newline word_list_text).trans_lt hlength

variable (sorter : Sorter) (orders : ℕ → HashOrder) (file : Word) (size : ℕ)

theorem mapM_startRank_eq :
    (List.range size).mapM (startRank orders file word_list_text size) = (do
      let dicts ← (List.range size).mapM
        (rankDictionary orders file (BuildWordList word_list_text).root_len size)
      return dicts.map fun dict => (BuildWordList word_list_text, dict)) := by
  rw [← loop.mapM_bind_pure]
  refine loop.mapM_congr fun rank _ => ?_
  simp only [startRank, rankDictionary, rankWordList_eq hlength, loop.bind_ok, bind_assoc]

omit hlength in
theorem rankPresent_eq {dicts : List Dictionary} {wl : WordList} {present_global : List Byte}
    (hpresent : presentGlobal wl dicts = .ok present_global) :
    rankPresent (dicts.map fun dict => (wl, dict)) wl = .ok present_global := by
  rw [← hpresent, rankPresent, presentGlobal, List.map_map]
  rfl

omit hlength in
theorem packOnRank_eq {dicts : List Dictionary} {wl : WordList} {present_global : List Byte}
    (hpresent : rankPresent (dicts.map fun dict => (wl, dict)) wl = .ok present_global) (dict : Dictionary) :
    packOnRank sorter (dicts.map fun dict => (wl, dict)) (wl, dict) = (do
      let local_masked ← GetCandidatesLocalMasked sorter wl dict present_global
      PackAllCandidates wl local_masked) := by
  unfold packOnRank
  rw [hpresent]
  rfl

omit hlength in
theorem mapM_packOnRank_eq {dicts : List Dictionary} {wl : WordList} {present_global : List Byte}
    (hpresent : presentGlobal wl dicts = .ok present_global) :
    (dicts.map fun dict => (wl, dict)).mapM (packOnRank sorter (dicts.map fun dict => (wl, dict))) =
      secondPass sorter wl present_global dicts := by
  rw [List.mapM_map, secondPass]
  exact loop.mapM_congr fun dict _ =>
    Function.comp_apply.trans (packOnRank_eq sorter (rankPresent_eq hpresent) dict)

/-- With a word list below `2^31` bytes, all ranks share the list and the mask. -/
theorem packOnRanks_eq : packOnRanks sorter orders file word_list_text size = (do
    let dicts ← (List.range size).mapM
      (rankDictionary orders file (BuildWordList word_list_text).root_len size)
    let present_global ← presentGlobal (BuildWordList word_list_text) dicts
    secondPass sorter (BuildWordList word_list_text) present_global dicts) := by
  rw [packOnRanks, mapM_startRank_eq hlength, bind_assoc]
  refine bind_congr fun dicts => ?_
  obtain ⟨present_global, hpresent, -⟩ := presentGlobal_spec (length_words_lt hlength) dicts
  rw [pure_bind, mapM_packOnRank_eq sorter hpresent, hpresent, loop.bind_ok]

theorem run_eq : run sorter orders file word_list_text size = (do
    let dicts ← (List.range size).mapM
      (rankDictionary orders file (BuildWordList word_list_text).root_len size)
    let present_global ← presentGlobal (BuildWordList word_list_text) dicts
    let pks ← secondPass sorter (BuildWordList word_list_text) present_global dicts
    MergePackedAcrossRanks (BuildWordList word_list_text) present_global pks 0) := by
  rw [run, mapM_startRank_eq hlength, bind_assoc]
  refine bind_congr fun dicts => ?_
  obtain ⟨present_global, hpresent, -⟩ := presentGlobal_spec (length_words_lt hlength) dicts
  rw [pure_bind, mapM_packOnRank_eq sorter hpresent, hpresent, loop.bind_ok]
  refine bind_congr fun pks => ?_
  rw [rankWordList_eq hlength, loop.bind_ok, rankPresent_eq hpresent, loop.bind_ok]

end Shared

/-- When `BuildBKTree` returns normally everywhere, all ranks come to their
    `pk`, with a mask for the words on no carried line. Rank 0 then obtains the
    answer over the words of the carried lines, if the packed totals and the
    indices fit in `int`. -/
theorem exists_merge_eq_answer (sorter : Sorter) (orders : ℕ → HashOrder) (hnul : NulFree file)
    {word_list_text : Word} (hlength : word_list_text.length < 2147483648) {size : ℕ}
    (hload : ∀ rank < size, ∃ dict,
      rankDictionary orders file (BuildWordList word_list_text).root_len size rank = .ok dict) :
    ∃ present_global pks, packOnRanks sorter orders file word_list_text size = .ok pks ∧ pks.length = size ∧
      run sorter orders file word_list_text size =
        MergePackedAcrossRanks (BuildWordList word_list_text) present_global pks 0 ∧
      (∀ (i : ℕ) (w : Word), (segments newline word_list_text)[i]? = some w →
        (present_global[i]? = some 0 ↔ w ∉ carriedWords file size)) ∧
      (IndexFits (segments newline word_list_text).length size present_global → packedBytes pks < 2147483648 →
        MergePackedAcrossRanks (BuildWordList word_list_text) present_global pks 0 =
          .ok (answer (carriedWords file size) (segments newline word_list_text))) := by
  have hwords : ∀ w ∈ (BuildWordList word_list_text).words, Short w := by
    intro w hw
    rw [BuildWordList_words] at hw
    exact short_of_mem_segments hlength hw
  obtain ⟨dicts, hdicts, hcount, hready, hunion⟩ := mapM_rankDictionary_ok orders hnul hload
  obtain ⟨present_global, pks, hpresent, hpks, hpksLength, hmask, hmerge⟩ :=
    merge_eq_answer sorter hwords hready (length_words_lt hlength)
  rw [hunion, hcount, BuildWordList_words] at hmerge
  rw [hunion, BuildWordList_words] at hmask
  refine ⟨present_global, pks, ?_, hpksLength.trans hcount, ?_, hmask, hmerge⟩
  · rw [packOnRanks_eq hlength, hdicts, loop.bind_ok, hpresent, loop.bind_ok, hpks]
  · rw [run_eq hlength, hdicts, loop.bind_ok, hpresent, loop.bind_ok, hpks, loop.bind_ok]

/-- A run that has packed its candidates has loaded every rank's dictionary. -/
theorem rankDictionary_ok_of_packOnRanks {sorter : Sorter} {orders : ℕ → HashOrder} {word_list_text : Word}
    (hlength : word_list_text.length < 2147483648) {size : ℕ} {pks : List Packed}
    (hpks : packOnRanks sorter orders file word_list_text size = .ok pks) :
    ∀ rank < size, ∃ dict,
      rankDictionary orders file (BuildWordList word_list_text).root_len size rank = .ok dict := by
  rw [packOnRanks_eq hlength] at hpks
  obtain ⟨dicts, hdicts, -⟩ := loop.bind_eq_ok_iff.mp hpks
  exact fun rank hrank => loop.exists_ok_of_mapM hdicts rank (List.mem_range.mpr hrank)

section Fitting

variable {sorter : Sorter} {orders : ℕ → HashOrder} (hnul : NulFree file) {word_list_text : Word}
  (hlength : word_list_text.length < 2147483648) {size : ℕ}

include hnul hlength

/-- A run that fits obtains the answer over the words of the carried lines, if
    the indices of the words outside these fit in `int` on the last rank. -/
theorem run_eq_answer (hfits : Fits sorter orders file word_list_text size)
    (hindex : ∀ (i : ℕ) (w : Word), (segments newline word_list_text)[i]? = some w → w ∉ carriedWords file size →
      (size - 1) * (segments newline word_list_text).length + i < 2147483648) :
    run sorter orders file word_list_text size =
      .ok (answer (carriedWords file size) (segments newline word_list_text)) := by
  obtain ⟨pks, hpks, hbytes⟩ := hfits
  obtain ⟨present_global, packs, hpacks, -, hrun, hmask, hmerge⟩ :=
    exists_merge_eq_answer sorter orders hnul hlength (rankDictionary_ok_of_packOnRanks hlength hpks)
  obtain rfl : packs = pks := loop.ok_unique hpacks hpks
  rw [hrun]
  refine hmerge (fun i hi hzero => ?_) hbytes
  have hword := List.getElem?_eq_getElem hi
  exact hindex i _ hword ((hmask i _ hword).mp hzero)

/-- A run that fits obtains the answer, if there are few enough words for all flat
    indices. -/
theorem run_eq_answer_of_mul_lt (hsize : 0 < size)
    (hindex : (segments newline word_list_text).length * size < 2147483648)
    (hfits : Fits sorter orders file word_list_text size) :
    run sorter orders file word_list_text size =
      .ok (answer (carriedWords file size) (segments newline word_list_text)) := by
  refine run_eq_answer hnul hlength hfits fun i w hw _ => ?_
  have hi := (List.getElem?_eq_some_iff.mp hw).1
  exact (flat_lt (Nat.sub_one_lt_of_lt hsize) hi).trans hindex

end Fitting

end Run

end spellcheck.pipeline
