import SpellChecker.Cluster.Outcome

open blocks checker collective comparator edit_script interleaving lines
open spellcheck.bk_tree spellcheck.candidates spellcheck.dictionary spellcheck.mpi spellcheck.pipeline spellcheck.slice

namespace spellcheck.cluster

/-- A sum of counts that is no `int` overflows on the way, in whatever order they
    stand. -/
theorem foldlM_checkInt_overflow (counts : List ℕ) {total : ℕ} (htotal : total < 2147483648)
    (hsum : 2147483648 ≤ total + counts.sum) :
    (counts.map Nat.cast).foldlM (fun total b => checkInt (total + b)) (total : Int) = .error .overflow := by
  induction counts generalizing total with
  | nil =>
    rw [List.sum_nil] at hsum
    omega
  | cons b counts ih =>
    rw [List.sum_cons] at hsum
    rw [List.map_cons, List.foldlM_cons, ← Int.natCast_add]
    by_cases hnext : total + b < 2147483648
    · rw [checkInt_of_isInt (isInt_natCast hnext), loop.bind_ok]
      exact ih hnext (by omega)
    · have hnot : ¬ IsInt ((total + b : ℕ) : Int) := fun h => by
        have hlt := h.2
        omega
      rw [checkInt, if_neg hnot]
      rfl

/-- When every rank's count is an `int`, but their sum is none, it overflows on
    rank 0. -/
theorem MergePackedAcrossRanks_overflow {wl : WordList} (present_global : List Byte) {pks : List Packed}
    (hn : wl.words.length < 2147483648) (hoff : ∀ pk ∈ pks, pk.off.length = wl.words.length)
    (hlen : ∀ pk ∈ pks, pk.len.length = wl.words.length) (hrank : ∀ pk ∈ pks, pk.big.length < 2147483648)
    (htotal : 2147483648 ≤ packedBytes pks) :
    MergePackedAcrossRanks wl present_global pks 0 = .error .overflow := by
  have hcounts : (pks.map fun pk => toInt pk.big.length) = (pks.map fun pk => pk.big.length).map Nat.cast := by
    rw [List.map_map]
    exact List.map_congr_left fun pk hpk => toInt_of_isInt (isInt_natCast (hrank pk hpk))
  have hsum : sumBytes (pks.map fun pk => toInt pk.big.length) = .error .overflow := by
    rw [hcounts]
    exact foldlM_checkInt_overflow _ (show 0 < 2147483648 by decide) (by rwa [Nat.zero_add])
  rw [MergePackedAcrossRanks, if_neg (by simp), gather_entries hn hoff, loop.bind_ok, gather_entries hn hlen,
    loop.bind_ok, hsum]
  rfl

section Room

variable {file text : Word} {size : ℕ}

/-- The bytes of a rank's records for a word: none when some rank knows it. -/
def wordRoom (file : Word) (size rank : ℕ) (w : Word) : ℕ :=
  if w ∈ carriedWords file size then 0
  else ∑ u ∈ (dictionaryWords (rank_text file size rank)).filter (OneEdit w), (u.length + 1)

/-- The bytes a rank packs. -/
def packedRoom (file text : Word) (size rank : ℕ) : ℕ := ((segments newline text).map (wordRoom file size rank)).sum

theorem mem_carriedWords_iff {w : Word} :
    w ∈ carriedWords file size ↔ ∃ rank < size, w ∈ dictionaryWords (rank_text file size rank) := by
  rw [← shardWords_rankShards (default : ℕ → HashOrder) 0 size, mem_shardWords]
  simp [rankShards]

/-- What a rank packs, exactly. -/
theorem length_maskedBlocks (sorter : Sorter) {rank : ℕ} {dict : Dictionary} (hready : Ready dict)
    (horig : dict.orig = dictionaryWords (rank_text file size rank)) (hlength : text.length < 2147483648)
    {present_global : List Byte} (hmask : ∀ (i : ℕ) (w : Word), (BuildWordList text).words[i]? = some w →
      (present_global[i]? = some 0 ↔ w ∉ carriedWords file size)) :
    (maskedBlocks sorter (BuildWordList text) present_global dict).flatten.length = packedRoom file text size rank := by
  have hroom : ∀ entry ∈ (BuildWordList text).words.zipIdx,
      (unlines newline (maskedCandidates sorter present_global dict entry)).length =
        (wordRoom file size rank ∘ Prod.fst) entry := by
    rintro ⟨w, i⟩ hentry
    have hat := List.mem_zipIdx_iff_getElem?.mp hentry
    have hw : w ∈ segments newline text := BuildWordList_words text ▸ List.mem_of_getElem? hat
    rw [maskedCandidates, Function.comp_apply, wordRoom]
    by_cases hknown : w ∈ carriedWords file size
    · rw [if_neg fun h => (hmask i w hat).mp h hknown, if_pos hknown]
      rfl
    · rw [if_pos ((hmask i w hat).mpr hknown), if_neg hknown, ← horig]
      exact hready.length_candidates sorter (short_of_mem_segments hlength hw)
  rw [maskedBlocks, List.length_flatten, List.map_map, Function.comp_def, List.map_congr_left hroom, ← List.map_map,
    List.zipIdx_map_fst, BuildWordList_words, packedRoom]

end Room

section Run

variable (sorter : Sorter) (orders : ℕ → HashOrder) {file text : Word} {size : ℕ}

/-- The ranks come to the exchange, and each has packed its room. -/
theorem exists_packs_room (hnul : NulFree file) (hlength : text.length < 2147483648)
    (hlines : ∀ rank < size, HasLine file size rank) :
    ∃ present_global pks, packOnRanks sorter orders file text size = .ok pks ∧
      run sorter orders file text size = MergePackedAcrossRanks (BuildWordList text) present_global pks 0 ∧
      pks.map (fun pk => pk.big.length) = (List.range size).map (packedRoom file text size) ∧
      ∀ pk ∈ pks, pk.off.length = (BuildWordList text).words.length ∧
        pk.len.length = (BuildWordList text).words.length := by
  obtain ⟨dict, present_global, pk, hload, hpresent, -, hblocks, hpacks, hrun⟩ :=
    exists_packs sorter orders file hlength hlines
  obtain ⟨mask, hmask, -, hzero⟩ := presentGlobal_spec (length_words_lt hlength) (List.ofFn dict)
  obtain rfl := loop.ok_unique hmask hpresent
  have hready (rank : Fin size) :
      Ready (dict rank) ∧ (dict rank).orig = dictionaryWords (rank_text file size rank.val) :=
    load_ready (nulFree_rank_text hnul) (short_rank_text rank.isLt) (hload rank)
  have hunknown (i : ℕ) (w : Word) (hw : (BuildWordList text).words[i]? = some w) :
      mask[i]? = some 0 ↔ w ∉ carriedWords file size := by
    rw [hzero i w hw, List.forall_mem_ofFn_iff, mem_carriedWords_iff]
    simp [Dictionary.Contains, (hready _).2, Fin.forall_iff]
  refine ⟨_, _, hpacks, hrun, ?_, List.forall_mem_ofFn_iff.mpr fun rank => ?_⟩
  · rw [List.map_ofFn, ← List.map_coe_finRange_eq_range, List.map_map, List.ofFn_eq_map]
    apply List.map_congr_left
    intro rank _
    rw [Function.comp_apply, hblocks]
    exact length_maskedBlocks sorter (hready rank).1 (hready rank).2 hlength hunknown
  · rw [hblocks]
    exact length_entries sorter _ (dict rank)

end Run

/-- `n` times the word `5`. -/
def fives (n : ℕ) : Word := unlines newline (List.replicate n [53])

theorem length_fives (n : ℕ) : (fives n).length = 2 * n := by
  simp [fives, length_unlines, Nat.mul_comm]

theorem segments_fives (n : ℕ) : segments newline (fives n) = List.replicate n [53] := by
  rw [fives, segments_unlines fun l hl => by simp [List.eq_of_mem_replicate hl, newline], List.filter_eq_self]
  intro l hl
  simp [List.eq_of_mem_replicate hl]

/-- Each of two ranks with the lines `1` to `4` packs two candidates for every word. -/
theorem packedRoom_fives (n : ℕ) :
    ∀ rank < 2, packedRoom [49, 10, 50, 10, 51, 10, 52, 10] (fives n) 2 rank = n * 4 := by
  have hword : ∀ rank < 2, wordRoom [49, 10, 50, 10, 51, 10, 52, 10] 2 rank [53] = 4 := by decide +kernel
  intro rank hrank
  rw [packedRoom, segments_fives, List.map_replicate, List.sum_replicate, hword rank hrank, smul_eq_mul]

/-- The sizes of what the ranks pack decide, when every rank has a line and the word
    list can be loaded. When each of them alone is an `int` and so is their sum, all
    ranks finish, with the answer on rank 0; when the sum is none, it overflows there,
    and every other rank stays inside one of the last two calls, or finishes if
    `MPI_Finalize` does not wait for rank 0. -/
theorem ranks_finish_or_overflow (sorter : Sorter) (orders : ℕ → HashOrder) (file text : Word) (malloc : ℕ → Bool)
    (hnul : NulFree file) (htext : text ≠ []) (hmalloc : malloc text.length = true)
    (hlength : text.length < 2147483648) (size : ℕ) (hindex : (segments newline text).length * size < 2147483648)
    (hlines : ∀ rank < size, HasLine file size rank)
    (hrank : ∀ rank < size, packedRoom file text size rank < 2147483648) (waiting : Waiting (@reads size)) (m : ℕ)
    (s : Fin size → Member Payload Outcome)
    (hsteps : Steps (GroupStep waiting) m (start (ranks sorter orders ⟨file, some text, malloc⟩ size)) s) :
    (∃ t rest, Steps (GroupStep waiting) rest s t ∧ Stuck (GroupStep waiting) t) ∧
      (Stuck (GroupStep waiting) s →
        if ((List.range size).map (packedRoom file text size)).sum < 2147483648 then
          ∀ rank, (s rank).process =
            .stop (saved sorter (answer (carriedWords file size) (segments newline text)) rank)
        else ∀ rank : Fin size,
          if rank.val = 0 then (s rank).process = .stop (.died .overflow) else LeftBehind waiting s rank) := by
  obtain ⟨present_global, pks, hpacks, hmerge, hrooms, hentries⟩ :=
    exists_packs_room sorter orders hnul hlength hlines
  have hcount : ∀ pk ∈ pks, pk.big.length < 2147483648 := by
    intro pk hpk
    have hmem := List.mem_map_of_mem (f := fun pk => pk.big.length) hpk
    rw [hrooms] at hmem
    obtain ⟨rank, hlt, heq⟩ := List.mem_map.mp hmem
    exact heq ▸ hrank rank (List.mem_range.mp hlt)
  refine ⟨exists_stuck (groupStep_wellFounded waiting) s, fun hstuck => ?_⟩
  rw [← hrooms]
  split
  · rename_i htotal
    intro rank
    have hrun := run_eq_answer_of_mul_lt hnul hlength rank.pos hindex ⟨pks, hpacks, htotal⟩
    have hadvance : Advances waiting 13 _ _ := advances_run sorter orders file htext hmalloc hlength hrun
    exact (hadvance.settles hsteps).2.1 hstuck rank
  · rename_i htotal
    have hrun : run sorter orders file text size = .error .overflow := by
      rw [hmerge]
      exact MergePackedAcrossRanks_overflow present_global (length_words_lt hlength) (fun pk hpk => (hentries pk hpk).1)
        (fun pk hpk => (hentries pk hpk).2) hcount (not_lt.mp htotal)
    obtain ⟨k, p, pk, hpks, hadvance, hfailed⟩ :=
      advances_run_error sorter orders file waiting htext hmalloc hlength hlines hrun
    intro rank
    have hown : ¬ toInt (pk rank).big.length < 0 := by
      obtain rfl := loop.ok_unique hpacks hpks
      rw [toInt_of_isInt (isInt_natCast (hcount _ (List.mem_ofFn.mpr ⟨rank, rfl⟩)))]
      omega
    have hend := hfailed.ends hadvance hsteps hstuck rank
    rwa [if_neg hown] at hend

/-- Two ranks that pack `2^30` bytes each. -/
theorem ranks_finish_or_overflow_small : ∃ (s : Fin 2 → Member Payload Outcome) (m : ℕ),
    Steps (GroupStep (.least (@reads 2))) m
      (start (ranks default default ⟨[49, 10, 50, 10, 51, 10, 52, 10], some (fives 268435456), fun _ => true⟩ 2)) s ∧
    (s 0).process = .stop (.died .overflow) ∧ LeftBehind (.least (@reads 2)) s 1 := by
  generalize hn : 268435456 = n
  have hlength := length_fives n
  have hroom := packedRoom_fives n
  have htext : fives n ≠ [] := by
    rw [← List.length_pos_iff]
    omega
  have hindex : (segments newline (fives n)).length * 2 < 2147483648 := by
    rw [segments_fives, List.length_replicate]
    omega
  have hrank : ∀ rank < 2, packedRoom [49, 10, 50, 10, 51, 10, 52, 10] (fives n) 2 rank < 2147483648 := by
    intro rank hrank
    have heq := hroom rank hrank
    omega
  have hends := ranks_finish_or_overflow default default [49, 10, 50, 10, 51, 10, 52, 10] (fives n) (fun _ => true)
    (by simp [NulFree]) htext rfl (by omega) 2 hindex (by decide +kernel) hrank (.least reads)
  obtain ⟨s, m, hsteps, hstuck⟩ := (hends 0 _ (.refl _)).1
  have hend := (hends m s hsteps).2 hstuck
  have htotal : ((List.range 2).map (packedRoom [49, 10, 50, 10, 51, 10, 52, 10] (fives n) 2)).sum = n * 4 + n * 4 := by
    simp [List.range_succ, hroom]
  rw [if_neg (by omega)] at hend
  exact ⟨s, m, hsteps, hend 0, hend 1⟩

end spellcheck.cluster
