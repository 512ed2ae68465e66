import SpellChecker.Cluster.Report

open blocks checker collective comparator interleaving lines
open spellcheck.candidates spellcheck.dictionary spellcheck.mpi spellcheck.pipeline spellcheck.slice

namespace spellcheck.cluster

section Merge

variable {size : ℕ} {wl : WordList} {present_global : List Byte}

theorem attempt_onRoot_error {β : Type} [Inhabited β] {rank : Fin size} (h : rank.val = 0) {x : Except Fault β}
    {fault : Fault} (hx : x = .error fault) (next : β → Process Payload Outcome) :
    attempt (onRoot rank x) next = .stop (.died fault) := by
  rw [onRoot, if_pos h, hx, attempt]

theorem attempt_onRoot_ok {β : Type} [Inhabited β] {rank : Fin size} (h : rank.val = 0) {x : Except Fault β} {b : β}
    (hx : x = .ok b) (next : β → Process Payload Outcome) : attempt (onRoot rank x) next = next b := by
  rw [onRoot, if_pos h, hx, attempt]

theorem attempt_onRoot_other {β : Type} [Inhabited β] {rank : Fin size} (h : rank.val ≠ 0) (x : Except Fault β)
    (next : β → Process Payload Outcome) : attempt (onRoot rank x) next = next default := by
  rw [onRoot, if_neg h, attempt]

/-- What becomes of another rank behind the gathers, when rank 0 has died: it is
    inside one of the two calls left, or it has finished, which takes an
    `MPI_Finalize` that does not wait for rank 0. -/
def LeftBehind (waiting : Waiting (@reads size)) (s : Fin size → Member Payload Outcome) (rank : Fin size) : Prop :=
  (s rank).InsideCall .MPI_Gatherv ∨ (s rank).InsideCall .MPI_Finalize ∨
    (s rank).process = .stop (.finished none) ∧
      ∀ root : Fin size, root.val = 0 → waiting.waits .MPI_Finalize rank root = false

/-- The merge has failed: rank 0 has died of it. Of the other ranks, those with a
    negative count have died of that, and the rest have nothing left to do but the
    last calls. -/
structure MergeFailed (big : Fin size → Word) (fault : Fault) (p : Fin size → Process Payload Outcome) : Prop where
  root : ∀ rank, rank.val = 0 → p rank = .stop (.died fault)
  negative : ∀ rank, rank.val ≠ 0 → toInt (big rank).length < 0 → p rank = .stop (.died .badCount)
  others : ∀ rank, rank.val ≠ 0 → 0 ≤ toInt (big rank).length →
    ∃ calls ⊆ [.MPI_Gatherv, .MPI_Finalize], .MPI_Finalize ∈ calls ∧ Tail (.finished none) calls (p rank)

/-- When the merge has failed, a run that can go no further has left nothing in
    the output file. -/
theorem MergeFailed.ends {big : Fin size → Word} {fault : Fault} {k m : ℕ} {p p' : Fin size → Process Payload Outcome}
    {waiting : Waiting (@reads size)} {s : Fin size → Member Payload Outcome} (h : MergeFailed big fault p')
    (hadvance : Advances waiting k p p') (hsteps : Steps (GroupStep waiting) m (start p) s)
    (hstuck : Stuck (GroupStep waiting) s) (rank : Fin size) :
    if rank.val = 0 then (s rank).process = .stop (.died fault)
    else if toInt (big rank).length < 0 then (s rank).process = .stop (.died .badCount)
    else LeftBehind waiting s rank := by
  by_cases hroot : rank.val = 0
  · rw [if_pos hroot]
    exact (hadvance.ended (h.root rank hroot) hsteps).1 hstuck
  · rw [if_neg hroot]
    have hnegative := h.negative rank hroot
    have hothers := h.others rank hroot
    generalize toInt (big rank).length = count at hnegative hothers ⊢
    by_cases hcount : count < 0
    · rw [if_pos hcount]
      exact (hadvance.ended (hnegative hcount) hsteps).1 hstuck
    · rw [if_neg hcount]
      obtain ⟨calls, hsub, hlast, htail⟩ := hothers (not_lt.mp hcount)
      rcases hadvance.tail htail (h.root ⟨0, rank.pos⟩ rfl) hsteps hstuck with ⟨op, hop, hinside⟩ | ⟨hended, hfree⟩
      · rcases List.mem_cons.mp (hsub hop) with rfl | hop
        · exact .inl hinside
        · obtain rfl := List.mem_singleton.mp hop
          exact .inr (.inl hinside)
      · refine .inr (.inr ⟨hended, fun root hroot => ?_⟩)
        obtain rfl : root = ⟨0, rank.pos⟩ := Fin.ext hroot
        exact hfree .MPI_Finalize hlast

/-- Another rank hands its own count to the gather, and waits for the end. -/
theorem mergeGathered_other {sorter : Sorter} {rank : Fin size} (h : rank.val ≠ 0) (big : Word)
    (big_bytes off_all len_all : List Int) :
    mergeGathered sorter wl present_global big rank big_bytes off_all len_all =
      attempt (checkCount (toInt big.length)) fun _ =>
        .call .MPI_Gatherv big fun _ => .call .MPI_Finalize () fun _ => .stop (.finished none) := by
  simp only [mergeGathered, attempt_onRoot_other h, if_neg h]

/-- When rank 0 dies before the gather of the packed candidates, the merge has failed. -/
theorem mergeFailed_before {sorter : Sorter} {pk : Fin size → Packed} {big_bytes off_all len_all : List Int}
    {fault : Fault}
    (hroot : ∀ rank : Fin size, rank.val = 0 →
      mergeGathered sorter wl present_global (pk rank).big rank big_bytes off_all len_all = .stop (.died fault)) :
    MergeFailed (fun rank => (pk rank).big) fault fun rank => mergeGathered sorter wl present_global (pk rank).big rank
      (rootValue big_bytes rank) (rootValue off_all rank) (rootValue len_all rank) := by
  refine ⟨fun rank h => ?_, fun rank h hnegative => ?_, fun rank h hcount => ⟨_, List.Subset.refl _, by simp, ?_⟩⟩
  · rw [rootValue_root _ h, rootValue_root _ h, rootValue_root _ h]
    exact hroot rank h
  · rw [mergeGathered_other h, checkCount_of_neg hnegative, attempt]
  · rw [mergeGathered_other h, checkCount_of_nonneg hcount, attempt]
    exact .call fun _ => .call fun _ => .stop

/-- When the merge on rank 0 fails, all ranks come to where it does. -/
theorem advances_mergeGathered_error (waiting : Waiting (@reads size)) (sorter : Sorter) {pk : Fin size → Packed}
    {big_bytes off_all len_all : List Int} {fault : Fault}
    (hbytes : big_bytes = List.ofFn fun rank => toInt (pk rank).big.length)
    (hmerge : (do
      let big_total ← sumBytes big_bytes
      let big_displs ← displacements big_bytes
      let big_recv ← gatherBig (List.ofFn fun rank => (pk rank).big) big_bytes big_displs big_total
      let rank_base ← rankBase big_bytes
      (List.range wl.words.length).foldlM (mergeWord wl present_global size off_all len_all rank_base big_recv) []) =
        .error fault) :
    ∃ k p, Advances waiting k (fun rank => mergeGathered sorter wl present_global (pk rank).big rank
      (rootValue big_bytes rank) (rootValue off_all rank) (rootValue len_all rank)) p ∧
        MergeFailed (fun rank => (pk rank).big) fault p := by
  cases htotal : sumBytes big_bytes with
  | error failure =>
    rw [htotal] at hmerge
    obtain rfl := Except.error.inj hmerge
    refine ⟨0, _, .refl _, mergeFailed_before fun rank h => ?_⟩
    exact attempt_onRoot_error h htotal _
  | ok big_total =>
    rw [htotal, loop.bind_ok] at hmerge
    cases hdispls : displacements big_bytes with
    | error failure =>
      rw [hdispls] at hmerge
      obtain rfl := Except.error.inj hmerge
      refine ⟨0, _, .refl _, mergeFailed_before fun rank h => ?_⟩
      rw [mergeGathered, attempt_onRoot_ok h htotal]
      exact attempt_onRoot_error h hdispls _
    | ok big_displs =>
      rw [hdispls, loop.bind_ok] at hmerge
      by_cases hcounts : ∀ count ∈ big_bytes, 0 ≤ count
      · refine ⟨1, _, advances_onRoot big_total (fun rank h => by rw [rootValue_root _ h, htotal])
          (advances_onRoot big_displs (fun rank h => by rw [rootValue_root _ h, hdispls])
            (advances_gatherv hbytes hcounts (.refl _))),
          fun rank h => ?_, fun rank h hnegative => ?_, fun rank h _ => ⟨[.MPI_Finalize], by simp, by simp, ?_⟩⟩
        · simp only [handedBack_root (.inr rfl) h, rootValue_root _ h]
          cases hrecv : gatherBig (List.ofFn fun rank => (pk rank).big) big_bytes big_displs big_total with
          | error failure =>
            rw [hrecv] at hmerge
            obtain rfl := Except.error.inj hmerge
            exact attempt_onRoot_error h rfl _
          | ok big_recv =>
            rw [hrecv, loop.bind_ok] at hmerge
            rw [attempt_onRoot_ok h rfl]
            exact attempt_onRoot_error h hmerge _
        · have hnonneg := hcounts _ (hbytes ▸ List.mem_ofFn.mpr ⟨rank, rfl⟩)
          exact absurd hnegative (not_lt.mpr hnonneg)
        · simp only [attempt_onRoot_other h, if_neg h]
          exact .call fun _ => .stop
      · have hnegative : ∃ count ∈ big_bytes, count < 0 := by simpa using hcounts
        rw [gatherBig_negative hnegative] at hmerge
        obtain rfl := Except.error.inj hmerge
        refine ⟨0, _, .refl _, mergeFailed_before fun rank h => ?_⟩
        rw [mergeGathered, attempt_onRoot_ok h htotal, attempt_onRoot_ok h hdispls]
        by_cases hown : toInt (pk rank).big.length < 0
        · rw [checkCount_of_neg hown, attempt]
        · rw [checkCount_of_nonneg (not_lt.mp hown), attempt]
          refine attempt_onRoot_error h ?_ _
          rw [forM_checkCount, if_pos hnegative]

/-- The gathers of the offsets and of the lengths succeed. -/
theorem gather_entries (hn : wl.words.length < 2147483648) {pks : List Packed} {entries : Packed → List Int}
    (h : ∀ pk ∈ pks, (entries pk).length = wl.words.length) :
    MPI_Gather (toInt wl.words.length) (pks.map entries) (List.replicate (wl.words.length * pks.length) 0) =
      .ok (pks.map entries).flatten := by
  rw [toInt_of_isInt (isInt_natCast hn)]
  exact MPI_Gather_eq (List.forall_mem_map.mpr h) _ (by simp)

/-- With an offset and a length for every word, a merge that fails does so behind
    their gathers. -/
theorem advances_exchange (waiting : Waiting (@reads size)) (sorter : Sorter) {pk : Fin size → Packed}
    (hn : wl.words.length < 2147483648) (hoff : ∀ rank, (pk rank).off.length = wl.words.length)
    (hlen : ∀ rank, (pk rank).len.length = wl.words.length) {fault : Fault}
    (hmerge : MergePackedAcrossRanks wl present_global (List.ofFn pk) 0 = .error fault) :
    ∃ k p, Advances waiting k (fun rank => mergeAndSave sorter wl present_global (pk rank) rank) p ∧
      MergeFailed (fun rank => (pk rank).big) fault p := by
  have hgather {entries : Packed → List Int} (h : ∀ rank, (entries (pk rank)).length = wl.words.length) :=
    gather_entries hn (List.forall_mem_ofFn_iff.mpr h)
  rw [MergePackedAcrossRanks, if_neg (by simp), hgather hoff, loop.bind_ok, hgather hlen, loop.bind_ok] at hmerge
  simp only [List.length_ofFn, List.map_ofFn, Function.comp_def] at hgather hmerge
  obtain ⟨k, p, hadvance, hfailed⟩ := advances_mergeGathered_error waiting sorter rfl hmerge
  exact ⟨k + 3, p, advances_gathers sorter (hgather hoff) (hgather hlen) hadvance, hfailed⟩

end Merge

section Run

variable {size : ℕ} (sorter : Sorter) (orders : ℕ → HashOrder) (file : Word) {text : Word}

/-- A rank packs one offset and one length for every word. -/
theorem length_entries {wl : WordList} (present_global : List Byte) (dict : Dictionary) :
    (packed (maskedBlocks sorter wl present_global dict)).off.length = wl.words.length ∧
      (packed (maskedBlocks sorter wl present_global dict)).len.length = wl.words.length := by
  simp [packed, maskedBlocks]

/-- When every rank has a line, all of them come to the exchange, with what they
    have packed when they are taken one by one. -/
theorem exists_packs (hlength : text.length < 2147483648) (hlines : ∀ rank < size, HasLine file size rank) :
    ∃ (dict : Fin size → Dictionary) (present_global : List Byte) (pk : Fin size → Packed),
      (∀ rank, load (orders rank.val) (BuildWordList text).root_len (rank_text file size rank.val) = .ok (dict rank)) ∧
      presentGlobal (BuildWordList text) (List.ofFn dict) = .ok present_global ∧
      (∀ rank, (do
        let local_masked ← GetCandidatesLocalMasked sorter (BuildWordList text) (dict rank) present_global
        PackAllCandidates (BuildWordList text) local_masked) = .ok (pk rank)) ∧
      (∀ rank, pk rank = packed (maskedBlocks sorter (BuildWordList text) present_global (dict rank))) ∧
      packOnRanks sorter orders file text size = .ok (List.ofFn pk) ∧
      run sorter orders file text size =
        MergePackedAcrossRanks (BuildWordList text) present_global (List.ofFn pk) 0 := by
  have hloads (rank : Fin size) : ∃ dict,
      load (orders rank.val) (BuildWordList text).root_len (rank_text file size rank.val) = .ok dict := by
    have hload := load_of_hasLine (orders rank.val) (BuildWordList text).root_len file rank.isLt
    rwa [if_pos (hlines rank.val rank.isLt)] at hload
  choose dict hdict using hloads
  obtain ⟨present_global, hpresent, hcount, -⟩ := presentGlobal_spec (length_words_lt hlength) (List.ofFn dict)
  have hpks := secondPass_eq sorter hcount (List.ofFn dict)
  obtain ⟨pk, heq, hpk⟩ := loop.exists_ofFn_of_mapM hpks
  have hdicts : (List.range size).mapM (rankDictionary orders file (BuildWordList text).root_len size) =
      .ok (List.ofFn dict) := by
    rw [← List.map_coe_finRange_eq_range, List.mapM_map, List.ofFn_eq_map]
    apply loop.mapM_ok
    intro rank _
    exact (rankDictionary_eq orders _ rank.isLt).trans (hdict rank)
  refine ⟨dict, present_global, pk, hdict, hpresent, hpk, fun rank => ?_, ?_, ?_⟩
  · rw [List.map_ofFn, List.map_ofFn] at heq
    exact (congrFun (List.ofFn_injective heq) rank).symm
  · rw [packOnRanks_eq hlength, hdicts, loop.bind_ok, hpresent, loop.bind_ok, hpks, heq]
  · rw [run_eq hlength, hdicts, loop.bind_ok, hpresent, loop.bind_ok, hpks, loop.bind_ok, heq]

/-- When the ranks, taken one by one, fail although every rank has a line, all ranks
    come to where the merge fails. -/
theorem advances_run_error {malloc : ℕ → Bool} (waiting : Waiting (@reads size)) (htext : text ≠ [])
    (hmalloc : malloc text.length = true) (hlength : text.length < 2147483648)
    (hlines : ∀ rank < size, HasLine file size rank) {fault : Fault}
    (hrun : run sorter orders file text size = .error fault) :
    ∃ (k : ℕ) (p : Fin size → Process Payload Outcome) (pk : Fin size → Packed),
      packOnRanks sorter orders file text size = .ok (List.ofFn pk) ∧
      Advances waiting k (ranks sorter orders ⟨file, some text, malloc⟩ size) p ∧
      MergeFailed (fun rank => (pk rank).big) fault p := by
  obtain ⟨dict, present_global, pk, hdict, hpresent, hpk, hblocks, hpacks, hmerge⟩ :=
    exists_packs sorter orders file hlength hlines
  rw [hmerge] at hrun
  have hentries (rank : Fin size) : (pk rank).off.length = (BuildWordList text).words.length ∧
      (pk rank).len.length = (BuildWordList text).words.length := by
    rw [hblocks rank]
    exact length_entries sorter present_global (dict rank)
  obtain ⟨k, p, hadvance, hfailed⟩ := advances_exchange waiting sorter (length_words_lt hlength)
    (fun rank => (hentries rank).1) (fun rank => (hentries rank).2) hrun
  exact ⟨k + 1 + 7, p, pk, hpacks, advances_load sorter orders file htext hmalloc hlength
    (advances_attempt hdict (advances_checkWords sorter hpresent hpk hadvance)), hfailed⟩

/-- When the ranks, taken one by one, come to pack anything, every rank has a line. -/
theorem hasLine_of_load (hload : ∀ rank < size, ∃ dict,
    rankDictionary orders file (BuildWordList text).root_len size rank = .ok dict) :
    ∀ rank < size, HasLine file size rank :=
  fun rank hrank => (rankDictionary_eq_ok_iff orders _ hrank).mp (hload rank hrank)

theorem hasLine_of_run (hlength : text.length < 2147483648) {misspelled : Misspelled}
    (hrun : run sorter orders file text size = .ok misspelled) : ∀ rank < size, HasLine file size rank := by
  rw [run_eq hlength] at hrun
  obtain ⟨dicts, hdicts, -⟩ := loop.bind_eq_ok_iff.mp hrun
  exact hasLine_of_load orders file fun rank hrank => loop.exists_ok_of_mapM hdicts rank (List.mem_range.mpr hrank)

end Run

theorem LoadFile_eq_ok_iff {contents : Option Word} {malloc : ℕ → Bool} {text : Word} :
    LoadFile contents malloc = .ok text ↔ contents = some text ∧ text ≠ [] ∧ malloc text.length = true := by
  cases contents with
  | none => simp [LoadFile]
  | some data =>
    have hnil : data.length = 0 ↔ data = [] := List.length_eq_zero_iff
    constructor
    · intro h
      rw [LoadFile] at h
      split at h
      · cases h
      · rename_i hne
        split at h
        · rename_i hmalloc
          obtain rfl := Except.ok.inj h
          exact ⟨rfl, fun hempty => hne (hnil.mpr hempty), hmalloc⟩
        · cases h
    · rintro ⟨hdata, hne, hmalloc⟩
      obtain rfl := Option.some.inj hdata
      rw [LoadFile, if_neg fun hempty => hne (hnil.mp hempty), if_pos hmalloc]

/-- The message-passing program ends as the ranks do when they are taken one by
    one, for every dictionary in which each rank has a line and every word list that
    can be loaded, is not empty and is below `2^31` bytes. No run goes on for ever.
    With a list of misspelled words, all ranks finish with it. With a fault of the
    merge, rank 0 dies of this fault; of the other ranks, those that have packed so
    much that their count is negative die of that, and the rest stay inside one of
    the last two calls, or finish if `MPI_Finalize` does not wait for rank 0. -/
theorem ranks_end_as_run (sorter : Sorter) (orders : ℕ → HashOrder) (file text : Word) (malloc : ℕ → Bool)
    (htext : text ≠ []) (hmalloc : malloc text.length = true) (hlength : text.length < 2147483648) (size : ℕ)
    (hlines : ∀ rank < size, HasLine file size rank) (waiting : Waiting (@reads size)) (m : ℕ)
    (s : Fin size → Member Payload Outcome)
    (hsteps : Steps (GroupStep waiting) m (start (ranks sorter orders ⟨file, some text, malloc⟩ size)) s) :
    (∃ t rest, Steps (GroupStep waiting) rest s t ∧ Stuck (GroupStep waiting) t) ∧
      (Stuck (GroupStep waiting) s →
        (∀ misspelled, run sorter orders file text size = .ok misspelled →
          ∀ rank, (s rank).process = .stop (saved sorter misspelled rank)) ∧
        ∀ fault, run sorter orders file text size = .error fault →
          ∃ pk : Fin size → Packed, packOnRanks sorter orders file text size = .ok (List.ofFn pk) ∧
            ∀ rank : Fin size,
              if rank.val = 0 then (s rank).process = .stop (.died fault)
              else if toInt (pk rank).big.length < 0 then (s rank).process = .stop (.died .badCount)
              else LeftBehind waiting s rank) := by
  refine ⟨exists_stuck (groupStep_wellFounded waiting) s, fun hstuck =>
    ⟨fun misspelled hrun => ?_, fun fault hrun => ?_⟩⟩
  · have hadvance : Advances waiting 13 _ _ := advances_run sorter orders file htext hmalloc hlength hrun
    exact (hadvance.settles hsteps).2.1 hstuck
  · obtain ⟨k, p, pk, hpacks, hadvance, hfailed⟩ :=
      advances_run_error sorter orders file waiting htext hmalloc hlength hlines hrun
    exact ⟨pk, hpacks, hfailed.ends hadvance hsteps hstuck⟩

/-- The word `5` against the lines `1` to `4`, on two ranks. -/
theorem ranks_end_as_run_small : ∃ (s : Fin 2 → Member Payload Outcome) (m : ℕ),
    Steps (GroupStep (.least (@reads 2))) m
      (start (ranks default default ⟨[49, 10, 50, 10, 51, 10, 52, 10], some [53, 10], fun _ => true⟩ 2)) s ∧
    ∀ rank, (s rank).process = .stop (saved default [⟨[53], [[49], [50], [51], [52]]⟩] rank) := by
  have hrun := handled_digits.run_eq default default
  rw [answer_digits] at hrun
  have hlines := hasLine_of_run default default _ (by decide) hrun
  have hends := ranks_end_as_run default default [49, 10, 50, 10, 51, 10, 52, 10] [53, 10] (fun _ => true) (by simp) rfl
    (by decide) 2 hlines (.least reads)
  obtain ⟨s, m, hsteps, hstuck⟩ := (hends 0 _ (.refl _)).1
  exact ⟨s, m, hsteps, ((hends m s hsteps).2 hstuck).1 _ hrun⟩

/-- No run goes on for ever, and rank 0 of one that can go no further has written
    a file exactly when it could load the word list and the ranks, taken one by
    one, obtain a list of misspelled words, and then the bytes of this list. Word
    lists are below `2^31` bytes; apart from that, all files are covered. -/
theorem ranks_write_iff (sorter : Sorter) (orders : ℕ → HashOrder) (inputs : Inputs) (size : ℕ)
    (hlength : ∀ text, inputs.word_list = some text → text.length < 2147483648) (waiting : Waiting (@reads size))
    (m : ℕ) (s : Fin size → Member Payload Outcome)
    (hsteps : Steps (GroupStep waiting) m (start (ranks sorter orders inputs size)) s) :
    (∃ t rest, Steps (GroupStep waiting) rest s t ∧ Stuck (GroupStep waiting) t) ∧
      (Stuck (GroupStep waiting) s → ∀ (root : Fin size) (written : Word), root.val = 0 →
        ((s root).process = .stop (.finished (some written)) ↔
          ∃ text misspelled, LoadFile inputs.word_list inputs.malloc = .ok text ∧
            run sorter orders inputs.dict text size = .ok misspelled ∧
            written = (SaveMisspelled sorter misspelled).2)) := by
  refine ⟨exists_stuck (groupStep_wellFounded waiting) s, fun hstuck root written hroot => ?_⟩
  cases hload : LoadFile inputs.word_list inputs.malloc with
  | error code =>
    have hadvance : Advances waiting 5 _ _ := advances_loading sorter orders inputs hload
    rw [(hadvance.ended (loading_root sorter orders inputs code hroot) hsteps).1 hstuck]
    simp
  | ok text =>
    obtain ⟨hword, htext, hmalloc⟩ := LoadFile_eq_ok_iff.mp hload
    obtain ⟨file, contents, malloc⟩ := inputs
    obtain rfl : contents = some text := hword
    have hshort := hlength text rfl
    by_cases hlines : ∀ rank < size, HasLine file size rank
    · cases hrun : run sorter orders file text size with
      | ok misspelled =>
        have hadvance : Advances waiting 13 _ _ := advances_run sorter orders file htext hmalloc hshort hrun
        rw [(hadvance.settles hsteps).2.1 hstuck root]
        simp [saved, hroot, hrun, eq_comm]
      | error fault =>
        obtain ⟨k, p, pk, -, hadvance, hfailed⟩ :=
          advances_run_error sorter orders file waiting htext hmalloc hshort hlines hrun
        rw [(hadvance.ended (hfailed.root root hroot) hsteps).1 hstuck]
        simp [hrun]
    · have hadvance : Advances waiting 7 _ (checking sorter orders file text) :=
        advances_load sorter orders file htext hmalloc hshort (.refl _)
      have hblocked := blocked_checking sorter orders file text (by simpa using hlines)
      constructor
      · intro hwritten
        obtain ⟨hended, hprocess⟩ := (hadvance.blocks hblocked hsteps).2.2 root _ hwritten
        rw [checking_without_line sorter orders file text (by simpa using hended)] at hprocess
        cases hprocess
      · rintro ⟨loaded, misspelled, hloaded, hrun, -⟩
        obtain rfl := Except.ok.inj hloaded
        exact absurd (hasLine_of_run sorter orders file hshort hrun) hlines

/-- The word `5` against the lines `1` to `4`, on two ranks: rank 0 writes one line. -/
theorem ranks_write_iff_small : ∃ (s : Fin 2 → Member Payload Outcome) (m : ℕ),
    Steps (GroupStep (.least (@reads 2))) m
      (start (ranks default default ⟨[49, 10, 50, 10, 51, 10, 52, 10], some [53, 10], fun _ => true⟩ 2)) s ∧
    (s 0).process = .stop (.finished (some [53, 58, 32, 49, 32, 50, 32, 51, 32, 52, 10])) := by
  have hrun := handled_digits.run_eq default default
  rw [answer_digits] at hrun
  have hwrites := ranks_write_iff default default ⟨[49, 10, 50, 10, 51, 10, 52, 10], some [53, 10], fun _ => true⟩ 2
    (by simp) (.least reads)
  obtain ⟨s, m, hsteps, hstuck⟩ := (hwrites 0 _ (.refl _)).1
  refine ⟨s, m, hsteps, ((hwrites m s hsteps).2 hstuck 0 _ rfl).mpr ⟨[53, 10], _, rfl, hrun, ?_⟩⟩
  rw [SaveMisspelled_singleton]
  decide

end spellcheck.cluster
