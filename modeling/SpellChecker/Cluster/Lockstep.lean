import SpellChecker.Candidates.Save
import SpellChecker.Cluster.Basic
import SpellChecker.Pipeline.Bounds

open checker collective comparator edit_script interleaving lines
open spellcheck.bk_tree spellcheck.candidates spellcheck.dictionary spellcheck.mpi spellcheck.pipeline spellcheck.slice

namespace spellcheck.cluster

section HandedBack

variable {size : ℕ} {op : Call}

theorem filter_root (rank : Fin size) :
    (List.finRange size).filter (fun peer => decide (peer.val = 0)) = [⟨0, rank.pos⟩] := by
  cases size with
  | zero => exact rank.elim0
  | succ size => simp [List.finRange_succ, List.filter_map, Function.comp_def]

/-- A broadcast hands every rank the contribution of rank 0. -/
theorem handedBack_bcast (datatype : Datatype) (contribution : Fin size → Payload (.MPI_Bcast datatype))
    (rank : Fin size) :
    handedBack reads (.MPI_Bcast datatype) contribution rank = [contribution ⟨0, rank.pos⟩] := by
  have hfilter : (List.finRange size).filter (reads (.MPI_Bcast datatype) rank) = [⟨0, rank.pos⟩] := filter_root rank
  rw [handedBack, hfilter, List.map_singleton]

/-- A call that reads every rank hands back the contributions in rank order. -/
theorem handedBack_all {contribution : Fin size → Payload op} {rank : Fin size}
    (h : ∀ peer, reads op rank peer = true) : handedBack reads op contribution rank = List.ofFn contribution := by
  rw [handedBack, List.filter_eq_self.mpr fun peer _ => h peer, List.ofFn_eq_map]

end HandedBack

section Stages

variable {size : ℕ} {waiting : Waiting (@reads size)} {k : ℕ} {p : Fin size → Process Payload Outcome}

/-- Local computations that succeed on all ranks. -/
theorem advances_attempt {β : Type} {x : Fin size → Except Fault β} {result : Fin size → β}
    {next : Fin size → β → Process Payload Outcome} (hx : ∀ rank, x rank = .ok (result rank))
    (h : Advances waiting k (fun rank => next rank (result rank)) p) :
    Advances waiting k (fun rank => attempt (x rank) (next rank)) p := by
  simpa only [hx, attempt] using h

/-- What rank 0 computes, and the initial value elsewhere. -/
def rootValue {β : Type} [Inhabited β] (b : β) (rank : Fin size) : β := if rank.val = 0 then b else default

theorem rootValue_root {β : Type} [Inhabited β] (b : β) {rank : Fin size} (h : rank.val = 0) :
    rootValue b rank = b :=
  if_pos h

/-- A computation that succeeds on rank 0, where alone it is made. -/
theorem advances_onRoot {β : Type} [Inhabited β] {x : Fin size → Except Fault β} (b : β)
    {next : Fin size → β → Process Payload Outcome} (hx : ∀ rank : Fin size, rank.val = 0 → x rank = .ok b)
    (h : Advances waiting k (fun rank => next rank (rootValue b rank)) p) :
    Advances waiting k (fun rank => attempt (onRoot rank (x rank)) (next rank)) p := by
  refine advances_attempt (fun rank => ?_) h
  unfold onRoot rootValue
  split
  · rename_i hroot
    exact hx rank hroot
  · rfl

/-- What a rank has written to the output file in the end. -/
def saved (sorter : Sorter) (misspelled : Misspelled) (rank : Fin size) : Outcome :=
  .finished (if rank.val = 0 then some (SaveMisspelled sorter misspelled).2 else none)

theorem MPI_Gather_counts (counts : Fin size → Int) :
    MPI_Gather 1 (List.ofFn fun rank => [counts rank]) (List.replicate size 0) = .ok (List.ofFn counts) := by
  have hlength : ∀ b ∈ List.ofFn fun rank => [counts rank], b.length = 1 := by
    intro b hb
    obtain ⟨rank, rfl⟩ := List.mem_ofFn.mp hb
    rfl
  have hgather := MPI_Gather_eq hlength (List.replicate size 0) (by simp)
  have hflatten : (List.ofFn fun rank => [counts rank]).flatten = List.ofFn counts := by
    rw [List.ofFn_eq_map, List.ofFn_eq_map, ← List.flatMap_def, List.map_eq_flatMap]
  rw [hflatten] at hgather
  exact hgather

/-- A gather hands rank 0 the contributions of all ranks. -/
theorem handedBack_root {op : Call} (hop : op = .MPI_Gather ∨ op = .MPI_Gatherv) {contribution : Fin size → Payload op}
    {rank : Fin size} (h : rank.val = 0) : handedBack reads op contribution rank = List.ofFn contribution := by
  apply handedBack_all
  rcases hop with rfl | rfl <;> simp [reads, h]

/-- The gathers of the counts, the offsets and the lengths, as all ranks see them. -/
theorem advances_gathers (sorter : Sorter) {wl : WordList} {present_global : List Byte} {pk : Fin size → Packed}
    {off_all len_all : List Int}
    (hoff : MPI_Gather (toInt wl.words.length) (List.ofFn fun rank => (pk rank).off)
      (List.replicate (wl.words.length * size) 0) = .ok off_all)
    (hlen : MPI_Gather (toInt wl.words.length) (List.ofFn fun rank => (pk rank).len)
      (List.replicate (wl.words.length * size) 0) = .ok len_all)
    (h : Advances waiting k (fun rank => mergeGathered sorter wl present_global (pk rank).big rank
      (rootValue (List.ofFn fun rank => toInt (pk rank).big.length) rank) (rootValue off_all rank)
      (rootValue len_all rank)) p) :
    Advances waiting (k + 3) (fun rank => mergeAndSave sorter wl present_global (pk rank) rank) p := by
  apply Advances.call
  refine advances_onRoot (List.ofFn fun rank => toInt (pk rank).big.length) (fun rank hroot => ?_) ?_
  · rw [handedBack_root (.inl rfl) hroot]
    exact MPI_Gather_counts _
  apply Advances.call
  refine advances_onRoot off_all (fun rank hroot => ?_) ?_
  · rw [handedBack_root (.inl rfl) hroot]
    exact hoff
  apply Advances.call
  refine advances_onRoot len_all (fun rank hroot => ?_) h
  rw [handedBack_root (.inl rfl) hroot]
  exact hlen

/-- A gather that is handed a negative count fails. -/
theorem gatherBig_negative {sends : List Word} {big_bytes big_displs : List Int} {big_total : Int}
    (h : ∃ count ∈ big_bytes, count < 0) : gatherBig sends big_bytes big_displs big_total = .error .badCount := by
  have hgather (recv : Word) : MPI_Gatherv sends big_bytes big_displs recv = .error .badCount := by
    rw [MPI_Gatherv, forM_checkCount, if_pos h]
    rfl
  rw [gatherBig, hgather, hgather]
  split
  · rfl
  · rfl

theorem nonneg_of_gatherBig {sends : List Word} {big_bytes big_displs : List Int} {big_total : Int} {big_recv : Word}
    (h : gatherBig sends big_bytes big_displs big_total = .ok big_recv) : ∀ count ∈ big_bytes, 0 ≤ count := by
  by_contra! hnegative
  rw [gatherBig_negative hnegative] at h
  cases h

/-- Where no count is negative, all ranks enter the gather of the packed candidates. -/
theorem advances_gatherv {big : Fin size → Word} {big_bytes : List Int}
    (hbytes : big_bytes = List.ofFn fun rank => toInt (big rank).length) (hcounts : ∀ count ∈ big_bytes, 0 ≤ count)
    {next : Fin size → List (Payload .MPI_Gatherv) → Process Payload Outcome}
    (h : Advances waiting k (fun rank => next rank (handedBack reads .MPI_Gatherv big rank)) p) :
    Advances waiting (k + 1) (fun rank => attempt (checkCount (toInt (big rank).length)) fun _ =>
      attempt (onRoot rank ((rootValue big_bytes rank).forM checkCount)) fun _ =>
      .call .MPI_Gatherv (big rank) (next rank)) p := by
  refine advances_attempt (fun rank => checkCount_of_nonneg (hcounts _ ?_)) ?_
  · rw [hbytes]
    exact List.mem_ofFn.mpr ⟨rank, rfl⟩
  refine advances_onRoot () (fun rank hroot => ?_) (.call h)
  rw [rootValue_root _ hroot, forM_checkCount, if_neg]
  rintro ⟨count, hcount, hnegative⟩
  exact absurd (hcounts count hcount) (not_le.mpr hnegative)

/-- The exchange of the packed candidates, as all ranks see it, when the merge
    on rank 0 returns a list. -/
theorem advances_mergeAndSave (sorter : Sorter) {wl : WordList} {present_global : List Byte}
    {pk : Fin size → Packed} {misspelled : Misspelled}
    (hmerge : MergePackedAcrossRanks wl present_global (List.ofFn pk) 0 = .ok misspelled) :
    Advances waiting 5 (fun rank => mergeAndSave sorter wl present_global (pk rank) rank)
      fun rank => .stop (saved sorter misspelled rank) := by
  rw [MergePackedAcrossRanks, if_neg (by simp), List.length_ofFn, List.map_ofFn, List.map_ofFn, List.map_ofFn,
    List.map_ofFn] at hmerge
  simp only [Function.comp_def] at hmerge
  obtain ⟨off_all, hoff, hmerge⟩ := loop.bind_eq_ok_iff.mp hmerge
  obtain ⟨len_all, hlen, hmerge⟩ := loop.bind_eq_ok_iff.mp hmerge
  obtain ⟨big_total, htotal, hmerge⟩ := loop.bind_eq_ok_iff.mp hmerge
  obtain ⟨big_displs, hdispls, hmerge⟩ := loop.bind_eq_ok_iff.mp hmerge
  obtain ⟨big_recv, hrecv, hmerge⟩ := loop.bind_eq_ok_iff.mp hmerge
  apply advances_gathers sorter hoff hlen
  refine advances_onRoot big_total (fun rank h => ?_) ?_
  · rw [rootValue_root _ h]
    exact htotal
  refine advances_onRoot big_displs (fun rank h => ?_) ?_
  · rw [rootValue_root _ h]
    exact hdispls
  refine advances_gatherv rfl (nonneg_of_gatherBig hrecv) ?_
  refine advances_onRoot big_recv (fun rank h => ?_) ?_
  · rw [handedBack_root (.inr rfl) h, rootValue_root _ h, rootValue_root _ h, rootValue_root _ h]
    exact hrecv
  refine advances_onRoot misspelled (fun rank h => ?_) ?_
  · rw [rootValue_root _ h, rootValue_root _ h, rootValue_root _ h, rootValue_root _ h]
    exact hmerge
  apply Advances.call
  have hsaved (rank : Fin size) : (.stop (.finished (if rank.val = 0 then
      some (SaveMisspelled sorter (rootValue misspelled rank)).2 else none)) : Process Payload Outcome) =
      .stop (saved sorter misspelled rank) := by
    unfold saved
    split
    · rename_i h
      rw [rootValue_root _ h]
    · rfl
  simp only [hsaved]
  exact .refl _

/-- The two passes on all ranks. -/
theorem advances_checkWords (sorter : Sorter) {wl : WordList} {dict : Fin size → Dictionary}
    {present_global : List Byte} (hpresent : presentGlobal wl (List.ofFn dict) = .ok present_global)
    {pk : Fin size → Packed}
    (hpk : ∀ rank, (do
      let local_masked ← GetCandidatesLocalMasked sorter wl (dict rank) present_global
      PackAllCandidates wl local_masked) = .ok (pk rank))
    (h : Advances waiting k (fun rank => mergeAndSave sorter wl present_global (pk rank) rank) p) :
    Advances waiting (k + 1) (fun rank => checkWords sorter wl (dict rank) rank) p := by
  choose local_masked hmasked hpack using fun rank => loop.bind_eq_ok_iff.mp (hpk rank)
  rw [presentGlobal, List.map_ofFn] at hpresent
  apply Advances.call
  refine advances_attempt (fun rank => ?_) (advances_attempt hmasked (advances_attempt hpack h))
  rw [handedBack_all fun peer => rfl]
  exact hpresent

/-- The broadcasts give every rank the word list that rank 0 has loaded. -/
theorem advances_shareWordList (sorter : Sorter) (orders : ℕ → HashOrder) (slices : Fin size → Word) {text : Word}
    (hlength : text.length < 2147483648) {loaded : Fin size → Word}
    (hloaded : ∀ rank : Fin size, rank.val = 0 → loaded rank = text)
    (h : Advances waiting k (fun rank =>
      attempt (load (orders rank.val) (BuildWordList text).root_len (slices rank)) fun dict =>
        checkWords sorter (BuildWordList text) dict rank) p) :
    Advances waiting (k + 2)
      (fun rank => shareWordList sorter (orders rank.val) (slices rank) rank (loaded rank)) p := by
  have hzero (hpos : 0 < size) : loaded ⟨0, hpos⟩ = text := hloaded _ rfl
  have hcount : toInt (text.length : Int) = text.length := toInt_of_isInt (isInt_natCast hlength)
  apply Advances.call
  simp only [handedBack_bcast, hzero, List.headD_cons]
  apply Advances.call
  refine advances_attempt (fun rank => ?_) h
  have hbuf : (if rank.val ≠ 0 then List.replicate text.length 0 else loaded rank).length = text.length := by
    split
    · rw [List.length_replicate]
    · rename_i hroot
      rw [hloaded rank (not_not.mp hroot)]
  rw [handedBack_bcast, List.headD_cons, MPI_Bcast, hcount, if_neg (by omega), Int.toNat_natCast]
  simp only [ne_eq, not_true, if_false, hzero]
  rw [List.take_length, List.drop_eq_nil_of_le hbuf.le, List.append_nil]

/-- What comes before the word list: the size of the dictionary, and its slices. -/
theorem advances_ranks (sorter : Sorter) (orders : ℕ → HashOrder) (inputs : Inputs)
    (h : Advances waiting k (fun rank : Fin size =>
      match if rank.val = 0 then LoadFile inputs.word_list inputs.malloc else .ok [] with
      | .error code => .stop (.exited code)
      | .ok loaded => shareWordList sorter (orders rank.val) (rank_text inputs.dict size rank.val) rank loaded) p) :
    Advances waiting (k + 5) (ranks sorter orders inputs size) p := by
  apply Advances.call
  apply Advances.call
  apply Advances.call
  simp only [handedBack_bcast, List.headD_cons]
  apply Advances.call
  apply Advances.call
  exact advances_attempt (fun rank => read_rank_slice rank.isLt) h

theorem LoadFile_onRoot {text : Word} {malloc : ℕ → Bool} (htext : text ≠ []) (hmalloc : malloc text.length = true)
    (rank : Fin size) :
    (if rank.val = 0 then LoadFile (some text) malloc else .ok []) = .ok (rootValue text rank) := by
  unfold rootValue
  split
  · simp [LoadFile, htext, hmalloc]
  · rfl

/-- What is left to do when all ranks have the word list: each builds its
    dictionary, which may kill it, and checks the words. -/
def checking (sorter : Sorter) (orders : ℕ → HashOrder) (file text : Word) (rank : Fin size) :
    Process Payload Outcome :=
  attempt (load (orders rank.val) (BuildWordList text).root_len (rank_text file size rank.val)) fun dict =>
    checkWords sorter (BuildWordList text) dict rank

/-- When the word list can be loaded, all ranks come to build their dictionaries. -/
theorem advances_load (sorter : Sorter) (orders : ℕ → HashOrder) (file : Word) {text : Word} {malloc : ℕ → Bool}
    (htext : text ≠ []) (hmalloc : malloc text.length = true) (hlength : text.length < 2147483648)
    (h : Advances waiting k (checking sorter orders file text) p) :
    Advances waiting (k + 7) (ranks sorter orders ⟨file, some text, malloc⟩ size) p := by
  apply advances_ranks
  simp only [LoadFile_onRoot htext hmalloc]
  exact advances_shareWordList sorter orders _ hlength (fun rank h => rootValue_root text h) h

/-- When the word list can be loaded and the ranks, taken one by one, obtain a list
    of misspelled words, they all come to their end with it. -/
theorem advances_run (sorter : Sorter) (orders : ℕ → HashOrder) (file : Word) {text : Word} {malloc : ℕ → Bool}
    (htext : text ≠ []) (hmalloc : malloc text.length = true) (hlength : text.length < 2147483648)
    {misspelled : Misspelled} (hrun : run sorter orders file text size = .ok misspelled) :
    Advances waiting 13 (ranks sorter orders ⟨file, some text, malloc⟩ size) fun rank =>
      .stop (saved sorter misspelled rank) := by
  rw [run_eq hlength] at hrun
  obtain ⟨dicts, hdicts, hrun⟩ := loop.bind_eq_ok_iff.mp hrun
  obtain ⟨present_global, hpresent, hrun⟩ := loop.bind_eq_ok_iff.mp hrun
  obtain ⟨pks, hpks, hmerge⟩ := loop.bind_eq_ok_iff.mp hrun
  rw [← List.map_coe_finRange_eq_range, ← List.ofFn_eq_map] at hdicts
  obtain ⟨dict, rfl, hdict⟩ := loop.exists_ofFn_of_mapM hdicts
  obtain ⟨pk, rfl, hpk⟩ := loop.exists_ofFn_of_mapM hpks
  apply advances_load sorter orders file htext hmalloc hlength
  refine advances_attempt (fun rank => ?_)
    (advances_checkWords sorter hpresent hpk (advances_mergeAndSave sorter hmerge))
  rw [← rankDictionary_eq orders _ rank.isLt]
  exact hdict rank

end Stages

/-- Every run of the ranks of `main`, whichever the order of their steps and
    whatever collective calls wait for beyond the data they hand back: when the
    word list can be loaded and the ranks, taken one by one, obtain a list of
    misspelled words, then no run deadlocks, none takes more than 26 steps for
    each rank, and at its end every rank has returned and rank 0 has written the
    bytes of this list. Nobody ends in another way on the way there. -/
theorem ranks_write_run (sorter : Sorter) (orders : ℕ → HashOrder) (file text : Word) (malloc : ℕ → Bool)
    (htext : text ≠ []) (hmalloc : malloc text.length = true) (hlength : text.length < 2147483648) (size : ℕ)
    (misspelled : Misspelled) (hrun : run sorter orders file text size = .ok misspelled)
    (waiting : Waiting (@reads size)) (m : ℕ) (s : Fin size → Member Payload Outcome)
    (hsteps : Steps (GroupStep waiting) m (start (ranks sorter orders ⟨file, some text, malloc⟩ size)) s) :
    (∃ t rest, 26 * size = m + rest ∧ Steps (GroupStep waiting) rest s t ∧
        ∀ rank, (t rank).process = .stop (saved sorter misspelled rank)) ∧
      (Stuck (GroupStep waiting) s → ∀ rank, (s rank).process = .stop (saved sorter misspelled rank)) ∧
      ∀ rank outcome, (s rank).process = .stop outcome → outcome = saved sorter misspelled rank := by
  have hadvance : Advances waiting 13 _ _ := advances_run sorter orders file htext hmalloc hlength hrun
  obtain ⟨⟨t, rest, hcount, hrest, hend⟩, hstuck, hstopped⟩ := hadvance.settles hsteps
  exact ⟨⟨t, rest, by omega, hrest, hend⟩, hstuck, hstopped⟩

theorem answer_four_digits :
    answer {[49], [50], [51], [52]} [[53]] = [⟨[53], [[49], [50], [51], [52]]⟩] := by
  have hneighbours : neighbours OneEdit ({[49], [50], [51], [52]} : Finset Word) [53] = [[49], [50], [51], [52]] := by
    refine (eq_neighbours (by decide) ?_).symm
    intro u
    simp only [Finset.mem_insert, Finset.mem_singleton, List.mem_cons, List.not_mem_nil, or_false, iff_self_and]
    rintro (rfl | rfl | rfl | rfl) <;> decide
  simp [answer, check, hneighbours]

/-- The lines `1` to `4` on two ranks, each of which has two neighbours of the
    word `5`. -/
theorem ranks_write_run_small : ∃ s,
    Steps (GroupStep (.least (@reads 2))) 52
      (start (ranks default default ⟨[49, 10, 50, 10, 51, 10, 52, 10], some [53], fun _ => true⟩ 2)) s ∧
    (s 0).process = .stop (.finished (some [53, 58, 32, 49, 32, 50, 32, 51, 32, 52, 10])) ∧
    (s 1).process = .stop (.finished none) := by
  have hnul : NulFree [49, 10, 50, 10, 51, 10, 52, 10] := by simp [NulFree]
  have hwords : segments newline [53] = [[53]] := by decide
  have hcarried : carriedWords [49, 10, 50, 10, 51, 10, 52, 10] 2 = {[49], [50], [51], [52]} := by decide +kernel
  have hfits : Fits default default [49, 10, 50, 10, 51, 10, 52, 10] [53] 2 :=
    fits_of_length default default hnul (by decide +kernel) (by decide) (by decide)
  have hrun := run_eq_answer_of_mul_lt hnul (by decide) (by decide) (by rw [hwords]; decide) hfits
  rw [hwords, hcarried, answer_four_digits] at hrun
  obtain ⟨⟨s, rest, hcount, hsteps, hend⟩, -⟩ := ranks_write_run default default _ [53] (fun _ => true)
    (by simp) rfl (by decide) 2 _ hrun (.least reads) 0 _ (.refl _)
  obtain rfl : rest = 52 := by omega
  refine ⟨s, hsteps, ?_, ?_⟩
  · rw [hend]
    simp [saved, SaveMisspelled_singleton, lineBytes]
  · rw [hend]
    rfl

end spellcheck.cluster
