import SpellChecker.Cluster.Lockstep

open collective comparator interleaving lines
open spellcheck.dictionary spellcheck.pipeline spellcheck.slice

namespace spellcheck.cluster

/-- Some non-empty line of the dictionary file reaches the rank. -/
def HasLine (file : Word) (size rank : ℕ) : Prop :=
  ∃ entry ∈ spans newline 0 file, entry.2 ≠ [] ∧ Reaches file size rank entry

instance (file : Word) (size rank : ℕ) : Decidable (HasLine file size rank) :=
  inferInstanceAs (Decidable (∃ _ ∈ _, _))

theorem load_of_hasLine (order : HashOrder) (root_len : ℕ) (file : Word) {size rank : ℕ} (hrank : rank < size) :
    if HasLine file size rank then ∃ dict, load order root_len (rank_text file size rank) = .ok dict
    else load order root_len (rank_text file size rank) = .error .dictionaryEmpty := by
  have hsegments := @segments_rank_text_ne_nil_iff file size rank hrank
  split
  · rename_i h
    exact (load_eq_ok_iff order root_len _).mpr (hsegments.mpr h)
  · rename_i h
    exact load_empty (not_not.mp fun hne => h (hsegments.mp hne)) order root_len

section Checking

variable {size : ℕ} (sorter : Sorter) (orders : ℕ → HashOrder) (file text : Word)

theorem checking_without_line {rank : Fin size} (h : ¬ HasLine file size rank) :
    checking sorter orders file text rank = .stop (.died .dictionaryEmpty) := by
  have hload := load_of_hasLine (orders rank.val) (BuildWordList text).root_len file rank.isLt
  rw [if_neg h] at hload
  rw [checking, hload, attempt]

theorem checking_with_line {rank : Fin size} (h : HasLine file size rank) :
    ∃ contribution resume, checking sorter orders file text rank = .call .MPI_Allreduce contribution resume := by
  have hload := load_of_hasLine (orders rank.val) (BuildWordList text).root_len file rank.isLt
  rw [if_pos h] at hload
  obtain ⟨dict, hdict⟩ := hload
  rw [checking, hdict, attempt]
  exact ⟨_, _, rfl⟩

/-- A rank without a line blocks the reduction of all others. -/
theorem blocked_checking (hempty : ∃ rank < size, ¬ HasLine file size rank) :
    Blocked reads .MPI_Allreduce (fun rank : Fin size => !decide (HasLine file size rank))
      (checking sorter orders file text) := by
  obtain ⟨empty, hlt, hnone⟩ := hempty
  refine ⟨fun rank h => ⟨_, checking_without_line sorter orders file text (by simpa using h)⟩,
    fun rank h => checking_with_line sorter orders file text (by simpa using h), fun rank _ => ?_⟩
  exact ⟨⟨empty, hlt⟩, rfl, by simpa using hnone⟩

end Checking

/-- When no non-empty line of the dictionary reaches some rank, no run of the
    ranks finishes on any rank: whatever the order of the steps, the ranks
    without a line die of the exception, all others end up inside the reduction,
    and nobody gets past it, so the output file is never written. -/
theorem ranks_block_at_reduction (sorter : Sorter) (orders : ℕ → HashOrder) (file text : Word) (malloc : ℕ → Bool)
    (htext : text ≠ []) (hmalloc : malloc text.length = true) (hlength : text.length < 2147483648) (size : ℕ)
    (hempty : ∃ rank < size, ¬ HasLine file size rank) (waiting : Waiting (@reads size)) (m : ℕ)
    (s : Fin size → Member Payload Outcome)
    (hsteps : Steps (GroupStep waiting) m (start (ranks sorter orders ⟨file, some text, malloc⟩ size)) s) :
    (∃ t rest, m + rest ≤ 15 * size ∧ Steps (GroupStep waiting) rest s t ∧ Stuck (GroupStep waiting) t) ∧
      (Stuck (GroupStep waiting) s → ∀ rank : Fin size,
        if HasLine file size rank then (s rank).InsideCall .MPI_Allreduce
        else (s rank).process = .stop (.died .dictionaryEmpty)) ∧
      ∀ (rank : Fin size) (outcome : Outcome), (s rank).process = .stop outcome →
        ¬ HasLine file size rank ∧ outcome = .died .dictionaryEmpty := by
  have hadvance : Advances waiting 7 _ (checking sorter orders file text) :=
    advances_load sorter orders file htext hmalloc hlength (.refl _)
  have hblocked := blocked_checking sorter orders file text hempty
  obtain ⟨⟨t, rest, hcount, hrest, hend⟩, hstuck, hstopped⟩ := hadvance.blocks hblocked hsteps
  refine ⟨⟨t, rest, by omega, hrest, hend⟩, fun hs rank => ?_, fun rank outcome houtcome => ?_⟩
  · obtain ⟨hprocess, hinside⟩ := hstuck hs rank
    split
    · rename_i h
      exact hinside (by simpa using h)
    · rename_i h
      rw [hprocess, checking_without_line sorter orders file text h]
  · obtain ⟨hended, hprocess⟩ := hstopped rank outcome houtcome
    have hnone : ¬ HasLine file size rank := by simpa using hended
    rw [checking_without_line sorter orders file text hnone] at hprocess
    exact ⟨hnone, (Process.stop.inj hprocess).symm⟩

/-- Two lines that both start on the first of two ranks. -/
theorem ranks_block_at_reduction_small : ∃ s m,
    Steps (GroupStep (.least (@reads 2))) m
      (start (ranks default default ⟨[97, 10, 98, 98, 98, 98, 10], some [97, 10], fun _ => true⟩ 2)) s ∧
    (s 0).InsideCall .MPI_Allreduce ∧ (s 1).process = .stop (.died .dictionaryEmpty) := by
  have hline : HasLine [97, 10, 98, 98, 98, 98, 10] 2 0 := by decide +kernel
  have hnone : ¬ HasLine [97, 10, 98, 98, 98, 98, 10] 2 1 := by decide +kernel
  obtain ⟨⟨s, m, -, hsteps, hstuck⟩, -⟩ := ranks_block_at_reduction default default _ [97, 10] (fun _ => true)
    (by simp) rfl (by decide) 2 ⟨1, by decide, hnone⟩ (.least reads) 0 _ (.refl _)
  obtain ⟨-, hends, -⟩ := ranks_block_at_reduction default default _ [97, 10] (fun _ => true)
    (by simp) rfl (by decide) 2 ⟨1, by decide, hnone⟩ (.least reads) m s hsteps
  exact ⟨s, m, hsteps, by simpa [hline] using hends hstuck 0, by simpa [hnone] using hends hstuck 1⟩

section Loading

variable {size : ℕ} (sorter : Sorter) (orders : ℕ → HashOrder) (inputs : Inputs) {code : Int}

/-- What is left to do when rank 0 cannot load the word list. -/
def loading (code : Int) (rank : Fin size) : Process Payload Outcome :=
  if rank.val = 0 then .stop (.exited code)
  else shareWordList sorter (orders rank.val) (rank_text inputs.dict size rank.val) rank []

theorem loading_root (code : Int) {rank : Fin size} (h : rank.val = 0) :
    loading sorter orders inputs code rank = .stop (.exited code) :=
  if_pos h

theorem advances_loading (hcode : LoadFile inputs.word_list inputs.malloc = .error code)
    {waiting : Waiting (@reads size)} :
    Advances waiting 5 (ranks sorter orders inputs size) (loading sorter orders inputs code) := by
  apply advances_ranks
  convert Advances.refl (loading sorter orders inputs code) with rank
  by_cases h : rank.val = 0
  · simp only [loading, if_pos h, hcode]
  · simp only [loading, if_neg h]

/-- Rank 0 blocks the broadcast of all others. -/
theorem blocked_loading (code : Int) : Blocked reads (.MPI_Bcast .size) (fun rank : Fin size => decide (rank.val = 0))
    (loading sorter orders inputs code) := by
  refine ⟨fun rank h => ⟨_, loading_root sorter orders inputs code (of_decide_eq_true h)⟩, fun rank h => ?_,
    fun rank _ => ⟨⟨0, rank.pos⟩, rfl, rfl⟩⟩
  rw [loading, if_neg (of_decide_eq_false h)]
  exact ⟨_, _, rfl⟩

end Loading

/-- When rank 0 cannot load the word list, it exits with the code of `LoadFile`,
    whatever the order of the steps, and all other ranks end up inside the
    broadcast of its size; nobody writes the output file. -/
theorem ranks_block_at_broadcast (sorter : Sorter) (orders : ℕ → HashOrder) (inputs : Inputs) (code : Int)
    (hcode : LoadFile inputs.word_list inputs.malloc = .error code) (size : ℕ) (waiting : Waiting (@reads size))
    (m : ℕ) (s : Fin size → Member Payload Outcome)
    (hsteps : Steps (GroupStep waiting) m (start (ranks sorter orders inputs size)) s) :
    (∃ t rest, m + rest ≤ 11 * size ∧ Steps (GroupStep waiting) rest s t ∧ Stuck (GroupStep waiting) t) ∧
      (Stuck (GroupStep waiting) s → ∀ rank : Fin size,
        if rank.val = 0 then (s rank).process = .stop (.exited code)
        else (s rank).InsideCall (.MPI_Bcast .size)) ∧
      ∀ (rank : Fin size) (outcome : Outcome), (s rank).process = .stop outcome →
        rank.val = 0 ∧ outcome = .exited code := by
  have hadvance : Advances waiting 5 _ (loading sorter orders inputs code) :=
    advances_loading sorter orders inputs hcode
  obtain ⟨⟨t, rest, hcount, hrest, hend⟩, hstuck, hstopped⟩ :=
    hadvance.blocks (blocked_loading sorter orders inputs code) hsteps
  refine ⟨⟨t, rest, by omega, hrest, hend⟩, fun hs rank => ?_, fun rank outcome houtcome => ?_⟩
  · obtain ⟨hprocess, hinside⟩ := hstuck hs rank
    split
    · rename_i h
      rw [hprocess, loading_root sorter orders inputs code h]
    · rename_i h
      exact hinside (decide_eq_false h)
  · obtain ⟨hended, hprocess⟩ := hstopped rank outcome houtcome
    have hroot := of_decide_eq_true hended
    rw [loading_root sorter orders inputs code hroot] at hprocess
    exact ⟨hroot, (Process.stop.inj hprocess).symm⟩

/-- Without a word list, rank 0 exits with the code 1. -/
theorem ranks_block_at_broadcast_small : ∃ s m,
    Steps (GroupStep (.least (@reads 2))) m
      (start (ranks default default ⟨[97, 10, 98, 10], none, fun _ => true⟩ 2)) s ∧
    (s 0).process = .stop (.exited 1) ∧ (s 1).InsideCall (.MPI_Bcast .size) := by
  obtain ⟨⟨s, m, -, hsteps, hstuck⟩, -⟩ := ranks_block_at_broadcast default default
    ⟨[97, 10, 98, 10], none, fun _ => true⟩ 1 rfl 2 (.least reads) 0 _ (.refl _)
  obtain ⟨-, hends, -⟩ := ranks_block_at_broadcast default default
    ⟨[97, 10, 98, 10], none, fun _ => true⟩ 1 rfl 2 (.least reads) m s hsteps
  exact ⟨s, m, hsteps, hends hstuck 0, hends hstuck 1⟩

end spellcheck.cluster
