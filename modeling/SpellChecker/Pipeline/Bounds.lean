import Mathlib.Algebra.BigOperators.Group.Finset.Basic
import Mathlib.Algebra.BigOperators.Ring.List
import Mathlib.Algebra.Order.BigOperators.Group.List
import SpellChecker.Candidates.Width
import SpellChecker.Pipeline.Ranks
import SpellChecker.Pipeline.SingleNode

open comparator edit_script lines
open spellcheck.bk_tree spellcheck.candidates spellcheck.dictionary spellcheck.slice

namespace spellcheck.pipeline

section Texts

variable {file : Word}

/-- The texts of all ranks together take at most the room of the file. -/
theorem sum_length_rank_text_le (file : Word) (size : ℕ) :
    ((List.range size).map fun rank => (rank_text file size rank).length).sum ≤ file.length := by
  have hroom := ((((kept_lines_all_sublist file size).map Prod.snd).flatMap fun l => l ++ [newline]).length_le).trans
    (length_unlines_spans_le newline 0 file)
  rw [List.map_flatMap, List.flatMap_assoc, List.length_flatMap] at hroom
  exact hroom

theorem length_unlines_segments_rank_text_le (file : Word) (size rank : ℕ) :
    (unlines newline (segments newline (rank_text file size rank))).length ≤ (rank_text file size rank).length := by
  have hnewline : ∀ l ∈ (kept_lines file (slice_off file.length size rank)
      (slice_len file.length size rank)).map Prod.snd, newline ∉ l := by
    intro l hl
    obtain ⟨entry, hentry, rfl⟩ := List.mem_map.mp hl
    exact (spans_bounds (mem_kept_lines.mp hentry).1).2.2
  unfold rank_text
  rw [segments_unlines hnewline]
  exact (List.filter_sublist.flatMap _).length_le

section Reached

variable (sorter : Sorter) (orders : ℕ → HashOrder) (hnul : NulFree file) {word_list_text : Word} {size : ℕ}
  (hreach : ∀ rank < size, ∃ entry ∈ spans newline 0 file, entry.2 ≠ [] ∧ Reaches file size rank entry)

include hnul hreach

/-- When every rank has a line, the ranks come to their second pass, and pack at
    most two records of the file for every line and word: the totals are bounded
    by the sizes of the inputs. -/
theorem exists_maskedBlocks (hwords : ∀ w ∈ segments newline word_list_text, Short w)
    (hn : (segments newline word_list_text).length < 2147483648) :
    ∃ dicts present_global,
      (List.range size).mapM (rankDictionary orders file (BuildWordList word_list_text).root_len size) = .ok dicts ∧
      presentGlobal (BuildWordList word_list_text) dicts = .ok present_global ∧ dicts.length = size ∧
      present_global.length = (BuildWordList word_list_text).words.length ∧
      (dicts.map fun d => (maskedBlocks sorter (BuildWordList word_list_text) present_global d).flatten.length).sum ≤
        (segments newline word_list_text).length * (2 * file.length) := by
  rw [← BuildWordList_words] at hwords hn ⊢
  have hload (rank : ℕ) (hrank : rank < size) :=
    (rankDictionary_eq_ok_iff orders (BuildWordList word_list_text).root_len hrank).mpr (hreach rank hrank)
  obtain ⟨dicts, hdicts, hsize, -⟩ := mapM_rankDictionary_ok orders hnul hload
  obtain ⟨present_global, hpresent, hcount, -⟩ := presentGlobal_spec hn dicts
  refine ⟨dicts, present_global, hdicts, hpresent, hsize, hcount, ?_⟩
  rw [mapM_rankDictionary_eq] at hdicts
  have hbytes := sum_length_maskedBlocks_le sorter hwords present_global (nulFree_rankShards orders hnul _ size)
    (short_rankShards orders _ size) hdicts
  refine hbytes.trans (Nat.mul_le_mul_left _ (Nat.mul_le_mul_left _ ?_))
  rw [rankShards, List.map_map]
  exact (List.sum_le_sum fun rank _ => length_unlines_segments_rank_text_le file size rank).trans
    (sum_length_rank_text_le file size)

/-- The sizes of the inputs alone ensure that a run fits. -/
theorem fits_of_length (hlength : word_list_text.length < 2147483648)
    (hroom : (segments newline word_list_text).length * (2 * file.length) < 2147483648) :
    Fits sorter orders file word_list_text size := by
  obtain ⟨dicts, present_global, hdicts, hpresent, -, hcount, hbytes⟩ :=
    exists_maskedBlocks sorter orders hnul hreach (fun _ hw => short_of_mem_segments hlength hw)
      ((length_segments_le newline word_list_text).trans_lt hlength)
  refine ⟨(dicts.map (maskedBlocks sorter (BuildWordList word_list_text) present_global)).map packed, ?_, ?_⟩
  · rw [packOnRanks_eq hlength, hdicts, loop.bind_ok, hpresent, loop.bind_ok, secondPass_eq sorter hcount]
  · rw [packedBytes_eq, List.map_map, List.length_flatten, List.map_map]
    exact hbytes.trans_lt hroom

/-- When every rank has a line and the inputs are small enough, no number is
    changed by the 32-bit fields of the exchange: the ranks come to their lists of
    candidates, these are packed, and every `int` by which rank 0 takes them apart
    is the integer it stands for. -/
theorem exactInts_of_length (hwords : ∀ w ∈ segments newline word_list_text, Short w) (hsize : 0 < size)
    (hindex : (segments newline word_list_text).length * size < 2147483648)
    (hroom : (segments newline word_list_text).length * (2 * file.length) < 2147483648) :
    ∃ dicts present_global locals pks,
      (List.range size).mapM (rankDictionary orders file (BuildWordList word_list_text).root_len size) = .ok dicts ∧
      presentGlobal (BuildWordList word_list_text) dicts = .ok present_global ∧
      (dicts.mapM fun dict => GetCandidatesLocalMasked sorter (BuildWordList word_list_text) dict present_global) =
        .ok locals ∧
      locals.mapM (PackAllCandidates (BuildWordList word_list_text)) = .ok pks ∧
      (locals.map reserve_bytes).sum ≤ (segments newline word_list_text).length * (2 * file.length) ∧
      ExactInts (BuildWordList word_list_text) present_global locals pks ∧
      ∀ rank i, rank < size → i < (segments newline word_list_text).length →
        flatIndex rank (segments newline word_list_text).length i =
          .ok ((rank * (segments newline word_list_text).length + i : ℕ) : Int) := by
  have hn := (Nat.le_mul_of_pos_right _ hsize).trans_lt hindex
  obtain ⟨dicts, present_global, hdicts, hpresent, hdictsLength, hcount, hbytes⟩ :=
    exists_maskedBlocks sorter orders hnul hreach hwords hn
  have hlocals := loop.mapM_ok fun (d : Dictionary) (_ : d ∈ dicts) => GetCandidatesLocalMasked_eq sorter d hcount
  have hreserve : ∀ d ∈ dicts, reserve_bytes ⟨present_global, (BuildWordList word_list_text).words.zipIdx.map
      (maskedCandidates sorter present_global d)⟩ =
        (maskedBlocks sorter (BuildWordList word_list_text) present_global d).flatten.length := by
    intro d _
    rw [← length_flatten_blocks, maskedBlocks, List.map_map]
    rfl
  have htotal := hbytes
  rw [← List.map_congr_left hreserve] at htotal
  refine ⟨dicts, present_global, _, _, hdicts, hpresent, hlocals, mapM_PackAllCandidates_eq (by simp), ?_, ?_, ?_⟩
  · rwa [List.map_map]
  · refine exactInts_of_fits (by simp) (by rwa [BuildWordList_words]) ?_ ?_
    · rw [List.length_map, hdictsLength, BuildWordList_words]
      exact indexFits_of_mul_lt hsize hindex
    · rw [List.map_map]
      exact htotal.trans_lt hroom
  · intro rank i hrank hi
    exact flatIndex_eq_of_lt hn hi ((flat_lt hrank hi).trans hindex)

end Reached

end Texts

/-- Four lines on two ranks. -/
theorem exactInts_of_length_small : ∃ present_global locals pks,
    locals.mapM (PackAllCandidates (BuildWordList [53, 10])) = .ok pks ∧ (locals.map reserve_bytes).sum ≤ 16 ∧
      ExactInts (BuildWordList [53, 10]) present_global locals pks := by
  obtain ⟨-, present_global, locals, pks, -, -, -, hpks, htotal, hexact, -⟩ :=
    @exactInts_of_length [49, 10, 50, 10, 51, 10, 52, 10] default default (by simp [NulFree]) [53, 10] 2
      (by decide +kernel) (by decide) (by decide) (by decide) (by decide)
  exact ⟨present_global, locals, pks, hpks, htotal, hexact⟩

end spellcheck.pipeline
