import Mathlib.Algebra.BigOperators.Group.Finset.Basic
import Mathlib.Algebra.Order.BigOperators.Group.List
import SpellChecker.Candidates.Passes
import SpellChecker.Data.Checker
import SpellChecker.Dictionary.Candidates

open blocks checker comparator edit_script lines
open spellcheck.bk_tree spellcheck.candidates spellcheck.dictionary

namespace spellcheck.pipeline

/-- The answer over a set of known words: a line for every other word, with its
    one-edit neighbours among the known words in increasing byte order. -/
def answer (known : Finset Word) (words : List Word) : Misspelled :=
  (check OneEdit known words).map fun line => ⟨line.1, line.2⟩

theorem answer_eq_filterMap (known : Finset Word) (words : List Word) :
    answer known words =
      words.filterMap fun w => if w ∈ known then none else some ⟨w, neighbours OneEdit known w⟩ := by
  unfold answer
  rw [check_eq_filterMap, List.map_filterMap]
  apply List.filterMap_congr
  intro w _
  split
  · rfl
  · rfl

/-- All words of the ranks' dictionaries. -/
def unionWords (dicts : List Dictionary) : Finset Word := (dicts.map Dictionary.orig).foldr (· ∪ ·) ∅

theorem mem_unionWords {dicts : List Dictionary} {w : Word} : w ∈ unionWords dicts ↔ ∃ d ∈ dicts, w ∈ d.orig := by
  induction dicts with
  | nil => simp [unionWords]
  | cons d dicts ih =>
    have hstep : unionWords (d :: dicts) = d.orig ∪ unionWords dicts := rfl
    simp [hstep, ih]

/-- What a text of short lines without NUL gives: a dictionary with its tree
    built, whose words survive packing and comparison whole. -/
structure Ready (d : Dictionary) : Prop where
  built : d.Built
  short : ∀ w ∈ d.orig, Short w
  nulFree : ∀ w ∈ d.orig, NulFree w
  ne_nil : ∀ w ∈ d.orig, w ≠ []
  newline_notMem : ∀ w ∈ d.orig, newline ∉ w

/-- Without repetitions `unique` erases nothing. -/
theorem sortUnique_eq_run (sorter : Sorter) {cands : List Word} (h : cands.Nodup) :
    sortUnique sorter cands = sorter.run strcmpLess cands := by
  have hnodup : (sorter.run strcmpLess cands).Nodup := (sorter.perm _ _).nodup_iff.mpr h
  exact List.destutter_of_isChain _ _ (List.Pairwise.isChain hnodup)

theorem Ready.mem_sortUnique (sorter : Sorter) {d : Dictionary} (h : Ready d) {w : Word} (hw : Short w) {u : Word} :
    u ∈ sortUnique sorter (d.Candidates w []) ↔ u ∈ d.orig ∧ OneEdit w u := by
  obtain ⟨happend, hnodup, hmem⟩ := h.built.candidates h.short hw []
  rw [List.nil_append] at happend
  rw [happend, sortUnique_eq_run sorter hnodup, (sorter.perm _ _).mem_iff, hmem]

/-- The tree finds the neighbours of a word in an order of its own. -/
theorem Ready.candidates_perm_neighbours {d : Dictionary} (h : Ready d) {w : Word} (hw : Short w) :
    (d.Candidates w []).Perm (neighbours OneEdit d.orig w) := by
  obtain ⟨happend, hnodup, hmem⟩ := h.built.candidates h.short hw []
  rw [happend, List.nil_append]
  apply (List.perm_ext_iff_of_nodup hnodup ((neighbours_strict w).imp ne_of_lt)).mpr
  intro u
  rw [hmem, mem_neighbours]

section Room

/-- The records of a list take the same room in any order. -/
theorem length_unlines_sortUnique (sorter : Sorter) {cands : List Word} (h : cands.Nodup) :
    (unlines newline (sortUnique sorter cands)).length = (unlines newline cands).length := by
  rw [sortUnique_eq_run sorter h]
  exact ((sorter.perm strcmpLess cands).flatMap_right _).length_eq

/-- A line and its capital variant are of the same length. -/
theorem length_unlines_variants_le (ls : List Word) :
    (unlines newline (ls.flatMap variants)).length ≤ 2 * (unlines newline ls).length := by
  induction ls with
  | nil => simp
  | cons l ls ih =>
    have hline : (unlines newline (variants l)).length ≤ 2 * (l.length + 1) := by
      unfold variants
      split
      · simp
      · split
        · simp only [unlines_cons, unlines_nil, List.length_append, List.length_cons, List.length_nil]
          omega
        · simp only [unlines_cons, unlines_nil, List.length_append, List.length_cons, List.length_nil]
          omega
    simp only [unlines, List.flatMap_cons, List.flatMap_append, List.length_append, List.length_singleton] at ih hline ⊢
    omega

/-- What a rank with the dictionary of a text packs for one word. -/
theorem length_candidates_le (sorter : Sorter) {ls : List Word} {d : Dictionary} (hready : Ready d)
    (horig : ∀ u ∈ d.orig, u ∈ ls.flatMap variants) {w : Word} (hw : Short w) :
    (unlines newline (sortUnique sorter (d.Candidates w []))).length ≤ 2 * (unlines newline ls).length := by
  obtain ⟨happend, hnodup, hmem⟩ := hready.built.candidates hready.short hw []
  rw [List.nil_append] at happend
  rw [happend, length_unlines_sortUnique sorter hnodup]
  exact (length_unlines_le_of_subset newline hnodup fun u hu => horig u ((hmem u).mp hu).1).trans
    (length_unlines_variants_le ls)

/-- The room for the records of a word, exactly. -/
theorem Ready.length_candidates (sorter : Sorter) {d : Dictionary} (hready : Ready d) {w : Word} (hw : Short w) :
    (unlines newline (sortUnique sorter (d.Candidates w []))).length =
      ∑ u ∈ d.orig.filter (OneEdit w), (u.length + 1) := by
  obtain ⟨happend, hnodup, hmem⟩ := hready.built.candidates hready.short hw []
  rw [List.nil_append] at happend
  rw [happend, length_unlines_sortUnique sorter hnodup, length_unlines, ← List.sum_toFinset _ hnodup]
  congr 1
  ext u
  rw [List.mem_toFinset, hmem, Finset.mem_filter]

/-- What a rank with the dictionary of a text packs for all words. -/
theorem length_maskedBlocks_le (sorter : Sorter) {wl : WordList} (hwords : ∀ w ∈ wl.words, Short w)
    (present_global : List Byte) {ls : List Word} {d : Dictionary} (hready : Ready d)
    (horig : ∀ u ∈ d.orig, u ∈ ls.flatMap variants) :
    (maskedBlocks sorter wl present_global d).flatten.length ≤
      wl.words.length * (2 * (unlines newline ls).length) := by
  have hblock : ∀ count ∈ (maskedBlocks sorter wl present_global d).map List.length,
      count ≤ 2 * (unlines newline ls).length := by
    intro count hcount
    simp only [maskedBlocks, List.mem_map, exists_exists_and_eq_and] at hcount
    obtain ⟨entry, hentry, rfl⟩ := hcount
    have hw : entry.1 ∈ wl.words := List.mem_of_getElem? (List.mem_zipIdx_iff_getElem?.mp hentry)
    unfold maskedCandidates
    split
    · exact length_candidates_le sorter hready horig (hwords _ hw)
    · simp
  have hsum := List.sum_le_card_nsmul _ _ hblock
  simpa [maskedBlocks, List.length_flatten] using hsum

end Room

/-- A mask that leaves out the words no rank contains leaves out the unknown ones. -/
theorem mask_eq_zero_iff {wl : WordList} {dicts : List Dictionary} {present_global : List Byte}
    (hmask : ∀ (i : ℕ) (w : Word), wl.words[i]? = some w →
      (present_global[i]? = some 0 ↔ ∀ d ∈ dicts, d.Contains w = false)) {i : ℕ} {w : Word}
    (hw : wl.words[i]? = some w) : present_global[i]? = some 0 ↔ w ∉ unionWords dicts := by
  rw [hmask i w hw, mem_unionWords]
  simp [Dictionary.Contains]

section Lines

variable (sorter : Sorter) {wl : WordList} {dicts : List Dictionary} (hready : ∀ d ∈ dicts, Ready d)

include hready

/-- The words of ready dictionaries compare whole. -/
theorem c_str_eq_of_mem_unionWords {u : Word} (hu : u ∈ unionWords dicts) : c_str u = u := by
  obtain ⟨d, hd, hmem⟩ := mem_unionWords.mp hu
  exact ((hready d hd).nulFree u hmem).c_str_eq

/-- The records the ranks send for a word are its neighbours on some rank. -/
theorem mem_sent_iff {w : Word} (hw : Short w) {u : Word} :
    (u ∈ dicts.flatMap fun d => records (unlines newline (sortUnique sorter (d.Candidates w [])))) ↔
      u ∈ unionWords dicts ∧ OneEdit w u := by
  have hrecords : ∀ d ∈ dicts, records (unlines newline (sortUnique sorter (d.Candidates w []))) =
      sortUnique sorter (d.Candidates w []) := by
    intro d hd
    refine records_unlines (fun l hl => ?_) fun l hl => ?_
    · exact (hready d hd).ne_nil l (((hready d hd).mem_sortUnique sorter hw).mp hl).1
    · exact (hready d hd).newline_notMem l (((hready d hd).mem_sortUnique sorter hw).mp hl).1
  rw [List.mem_flatMap, mem_unionWords]
  constructor
  · rintro ⟨d, hd, hu⟩
    rw [hrecords d hd, (hready d hd).mem_sortUnique sorter hw] at hu
    exact ⟨⟨d, hd, hu.1⟩, hu.2⟩
  · rintro ⟨⟨d, hd, hu⟩, hedit⟩
    refine ⟨d, hd, ?_⟩
    rw [hrecords d hd, (hready d hd).mem_sortUnique sorter hw]
    exact ⟨hu, hedit⟩

/-- The merged candidates of an unknown word are its neighbours among all words. -/
theorem merged_eq_neighbours {w : Word} (hw : Short w) :
    insertAll strcmpLess [] (dicts.flatMap fun d =>
      records (unlines newline (sortUnique sorter (d.Candidates w [])))) =
        neighbours OneEdit (unionWords dicts) w := by
  have hmem : ∀ u, u ∈ insertAll strcmpLess [] (dicts.flatMap fun d =>
      records (unlines newline (sortUnique sorter (d.Candidates w [])))) ↔ u ∈ unionWords dicts ∧ OneEdit w u := by
    intro u
    rw [mem_insertAll_iff strcmpLess_keyedBy, mem_sent_iff sorter hready hw]
    intro a ha b hb hab
    rw [mem_sent_iff sorter hready hw] at ha hb
    rwa [c_str_eq_of_mem_unionWords hready ha.1, c_str_eq_of_mem_unionWords hready hb.1] at hab
  apply eq_neighbours _ hmem
  refine (insertAll_pairwise strcmpLess_keyedBy .nil _).imp_of_mem fun {a b} ha hb hab => ?_
  rwa [c_str_eq_of_mem_unionWords hready ((hmem a).mp ha).1,
    c_str_eq_of_mem_unionWords hready ((hmem b).mp hb).1] at hab

/-- The loop over the words of `MergePackedAcrossRanks` gives the answer over all words. -/
theorem filterMap_mergedLine_eq_answer (hwords : ∀ w ∈ wl.words, Short w) {present_global : List Byte}
    (hmask : ∀ (i : ℕ) (w : Word), wl.words[i]? = some w →
      (present_global[i]? = some 0 ↔ ∀ d ∈ dicts, d.Contains w = false)) :
    (List.range wl.words.length).filterMap
      (mergedLine wl present_global (dicts.map (maskedBlocks sorter wl present_global))) =
        answer (unionWords dicts) wl.words := by
  have hline : ∀ i ∈ List.range wl.words.length,
      mergedLine wl present_global (dicts.map (maskedBlocks sorter wl present_global)) i =
        wl.words[i]?.bind fun w => if w ∈ unionWords dicts then none
          else some ⟨w, neighbours OneEdit (unionWords dicts) w⟩ := by
    intro i hi
    obtain ⟨w, hw⟩ : ∃ w, wl.words[i]? = some w := ⟨_, List.getElem?_eq_getElem (List.mem_range.mp hi)⟩
    have hknown := mask_eq_zero_iff hmask hw
    rw [mergedLine, hw, Option.bind_some, Option.map_some]
    by_cases hmem : w ∈ unionWords dicts
    · rw [if_pos hmem, if_neg fun h => hknown.mp h hmem]
    · have hzero := hknown.mpr hmem
      have hblock : ∀ d ∈ dicts, records ((maskedBlocks sorter wl present_global d)[i]?.getD []) =
          records (unlines newline (sortUnique sorter (d.Candidates w []))) := by
        intro d _
        rw [maskedBlocks_getElem? sorter hw hzero, Option.getD_some]
      rw [if_neg hmem, if_pos hzero, List.flatMap_map, List.flatMap_congr hblock,
        merged_eq_neighbours sorter hready (hwords w (List.mem_of_getElem? hw))]
  rw [List.filterMap_congr hline, filterMap_range_getElem?, answer_eq_filterMap]

end Lines

/-- Under a mask that leaves out the words no rank contains, the merge of what
    the second pass packs is the answer over the union of the dictionaries. -/
theorem merge_masked_eq_answer (sorter : Sorter) {wl : WordList} (hwords : ∀ w ∈ wl.words, Short w)
    {dicts : List Dictionary} (hready : ∀ d ∈ dicts, Ready d) (hn : wl.words.length < 2147483648)
    {present_global : List Byte} (hlength : present_global.length = wl.words.length)
    (hmask : ∀ (i : ℕ) (w : Word), wl.words[i]? = some w →
      (present_global[i]? = some 0 ↔ ∀ d ∈ dicts, d.Contains w = false))
    (hindex : IndexFits wl.words.length dicts.length present_global)
    (hbytes : packedBytes ((dicts.map (maskedBlocks sorter wl present_global)).map packed) < 2147483648) :
    MergePackedAcrossRanks wl present_global ((dicts.map (maskedBlocks sorter wl present_global)).map packed) 0 =
      .ok (answer (unionWords dicts) wl.words) := by
  rw [packedBytes_eq] at hbytes
  rw [MergePackedAcrossRanks_eq wl present_global (dicts.map (maskedBlocks sorter wl present_global)) hlength
    (by simp [maskedBlocks]) hn (by simpa using hindex) hbytes,
    filterMap_mergedLine_eq_answer sorter hready hwords hmask]

/-- The two passes and the merge compute the answer over the union of the
    ranks' dictionaries, if the indices of the unknown words fit in `int`. -/
theorem merge_eq_answer (sorter : Sorter) {wl : WordList} (hwords : ∀ w ∈ wl.words, Short w) {dicts : List Dictionary}
    (hready : ∀ d ∈ dicts, Ready d) (hn : wl.words.length < 2147483648) :
    ∃ present_global pks, presentGlobal wl dicts = .ok present_global ∧
      secondPass sorter wl present_global dicts = .ok pks ∧ pks.length = dicts.length ∧
      (∀ (i : ℕ) (w : Word), wl.words[i]? = some w → (present_global[i]? = some 0 ↔ w ∉ unionWords dicts)) ∧
      (IndexFits wl.words.length dicts.length present_global → packedBytes pks < 2147483648 →
        MergePackedAcrossRanks wl present_global pks 0 = .ok (answer (unionWords dicts) wl.words)) := by
  obtain ⟨present_global, hpresent, hlength, hmask⟩ := presentGlobal_spec hn dicts
  exact ⟨present_global, _, hpresent, secondPass_eq sorter hlength dicts, by simp, fun i w => mask_eq_zero_iff hmask,
    merge_masked_eq_answer sorter hwords hready hn hlength hmask⟩

end spellcheck.pipeline
