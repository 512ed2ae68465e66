import SpellChecker.Candidates.Merge

open blocks comparator lines
open spellcheck.dictionary spellcheck.mpi

namespace spellcheck.candidates

/-- `present_global` in `main`: the reduction of what `GetPresentLocal` finds on every rank. -/
def presentGlobal (word_list : WordList) (dicts : List Dictionary) : Except Fault (List Byte) :=
  MPI_Allreduce_BOR (toInt word_list.words.length) (dicts.map (GetPresentLocal word_list))
    (List.replicate word_list.words.length 0)

/-- The second pass of `main` on every rank, up to its `pk`. -/
def secondPass (sorter : Sorter) (word_list : WordList) (present_global : List Byte) (dicts : List Dictionary) :
    Except Fault (List Packed) :=
  dicts.mapM fun dict => do
    let local_masked ← GetCandidatesLocalMasked sorter word_list dict present_global
    PackAllCandidates word_list local_masked

/-- The bytes all ranks send for their candidates. -/
def packedBytes (pks : List Packed) : ℕ := (pks.map fun pk => pk.big.length).sum

theorem GetPresentLocal_getElem? {wl : WordList} {i : ℕ} {w : Word} (hw : wl.words[i]? = some w) (d : Dictionary) :
    (GetPresentLocal wl d)[i]? = some 0 ↔ d.Contains w = false := by
  cases h : d.Contains w with
  | true => simp [GetPresentLocal, hw, h]
  | false => simp [GetPresentLocal, hw, h]

/-- The mask leaves out exactly the words that some rank's dictionary contains. -/
theorem presentGlobal_spec {wl : WordList} (hn : wl.words.length < 2147483648) (dicts : List Dictionary) :
    ∃ present_global, presentGlobal wl dicts = .ok present_global ∧
      present_global.length = wl.words.length ∧
      ∀ (i : ℕ) (w : Word), wl.words[i]? = some w →
        (present_global[i]? = some 0 ↔ ∀ d ∈ dicts, d.Contains w = false) := by
  have hlength : ∀ s ∈ dicts.map (GetPresentLocal wl), s.length = wl.words.length := by
    intro s hs
    obtain ⟨d, _, rfl⟩ := List.mem_map.mp hs
    simp [GetPresentLocal]
  obtain ⟨result, hresult, hcount, hzero⟩ := MPI_Allreduce_BOR_spec hlength
    (show (List.replicate wl.words.length (0 : Byte)).length = wl.words.length by simp)
  refine ⟨result, ?_, hcount, fun i w hw => ?_⟩
  · unfold presentGlobal
    rw [toInt_of_isInt (isInt_natCast hn), hresult]
  · rw [hzero i (List.getElem?_eq_some_iff.mp hw).1, List.forall_mem_map]
    exact forall₂_congr fun d _ => GetPresentLocal_getElem? hw d

/-- The candidates one rank packs for word `i`: none where the mask says the word is present. -/
def maskedCandidates (sorter : Sorter) (present_global : List Byte) (dict : Dictionary) (entry : Word × ℕ) :
    List Word :=
  if present_global[entry.2]? = some 0 then sortUnique sorter (dict.Candidates entry.1 []) else []

theorem GetCandidatesLocalMasked_eq (sorter : Sorter) {wl : WordList} (dict : Dictionary) {present_global : List Byte}
    (hlength : present_global.length = wl.words.length) :
    GetCandidatesLocalMasked sorter wl dict present_global =
      .ok ⟨present_global, wl.words.zipIdx.map (maskedCandidates sorter present_global dict)⟩ := by
  have hbody : ∀ entry ∈ wl.words.zipIdx, candidatesMasked sorter dict present_global entry =
      .ok (maskedCandidates sorter present_global dict entry) := by
    rintro ⟨w, i⟩ hentry
    have hi := (List.getElem?_eq_some_iff.mp (List.mem_zipIdx_iff_getElem?.mp hentry)).1
    obtain ⟨present, hat⟩ : ∃ present, present_global[i]? = some present :=
      ⟨_, List.getElem?_eq_getElem (by omega)⟩
    unfold candidatesMasked
    rw [vecAt_of_getElem? hat, loop.bind_ok, loop.pure_eq_ok]
    by_cases hzero : present = 0
    · simp [maskedCandidates, hat, hzero]
    · simp [maskedCandidates, hat, hzero]
  unfold GetCandidatesLocalMasked
  rw [loop.mapM_ok hbody, loop.bind_ok, loop.pure_eq_ok]

/-- The blocks of bytes one rank packs in the second pass. -/
def maskedBlocks (sorter : Sorter) (wl : WordList) (present_global : List Byte) (dict : Dictionary) : List Word :=
  wl.words.zipIdx.map fun entry => unlines newline (maskedCandidates sorter present_global dict entry)

theorem secondPass_eq (sorter : Sorter) {wl : WordList} {present_global : List Byte}
    (hlength : present_global.length = wl.words.length) (dicts : List Dictionary) :
    secondPass sorter wl present_global dicts =
      .ok ((dicts.map (maskedBlocks sorter wl present_global)).map packed) := by
  rw [List.map_map]
  apply loop.mapM_ok
  intro d _
  rw [GetCandidatesLocalMasked_eq sorter d hlength, loop.bind_ok, PackAllCandidates_eq (by simp), List.map_map]
  rfl

theorem packedBytes_eq (ranks : List (List Word)) :
    packedBytes (ranks.map packed) = (ranks.map List.flatten).flatten.length := by
  unfold packedBytes
  rw [List.length_flatten, List.map_map, List.map_map]
  rfl

/-- What both variants pack for a word that the mask leaves out. -/
theorem maskedBlocks_getElem? (sorter : Sorter) {wl : WordList} {present_global : List Byte} {i : ℕ} {w : Word}
    (hw : wl.words[i]? = some w) (hmask : present_global[i]? = some 0) (d : Dictionary) :
    (maskedBlocks sorter wl present_global d)[i]? = some (unlines newline (sortUnique sorter (d.Candidates w []))) := by
  simp [maskedBlocks, maskedCandidates, hw, hmask]

@[simp] theorem sortUnique_nil (sorter : Sorter) : sortUnique sorter [] = [] := by
  unfold sortUnique
  rw [(sorter.perm strcmpLess []).eq_nil, List.destutter_nil]

/-- A rank without candidates for any word of the list has nothing to send. -/
theorem packedBytes_secondPass_eq_zero (sorter : Sorter) {wl : WordList} {present_global : List Byte}
    (hlength : present_global.length = wl.words.length) {dicts : List Dictionary}
    (hnone : ∀ d ∈ dicts, ∀ w ∈ wl.words, d.Candidates w [] = []) {pks : List Packed}
    (hpks : secondPass sorter wl present_global dicts = .ok pks) : packedBytes pks = 0 := by
  have hempty : ∀ d ∈ dicts, (maskedBlocks sorter wl present_global d).flatten = [] := by
    intro d hd
    rw [List.flatten_eq_nil_iff]
    intro block hblock
    obtain ⟨entry, hentry, rfl⟩ := List.mem_map.mp hblock
    have hw : entry.1 ∈ wl.words := List.mem_of_getElem? (List.mem_zipIdx_iff_getElem?.mp hentry)
    simp [maskedCandidates, hnone d hd entry.1 hw]
  rw [secondPass_eq sorter hlength] at hpks
  rw [← Except.ok.inj hpks, packedBytes_eq, List.map_map, List.length_eq_zero_iff, List.flatten_eq_nil_iff]
  intro block hblock
  obtain ⟨d, hd, rfl⟩ := List.mem_map.mp hblock
  exact hempty d hd

end spellcheck.candidates
