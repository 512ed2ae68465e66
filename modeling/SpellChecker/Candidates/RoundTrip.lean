import SpellChecker.Candidates.Passes

open blocks comparator lines
open spellcheck.dictionary

namespace spellcheck.candidates

/-- The blocks of bytes that ranks with these candidates pack. -/
def packedBlocks (locals : List LocalMisspelled) : List (List Word) :=
  locals.map fun loc => loc.local_candidates.map (unlines newline)

/-- All candidates of all ranks for word `i`, as they reach the merge. -/
def candidatesAt (locals : List LocalMisspelled) (i : ℕ) : List Word :=
  locals.flatMap fun loc => loc.local_candidates[i]?.getD []

theorem mem_candidatesAt {locals : List LocalMisspelled} {i : ℕ} {s : Word} :
    s ∈ candidatesAt locals i ↔ ∃ loc ∈ locals, ∃ cands, loc.local_candidates[i]? = some cands ∧ s ∈ cands := by
  unfold candidatesAt
  rw [List.mem_flatMap]
  refine exists_congr fun loc => and_congr_right fun _ => ?_
  cases loc.local_candidates[i]? with
  | none => simp
  | some cands => simp

theorem length_of_mem_packedBlocks {n : ℕ} {locals : List LocalMisspelled}
    (hlength : ∀ loc ∈ locals, loc.local_candidates.length = n) :
    ∀ blocks ∈ packedBlocks locals, blocks.length = n := by
  intro blocks hmem
  obtain ⟨loc, hloc, rfl⟩ := List.mem_map.mp hmem
  rw [List.length_map, hlength loc hloc]

theorem mapM_PackAllCandidates_eq {wl : WordList} {locals : List LocalMisspelled}
    (hlength : ∀ loc ∈ locals, loc.local_candidates.length = wl.words.length) :
    locals.mapM (PackAllCandidates wl) = .ok ((packedBlocks locals).map packed) := by
  unfold packedBlocks
  rw [List.map_map]
  exact loop.mapM_ok fun loc hloc => PackAllCandidates_eq (hlength loc hloc)

/-- What the merge reads back for word `i` is what the ranks packed for it. -/
theorem records_packedBlocks {locals : List LocalMisspelled}
    (hrecords : ∀ loc ∈ locals, ∀ cands ∈ loc.local_candidates, ∀ s ∈ cands, s ≠ [] ∧ newline ∉ s) (i : ℕ) :
    ((packedBlocks locals).flatMap fun blocks => records (blocks[i]?.getD [])) = candidatesAt locals i := by
  unfold packedBlocks candidatesAt
  rw [List.flatMap_map]
  apply List.flatMap_congr
  intro loc hloc
  rw [List.getElem?_map]
  cases hcands : loc.local_candidates[i]? with
  | none => rfl
  | some cands =>
    have hmem := List.mem_of_getElem? hcands
    exact records_unlines (fun s hs => (hrecords loc hloc cands hmem s hs).1)
      fun s hs => (hrecords loc hloc cands hmem s hs).2

section Places

variable {ranks : List (List Word)} (hbytes : (ranks.map List.flatten).flatten.length < 2147483648) {r i : ℕ}
  {blocks : List Word} (hblocks : ranks[r]? = some blocks)

include hbytes hblocks

/-- `off` and `len` are exact when the bytes of all ranks together fit in `int`. -/
theorem packed_off (hi : i < blocks.length) : (packed blocks).off[i]? = some (start blocks i : Int) := by
  have hbounds := block_bounds hblocks (List.getElem?_eq_getElem hi)
  simp only [packed]
  rw [List.getElem?_map, List.getElem?_range hi, Option.map_some, toInt_of_isInt (isInt_natCast (by omega))]

theorem packed_len {block : Word} (hblock : blocks[i]? = some block) :
    (packed blocks).len[i]? = some (block.length : Int) := by
  have hbounds := block_bounds hblocks hblock
  simp only [packed]
  rw [List.getElem?_map, hblock, Option.map_some, toInt_of_isInt (isInt_natCast (by omega))]

end Places

/-- Every slice the merge reads lies inside the received buffer. -/
theorem packed_slice_bounds {ranks : List (List Word)} (hbytes : (ranks.map List.flatten).flatten.length < 2147483648)
    {r i : ℕ} {pk : Packed} {off len displ : Int} (hpk : (ranks.map packed)[r]? = some pk)
    (hoff : pk.off[i]? = some off)
    (hlen : pk.len[i]? = some len) (hdispl : (starts (ranks.map List.flatten))[r]? = some displ) :
    0 ≤ off + displ ∧ 0 ≤ len ∧ off + displ + len ≤ (ranks.map List.flatten).flatten.length := by
  rw [List.getElem?_map] at hpk
  obtain ⟨blocks, hblocks, rfl⟩ := Option.map_eq_some_iff.mp hpk
  have hr := (List.getElem?_eq_some_iff.mp hblocks).1
  have hi : i < blocks.length := by simpa [packed] using (List.getElem?_eq_some_iff.mp hlen).1
  have hblock := List.getElem?_eq_getElem hi
  have hbounds := block_bounds hblocks hblock
  rw [packed_off hbytes hblocks hi] at hoff
  rw [packed_len hbytes hblocks hblock] at hlen
  rw [starts_getElem? (by rwa [List.length_map])] at hdispl
  obtain rfl := Option.some.inj hoff
  obtain rfl := Option.some.inj hlen
  obtain rfl := Option.some.inj hdispl
  omega

/-- Packing on every rank and unpacking on rank 0 lose and mix nothing: the
    displacements of the gather are the bases of the merge, all slices are read
    inside the received buffer, and the result has one line for each index the
    mask leaves out, in index order, whose candidates increase strictly by
    `strcmp`, come from some rank's list for this very index, and stand for all
    strings of all these lists. -/
theorem MergePackedAcrossRanks_roundTrip (wl : WordList) (present_global : List Byte) (locals : List LocalMisspelled)
    (hlocals : locals ≠ []) (hpresent : present_global.length = wl.words.length)
    (hlength : ∀ loc ∈ locals, loc.local_candidates.length = wl.words.length)
    (hrecords : ∀ loc ∈ locals, ∀ cands ∈ loc.local_candidates, ∀ s ∈ cands, s ≠ [] ∧ newline ∉ s)
    (hindex : wl.words.length * locals.length < 2147483648) :
    ∃ pks, locals.mapM (PackAllCandidates wl) = .ok pks ∧ (packedBytes pks < 2147483648 →
      ∃ big_total displs big_recv, ∃ merged : ℕ → List Word,
        (let big_bytes := pks.map fun pk => toInt pk.big.length
        sumBytes big_bytes = .ok big_total ∧ displacements big_bytes = .ok displs ∧ rankBase big_bytes = .ok displs ∧
        gatherBig (pks.map Packed.big) big_bytes displs big_total = .ok big_recv) ∧
        (∀ (r i : ℕ) (pk : Packed) (off len displ : Int), pks[r]? = some pk → pk.off[i]? = some off →
          pk.len[i]? = some len → displs[r]? = some displ →
            0 ≤ off + displ ∧ 0 ≤ len ∧ off + displ + len ≤ big_recv.length) ∧
        MergePackedAcrossRanks wl present_global pks 0 = .ok ((List.range wl.words.length).filterMap fun i =>
          if present_global[i]? = some 0 then wl.words[i]?.map fun w => ⟨w, merged i⟩ else none) ∧
        ∀ i, (merged i).Pairwise (fun a b => strcmpLess a b = true) ∧
          (∀ s ∈ merged i, ∃ loc ∈ locals, ∃ cands, loc.local_candidates[i]? = some cands ∧ s ∈ cands) ∧
          ∀ loc ∈ locals, ∀ cands, loc.local_candidates[i]? = some cands →
            ∀ s ∈ cands, ∃ t ∈ merged i, c_str t = c_str s) := by
  refine ⟨_, mapM_PackAllCandidates_eq hlength, fun hbytes => ?_⟩
  rw [packedBytes_eq] at hbytes
  refine ⟨((packedBlocks locals).map List.flatten).flatten.length, starts ((packedBlocks locals).map List.flatten),
    ((packedBlocks locals).map List.flatten).flatten, fun i => insertAll strcmpLess [] (candidatesAt locals i),
    ?_, ?_, ?_, fun i => ⟨?_, fun s hs => ?_, ?_⟩⟩
  · simp only [big_bytes_eq hbytes, map_packed_big]
    exact ⟨sumBytes_eq hbytes, displacements_eq hbytes, rankBase_eq hbytes, gatherBig_eq⟩
  · intro r i pk off len displ hpk hoff hlen hdispl
    exact packed_slice_bounds hbytes hpk hoff hlen hdispl
  · have hcount : (packedBlocks locals).length = locals.length := List.length_map _
    have hsize : 0 < locals.length := List.length_pos_iff.mpr hlocals
    have hn : wl.words.length < 2147483648 := (Nat.le_mul_of_pos_right _ hsize).trans_lt hindex
    rw [MergePackedAcrossRanks_eq wl present_global (packedBlocks locals) hpresent
      (length_of_mem_packedBlocks hlength) hn (by rw [hcount]; exact indexFits_of_mul_lt hsize hindex) hbytes]
    simp only [← records_packedBlocks hrecords]
    rfl
  · exact (insertAll_pairwise strcmpLess_keyedBy .nil _).imp fun h => (strcmpLess_keyedBy.lt_iff _ _).mpr h
  · have hin := mem_insertAll hs
    exact mem_candidatesAt.mp (by simpa using hin)
  · intro loc hloc cands hcands s hs
    exact exists_key_eq_insertAll strcmpLess_keyedBy [] (mem_candidatesAt.mpr ⟨loc, hloc, cands, hcands, hs⟩)

/-- Two ranks and two words, of which the mask leaves out the first. -/
theorem MergePackedAcrossRanks_roundTrip_small :
    ∃ pks, [⟨[0, 1], [[[99], [100]], [[101]]]⟩, ⟨[0, 1], [[[99]], []]⟩].mapM
        (PackAllCandidates ⟨[[97], [98]], 1⟩) = .ok pks ∧
      ∃ merged, MergePackedAcrossRanks ⟨[[97], [98]], 1⟩ [0, 1] pks 0 = .ok [⟨[97], merged⟩] ∧
        merged.Pairwise (fun a b => strcmpLess a b = true) ∧ ∀ s ∈ [[99], [100]], ∃ t ∈ merged, c_str t = c_str s := by
  obtain ⟨pks, hpks, hmerge⟩ := MergePackedAcrossRanks_roundTrip ⟨[[97], [98]], 1⟩ [0, 1]
    [⟨[0, 1], [[[99], [100]], [[101]]]⟩, ⟨[0, 1], [[[99]], []]⟩] (by simp) (by decide) (by decide) (by decide)
    (by decide)
  have hpacked := @mapM_PackAllCandidates_eq ⟨[[97], [98]], 1⟩
    [⟨[0, 1], [[[99], [100]], [[101]]]⟩, ⟨[0, 1], [[[99]], []]⟩] (by decide)
  obtain rfl := loop.ok_unique hpacked hpks
  obtain ⟨_, _, _, merged, -, -, hlines, hmerged⟩ := hmerge (by decide)
  refine ⟨_, hpks, merged 0, hlines, (hmerged 0).1, ?_⟩
  exact (hmerged 0).2.2 _ (List.mem_cons_self) _ rfl

end spellcheck.candidates
