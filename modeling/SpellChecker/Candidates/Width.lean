import SpellChecker.Candidates.RoundTrip

open blocks lines
open spellcheck.dictionary spellcheck.mpi

namespace spellcheck.candidates

/-- `reserve_bytes`: what a rank packs, each candidate with its newline. -/
def reserve_bytes (loc : LocalMisspelled) : ℕ :=
  (loc.local_candidates.map fun v => (v.map fun s => s.length + 1).sum).sum

/-- The buffers of all ranks, as sent. -/
abbrev sentBytes (locals : List LocalMisspelled) : List Word := (packedBlocks locals).map List.flatten

/-- Every `int` of the exchange is the integer it stands for: `(int)n`, the
    places `off[i]` and `len[i]` of each rank's records in its own buffer, the
    lengths of the buffers, their sum, their places in the concatenation, the
    places of the records in it, and the indices into the gathered vectors. The
    last two are computed only for words the mask leaves out. -/
structure ExactInts (wl : WordList) (present_global : List Byte) (locals : List LocalMisspelled) (pks : List Packed) :
    Prop where
  count : toInt wl.words.length = wl.words.length
  off : ∀ (r i : ℕ) (pk : Packed) (blocks : List Word), pks[r]? = some pk → (packedBlocks locals)[r]? = some blocks →
    i < wl.words.length → pk.off[i]? = some (start blocks i : Int)
  len : ∀ (r i : ℕ) (pk : Packed) (blocks : List Word) (block : Word), pks[r]? = some pk →
    (packedBlocks locals)[r]? = some blocks → blocks[i]? = some block → pk.len[i]? = some (block.length : Int)
  my_big_bytes : ∀ pk ∈ pks, toInt pk.big.length = pk.big.length
  big_total : sumBytes (pks.map fun pk => toInt pk.big.length) = .ok (packedBytes pks : Int)
  big_displs : displacements (pks.map fun pk => toInt pk.big.length) = .ok (starts (sentBytes locals))
  rank_base : rankBase (pks.map fun pk => toInt pk.big.length) = .ok (starts (sentBytes locals))
  place : ∀ (r i : ℕ) (pk : Packed) (blocks : List Word) (off len base : Int) (rank_base : List Int),
    pks[r]? = some pk → (packedBlocks locals)[r]? = some blocks → i < wl.words.length →
    present_global[i]? = some 0 → pk.len[i]? = some len → 0 < len → pk.off[i]? = some off →
    rankBase (pks.map fun pk => toInt pk.big.length) = .ok rank_base → rank_base[r]? = some base →
      checkInt (off + base) = .ok ((start blocks i + start (sentBytes locals) r : ℕ) : Int)
  index : ∀ r i, r < pks.length → i < wl.words.length → present_global[i]? = some 0 →
    flatIndex r wl.words.length i = .ok ((r * wl.words.length + i : ℕ) : Int)

theorem length_flatten_blocks (loc : LocalMisspelled) :
    (loc.local_candidates.map (unlines newline)).flatten.length = reserve_bytes loc := by
  rw [List.length_flatten, List.map_map, reserve_bytes]
  congr 1
  exact List.map_congr_left fun v _ => length_unlines newline v

theorem length_sentBytes (locals : List LocalMisspelled) :
    (sentBytes locals).flatten.length = (locals.map reserve_bytes).sum := by
  rw [List.length_flatten, sentBytes, packedBlocks, List.map_map, List.map_map]
  congr 1
  exact List.map_congr_left fun loc _ => length_flatten_blocks loc

/-- A record of a rank lies inside the concatenation of all buffers. -/
theorem start_add_start_le {locals : List LocalMisspelled} {r i : ℕ} {blocks : List Word}
    (hblocks : (packedBlocks locals)[r]? = some blocks) (hi : i < blocks.length) :
    start blocks i + start (sentBytes locals) r ≤ (sentBytes locals).flatten.length := by
  have hbounds := block_bounds hblocks (List.getElem?_eq_getElem hi)
  change start (sentBytes locals) r + _ + _ ≤ (sentBytes locals).flatten.length at hbounds
  omega

/-- The sum of at least one count is an `int`, however it was reached. -/
theorem isInt_of_sumBytes {big_bytes : List Int} (hne : big_bytes ≠ []) {total : Int}
    (h : sumBytes big_bytes = .ok total) : IsInt total := by
  rw [← List.dropLast_append_getLast hne, sumBytes, List.foldlM_append, loop.bind_eq_ok_iff] at h
  obtain ⟨before, -, hlast⟩ := h
  rw [List.foldlM_cons, loop.bind_eq_ok_iff] at hlast
  obtain ⟨sum, hsum, hresult⟩ := hlast
  obtain rfl := Except.ok.inj hresult
  exact isInt_of_checkInt hsum

section Exact

variable {wl : WordList} {present_global : List Byte} {locals : List LocalMisspelled} (hlocals : locals ≠ [])
  (hlength : ∀ loc ∈ locals, loc.local_candidates.length = wl.words.length)

include hlocals in
/-- Exact values fit: `big_total` is the last to be summed, and the index of a
    word is largest on the last rank. -/
theorem fits_of_exactInts (h : ExactInts wl present_global locals ((packedBlocks locals).map packed)) :
    wl.words.length < 2147483648 ∧ IndexFits wl.words.length locals.length present_global ∧
      (locals.map reserve_bytes).sum < 2147483648 := by
  have hsize : ((packedBlocks locals).map packed).length = locals.length := by simp [packedBlocks]
  have hpos : 0 < locals.length := List.length_pos_iff.mpr hlocals
  have hn : wl.words.length < 2147483648 := by
    have hrange := isInt_toInt wl.words.length
    rw [h.count] at hrange
    exact_mod_cast hrange.2
  refine ⟨hn, fun i hi hzero => ?_, ?_⟩
  · exact lt_of_flatIndex hn hi (h.index (locals.length - 1) i (by omega) hi hzero)
  · have htotal := (isInt_of_sumBytes (by simpa [packedBlocks] using hlocals) h.big_total).2
    rw [packedBytes_eq, length_sentBytes] at htotal
    exact_mod_cast htotal

include hlength in
theorem exactInts_of_fits (hn : wl.words.length < 2147483648)
    (hindex : IndexFits wl.words.length locals.length present_global)
    (htotal : (locals.map reserve_bytes).sum < 2147483648) :
    ExactInts wl present_global locals ((packedBlocks locals).map packed) := by
  have hsize : ((packedBlocks locals).map packed).length = locals.length := by simp [packedBlocks]
  have hbytes : (sentBytes locals).flatten.length < 2147483648 := by rwa [length_sentBytes]
  have hcount {r : ℕ} {blocks : List Word} (hblocks : (packedBlocks locals)[r]? = some blocks) :
      blocks.length = wl.words.length := length_of_mem_packedBlocks hlength blocks (List.mem_of_getElem? hblocks)
  have hpacked {r : ℕ} {pk : Packed} {blocks : List Word} (hpk : ((packedBlocks locals).map packed)[r]? = some pk)
      (hblocks : (packedBlocks locals)[r]? = some blocks) : pk = packed blocks := by
    rw [List.getElem?_map, hblocks, Option.map_some] at hpk
    exact (Option.some.inj hpk).symm
  have hoff {r i : ℕ} {blocks : List Word} (hblocks : (packedBlocks locals)[r]? = some blocks)
      (hi : i < wl.words.length) : (packed blocks).off[i]? = some (start blocks i : Int) :=
    packed_off hbytes hblocks (by rwa [hcount hblocks])
  have hbase : rankBase (((packedBlocks locals).map packed).map fun pk => toInt pk.big.length) =
      .ok (starts (sentBytes locals)) := by
    rw [big_bytes_eq hbytes]
    exact rankBase_eq hbytes
  refine ⟨toInt_of_isInt (isInt_natCast hn), ?_, ?_, ?_, ?_, ?_, hbase, ?_, ?_⟩
  · intro r i pk blocks hpk hblocks hi
    rw [hpacked hpk hblocks, hoff hblocks hi]
  · intro r i pk blocks block hpk hblocks hblock
    rw [hpacked hpk hblocks, packed_len hbytes hblocks hblock]
  · intro pk hpk
    exact toInt_of_isInt (isInt_big hbytes pk hpk)
  · rw [big_bytes_eq hbytes, packedBytes_eq]
    exact sumBytes_eq hbytes
  · rw [big_bytes_eq hbytes]
    exact displacements_eq hbytes
  · intro r i pk blocks off len base rank_base hpk hblocks hi _ _ _ hat hrank hbaseAt
    obtain rfl := loop.ok_unique hbase hrank
    have hr := (List.getElem?_eq_some_iff.mp hblocks).1
    have hfit := (start_add_start_le hblocks (by rwa [hcount hblocks] : i < blocks.length)).trans_lt hbytes
    rw [hpacked hpk hblocks, hoff hblocks hi] at hat
    rw [starts_getElem? (by rwa [sentBytes, List.length_map])] at hbaseAt
    obtain rfl := Option.some.inj hat
    obtain rfl := Option.some.inj hbaseAt
    rw [← Int.natCast_add]
    exact checkInt_of_isInt (isInt_natCast hfit)
  · intro r i hr hi hzero
    rw [hsize] at hr
    exact flatIndex_eq hn hr hi (hindex i hi hzero)

end Exact

/-- The `int` values of the exchange are exact if and only if the word count, the
    index of every word the mask leaves out on the last rank, and the bytes of all
    ranks together fit. -/
theorem exactInts_iff (wl : WordList) (present_global : List Byte) (locals : List LocalMisspelled)
    (hlocals : locals ≠ []) (hlength : ∀ loc ∈ locals, loc.local_candidates.length = wl.words.length) :
    ∃ pks, locals.mapM (PackAllCandidates wl) = .ok pks ∧
      (ExactInts wl present_global locals pks ↔ wl.words.length < 2147483648 ∧
        (∀ i < wl.words.length, present_global[i]? = some 0 →
          (locals.length - 1) * wl.words.length + i < 2147483648) ∧
        (locals.map reserve_bytes).sum < 2147483648) :=
  ⟨_, mapM_PackAllCandidates_eq hlength, fits_of_exactInts hlocals, fun ⟨hn, hindex, htotal⟩ =>
    exactInts_of_fits hlength hn hindex htotal⟩

/-- Two ranks and three words, of which the mask leaves out two. -/
theorem exactInts_iff_small :
    ∃ pks, [⟨[0, 1, 0], [[[98]], [], []]⟩, ⟨[0, 1, 0], [[], [], [[99], [100]]]⟩].mapM
        (PackAllCandidates ⟨[[97], [98], [97, 99]], 1⟩) = .ok pks ∧
      ExactInts ⟨[[97], [98], [97, 99]], 1⟩ [0, 1, 0]
        [⟨[0, 1, 0], [[[98]], [], []]⟩, ⟨[0, 1, 0], [[], [], [[99], [100]]]⟩] pks := by
  obtain ⟨pks, hpks, hexact⟩ := exactInts_iff ⟨[[97], [98], [97, 99]], 1⟩ [0, 1, 0]
    [⟨[0, 1, 0], [[[98]], [], []]⟩, ⟨[0, 1, 0], [[], [], [[99], [100]]]⟩] (by simp) (by decide)
  exact ⟨pks, hpks, hexact.mpr (by decide)⟩

/-- A rank that has one candidate of 31 bytes for each of `n` words. -/
def oneCandidateEach (n : ℕ) : LocalMisspelled := ⟨List.replicate n 0, List.replicate n [List.replicate 31 49]⟩

theorem reserve_bytes_oneCandidateEach (n : ℕ) : reserve_bytes (oneCandidateEach n) = n * 32 := by
  simp [reserve_bytes, oneCandidateEach]

/-- One rank whose buffer has `2^31` bytes: its length wraps to a negative
    count, which `MPI_Gatherv` refuses. -/
theorem MergePackedAcrossRanks_badCount {wl : WordList} (present_global : List Byte) {blocks : List Word}
    (hn : wl.words.length < 2147483648) (hlength : blocks.length = wl.words.length)
    (hbytes : (packed blocks).big.length = 2147483648) :
    MergePackedAcrossRanks wl present_global [packed blocks] 0 = .error .badCount := by
  have hcount : toInt wl.words.length = wl.words.length := toInt_of_isInt (isInt_natCast hn)
  have hwrap : toInt (packed blocks).big.length = -2147483648 := by
    rw [hbytes]
    decide
  have hoff := gather_packed (n := wl.words.length) [blocks] Packed.off (by simp [packed, hlength])
  have hlen := gather_packed (n := wl.words.length) [blocks] Packed.len (by simp [packed, hlength])
  rw [← hcount] at hoff hlen
  simp only [List.map_cons, List.map_nil, List.length_cons, List.length_nil] at hoff hlen
  simp only [MergePackedAcrossRanks, List.map_cons, List.map_nil, List.length_cons, List.length_nil, hwrap]
  rw [if_neg (by simp), hoff, loop.bind_ok, hlen, loop.bind_ok]
  rfl

/-- `n` words of 30 bytes, each one edit from a candidate of 31 bytes. -/
def thirtyByteWords (n : ℕ) : WordList := ⟨List.replicate n (List.replicate 30 49), 30⟩

theorem exactInts_fails {n : ℕ} (hn : n * 32 = 2147483648) :
    ∃ pk, [oneCandidateEach n].mapM (PackAllCandidates (thirtyByteWords n)) = .ok [pk] ∧
      pk.big.length = 2147483648 ∧ toInt pk.big.length = -2147483648 ∧
      ¬ ExactInts (thirtyByteWords n) (List.replicate n 0) [oneCandidateEach n] [pk] ∧
      MergePackedAcrossRanks (thirtyByteWords n) (List.replicate n 0) [pk] 0 = .error .badCount := by
  have hwords : (thirtyByteWords n).words.length = n := by simp [thirtyByteWords]
  have hcands : (oneCandidateEach n).local_candidates.length = n := by simp [oneCandidateEach]
  have hbytes := (length_flatten_blocks (oneCandidateEach n)).trans ((reserve_bytes_oneCandidateEach n).trans hn)
  have hwrap : toInt (2147483648 : ℕ) = -2147483648 := by decide
  refine ⟨packed ((oneCandidateEach n).local_candidates.map (unlines newline)), ?_, hbytes, ?_, ?_, ?_⟩
  · exact mapM_PackAllCandidates_eq fun loc hloc => by
      rw [List.mem_singleton.mp hloc, hcands, hwords]
  · change toInt ((oneCandidateEach n).local_candidates.map (unlines newline)).flatten.length = -2147483648
    rw [hbytes, hwrap]
  · intro h
    have hexact := h.my_big_bytes _ (List.mem_singleton_self _)
    change toInt ((oneCandidateEach n).local_candidates.map (unlines newline)).flatten.length =
      ((oneCandidateEach n).local_candidates.map (unlines newline)).flatten.length at hexact
    rw [hbytes, hwrap] at hexact
    omega
  · exact MergePackedAcrossRanks_badCount _ (by omega) (by rw [List.length_map, hcands, hwords]) hbytes

/-- On one rank with `2^26` words of 30 bytes and a candidate of 31 bytes for
    each, the buffer has `2^31` bytes, its `int` length is negative, and the
    exchange fails. -/
theorem exactInts_fails_at_two_gigabytes :
    ∃ pk, [oneCandidateEach 67108864].mapM (PackAllCandidates (thirtyByteWords 67108864)) = .ok [pk] ∧
      pk.big.length = 2147483648 ∧ toInt pk.big.length = -2147483648 ∧
      ¬ ExactInts (thirtyByteWords 67108864) (List.replicate 67108864 0) [oneCandidateEach 67108864] [pk] ∧
      MergePackedAcrossRanks (thirtyByteWords 67108864) (List.replicate 67108864 0) [pk] 0 = .error .badCount :=
  exactInts_fails (by decide)

end spellcheck.candidates
