import SpellChecker.Candidates.Pack

open blocks comparator lines
open spellcheck.dictionary spellcheck.mpi

namespace spellcheck.candidates

/-- The candidates a block of bytes stands for. -/
def records (block : Word) : List Word := ((spans newline 0 block).map Prod.snd).filter (· ≠ [])

/-- The list of rank 0, when `ranks` gives for every rank and word the block of
    bytes packed for it. -/
def mergedLine (wl : WordList) (present_global : List Byte) (ranks : List (List Word)) (i : ℕ) : Option Line :=
  if present_global[i]? = some 0 then
    wl.words[i]?.map fun w =>
      ⟨w, insertAll strcmpLess [] (ranks.flatMap fun blocks => records (blocks[i]?.getD []))⟩
  else none

/-- The positions of the ranks' buffers in their concatenation. -/
def starts (sends : List Word) : List Int := (List.range sends.length).map fun r => (start sends r : Int)

theorem starts_getElem? {sends : List Word} {r : ℕ} (hr : r < sends.length) :
    (starts sends)[r]? = some (start sends r : Int) := by
  simp [starts, hr]

/-- The last rank's index of every word the mask leaves out is an `int`. -/
def IndexFits (n size : ℕ) (present_global : List Byte) : Prop :=
  ∀ i < n, present_global[i]? = some 0 → (size - 1) * n + i < 2147483648

section Counts

/-- Sums and partial sums of counts whose total fits in `int` do not overflow. -/
theorem foldlM_checkInt (sends : List Word) (acc : ℕ) (hfit : acc + sends.flatten.length < 2147483648) :
    (sends.map fun b => (b.length : Int)).foldlM (fun total b => checkInt (total + b)) (acc : Int) =
      .ok ((acc + sends.flatten.length : ℕ) : Int) := by
  induction sends generalizing acc with
  | nil => rfl
  | cons b sends ih =>
    rw [List.flatten_cons, List.length_append, ← Nat.add_assoc] at hfit ⊢
    have hstep : checkInt ((acc : Int) + b.length) = .ok ((acc + b.length : ℕ) : Int) := by
      rw [← Int.natCast_add, checkInt_of_isInt (isInt_natCast (by omega))]
    rw [List.map_cons, List.foldlM_cons, hstep, loop.bind_ok, ih _ hfit]

theorem partial_sum_eq (sends : List Word) (acc : ℕ) (hfit : acc + sends.flatten.length < 2147483648) :
    partial_sum (acc : Int) (sends.map fun b => (b.length : Int)) =
      .ok ((List.range (sends.length + 1)).map fun r => ((acc + start sends r : ℕ) : Int)) := by
  induction sends generalizing acc with
  | nil => simp [partial_sum]
  | cons b sends ih =>
    rw [List.flatten_cons, List.length_append, ← Nat.add_assoc] at hfit
    have hstep : checkInt ((acc : Int) + b.length) = .ok ((acc + b.length : ℕ) : Int) := by
      rw [← Int.natCast_add, checkInt_of_isInt (isInt_natCast (by omega))]
    rw [List.map_cons, partial_sum, hstep, loop.bind_ok, ih _ hfit, loop.bind_ok, loop.pure_eq_ok,
      List.length_cons, List.range_succ_eq_map (n := sends.length + 1), List.map_cons, List.map_map]
    simp [Function.comp_def, start_cons_succ, Nat.add_assoc]

variable {sends : List Word} (hfit : sends.flatten.length < 2147483648)

include hfit

theorem sumBytes_eq : sumBytes (sends.map fun b => (b.length : Int)) = .ok (sends.flatten.length : Int) := by
  have h := foldlM_checkInt sends 0 (by omega)
  rwa [Nat.zero_add] at h

/-- `big_displs` holds the position of every rank's buffer in the concatenation. -/
theorem displacements_eq : displacements (sends.map fun b => (b.length : Int)) = .ok (starts sends) := by
  unfold displacements
  rw [← List.map_dropLast]
  cases hlast : sends.dropLast with
  | nil =>
    have hlength : sends.length ≤ 1 := by
      have := congrArg List.length hlast
      rw [List.length_dropLast, List.length_nil] at this
      omega
    obtain hzero | hone : sends.length = 0 ∨ sends.length = 1 := by omega
    · simp [starts, hzero]
    · simp [starts, hone]
  | cons first rest =>
    have htotal : (first :: rest).flatten.length ≤ sends.flatten.length := by
      rw [← hlast, List.dropLast_eq_take, flatten_take, List.length_take]
      exact Nat.min_le_right _ _
    rw [List.flatten_cons, List.length_append] at htotal
    have hlength : sends.length = rest.length + 1 + 1 := by
      have := congrArg List.length hlast
      rw [List.length_dropLast, List.length_cons] at this
      omega
    have hstart : ∀ r ∈ List.range (rest.length + 1), start sends (r + 1) = first.length + start rest r := by
      intro r hr
      have hlt := List.mem_range.mp hr
      rw [← start_cons_succ, ← hlast, start, start, List.dropLast_eq_take, List.take_take, Nat.min_eq_left (by omega)]
    simp only [List.map_cons]
    rw [partial_sum_eq rest first.length (by omega), loop.bind_ok, loop.pure_eq_ok, starts, hlength,
      List.range_succ_eq_map (n := rest.length + 1), List.map_cons, List.map_map, start_zero]
    congr 2
    exact List.map_congr_left fun r hr => by rw [Function.comp, ← hstart r hr]

/-- `rank_base` holds the same positions. -/
theorem rankBase_eq : rankBase (sends.map fun b => (b.length : Int)) = .ok (starts sends) := by
  obtain ⟨base, hbase, hlength, hdone⟩ := loop.foldlM_range_ok (fun (rank_base : List Int) r => do
      let base ← vecAt rank_base (r : ℕ)
      let bytes ← vecAt (sends.map fun b => (b.length : Int)) (r : ℕ)
      let next ← checkInt (base + bytes)
      return rank_base.set (r + 1) next)
    (fun i base => base.length = sends.length ∧ ∀ r, r ≤ i → r < sends.length → base[r]? = some (start sends r : Int))
    (sends.length - 1) (List.replicate sends.length 0) ⟨by simp, fun r hr hlt => by
      obtain rfl : r = 0 := by omega
      simp [hlt]⟩ (by
      rintro i base hi ⟨hlength, hdone⟩
      obtain ⟨block, hblock⟩ : ∃ block, sends[i]? = some block := ⟨_, List.getElem?_eq_getElem (by omega)⟩
      have hend := start_le (by omega : i + 1 ≤ sends.length)
      rw [start_succ hblock] at hend
      have hbytes : (sends.map fun b => (b.length : Int))[i]? = some (block.length : Int) := by simp [hblock]
      refine ⟨base.set (i + 1) ((start sends (i + 1) : ℕ) : Int), ?_, by simpa using hlength, fun r hr hlt => ?_⟩
      · rw [vecAt_of_getElem? (hdone i (Nat.le_refl i) (by omega)), loop.bind_ok, vecAt_of_getElem? hbytes,
          loop.bind_ok, ← Int.natCast_add, checkInt_of_isInt (isInt_natCast (by omega)), loop.bind_ok,
          start_succ hblock, loop.pure_eq_ok]
      · by_cases hri : r = i + 1
        · subst r
          exact List.getElem?_set_self (by omega)
        · rw [List.getElem?_set_ne (Ne.symm hri)]
          exact hdone r (by omega) hlt)
  have hclosed : base = starts sends := by
    apply List.ext_getElem?
    intro r
    by_cases hr : r < sends.length
    · rw [hdone r (by omega) hr, starts_getElem? hr]
    · rw [List.getElem?_eq_none (by omega), List.getElem?_eq_none (by simpa [starts] using hr)]
  unfold rankBase
  rw [List.length_map, ← hclosed]
  exact hbase

omit hfit in
theorem gatherBig_eq :
    gatherBig sends (sends.map fun b => (b.length : Int)) (starts sends) sends.flatten.length = .ok sends.flatten := by
  have hdispls : ∀ r, r < sends.length → (starts sends)[r]? = some (start sends r : Int) := fun _ => starts_getElem?
  have hroom : (List.replicate (sends.flatten.length : Int).toNat (0 : Byte)).length = sends.flatten.length := by
    rw [List.length_replicate, Int.toNat_natCast]
  unfold gatherBig
  split
  · rw [MPI_Gatherv_eq hdispls _ hroom.ge, List.drop_of_length_le hroom.le, List.append_nil]
  · have hempty : sends.flatten = [] := List.length_eq_zero_iff.mp (by omega)
    rw [MPI_Gatherv_eq hdispls _ (by simp [hempty]), loop.bind_ok, loop.pure_eq_ok, hempty]

end Counts

theorem records_unlines {ls : List Word} (hne : ∀ l ∈ ls, l ≠ []) (hnewline : ∀ l ∈ ls, newline ∉ l) :
    records (unlines newline ls) = ls := by
  unfold records
  rw [spans_unlines hnewline, List.filter_eq_self]
  intro l hl
  simpa using hne l hl

/-- Scanning the bytes of a block inserts its records. -/
theorem mergeRecords_eq {big_recv block : Word} {O : ℕ} (hinside : O + block.length ≤ big_recv.length)
    (hblock : (big_recv.drop O).take block.length = block) (merged : List Word) :
    mergeRecords big_recv O block.length merged = .ok (insertAll strcmpLess merged (records block)) := by
  rw [mergeRecords, if_neg (by omega), Int.toNat_natCast, Int.toNat_natCast, hblock]
  have hscan := foldl_range_eq_spans newline block
    (fun (merged : List Word) _ line => if line ≠ [] then insert strcmpLess line merged else merged) merged
  have hbody : ∀ (state : ℕ × List Word), ∀ j ∈ List.range block.length,
      (if block[j]? = some newline then
        (j + 1,
          if j > state.1 then insert strcmpLess ((block.drop state.1).take (j - state.1)) state.2 else state.2)
      else state) =
      if block[j]? = some newline then
        (j + 1,
          if (block.drop state.1).take (j - state.1) ≠ [] then
            insert strcmpLess ((block.drop state.1).take (j - state.1)) state.2
          else state.2)
      else state := by
    intro state j hj
    have hlt := List.mem_range.mp hj
    have hguard : (block.drop state.1).take (j - state.1) ≠ [] ↔ j > state.1 := by
      rw [← List.length_pos_iff, List.length_take, List.length_drop]
      omega
    simp only [hguard]
  simp only
  rw [List.foldl_ext _ _ _ hbody, hscan, records, insertAll, List.foldl_filter, List.foldl_map]
  simp

section Ranks

variable {n : ℕ} {ranks : List (List Word)} (hlength : ∀ blocks ∈ ranks, blocks.length = n) (hn : n < 2147483648)
  (hbytes : (ranks.map List.flatten).flatten.length < 2147483648)

/-- The flat index is exact when it fits in `int` and `n` does. -/
theorem flatIndex_eq_of_lt {n r i : ℕ} (hn : n < 2147483648) (hi : i < n) (hfit : r * n + i < 2147483648) :
    flatIndex r n i = .ok ((r * n + i : ℕ) : Int) := by
  unfold flatIndex
  rw [toInt_of_isInt (isInt_natCast hn), toInt_of_isInt (isInt_natCast (hi.trans hn)), ← Int.natCast_mul,
    checkInt_of_isInt (isInt_natCast (by omega)), loop.bind_ok, ← Int.natCast_add,
    checkInt_of_isInt (isInt_natCast hfit)]

theorem flat_lt {n size r i : ℕ} (hr : r < size) (hi : i < n) : r * n + i < n * size := by
  have hrow : r * n + n ≤ n * size := by
    rw [← Nat.succ_mul, Nat.mul_comm n]
    exact Nat.mul_le_mul_right n hr
  omega

/-- Every index is one when the product of both counts is an `int`. -/
theorem indexFits_of_mul_lt {n size : ℕ} {present_global : List Byte} (hsize : 0 < size)
    (hindex : n * size < 2147483648) : IndexFits n size present_global :=
  fun _ hi _ => (flat_lt (Nat.sub_one_lt_of_lt hsize) hi).trans hindex

/-- The index of a word is largest on the last rank. -/
theorem flatIndex_eq {n size r i : ℕ} (hn : n < 2147483648) (hr : r < size) (hi : i < n)
    (hindex : (size - 1) * n + i < 2147483648) : flatIndex r n i = .ok ((r * n + i : ℕ) : Int) := by
  have hrow : r * n ≤ (size - 1) * n := Nat.mul_le_mul_right n (by omega)
  exact flatIndex_eq_of_lt hn hi (by omega)

theorem lt_of_flatIndex {n r i : ℕ} (hn : n < 2147483648) (hi : i < n) {k : Int} (h : flatIndex r n i = .ok k) :
    r * n + i < 2147483648 := by
  unfold flatIndex at h
  obtain ⟨row, hrow, hsum⟩ := loop.bind_eq_ok_iff.mp h
  obtain ⟨-, rfl⟩ := checkInt_eq_ok_iff.mp hrow
  obtain ⟨⟨-, hlt⟩, -⟩ := checkInt_eq_ok_iff.mp hsum
  rw [toInt_of_isInt (isInt_natCast hn), toInt_of_isInt (isInt_natCast (hi.trans hn))] at hlt
  exact_mod_cast hlt

section Block

variable {r i : ℕ} {blocks : List Word} {block : Word} (hblocks : ranks[r]? = some blocks)
  (hblock : blocks[i]? = some block)

include hblocks hblock

/-- The block of rank `r` for word `i` lies inside the received bytes, at the
    place of the rank's buffer and the place of the block in it together. -/
theorem block_bounds :
    start (ranks.map List.flatten) r + start blocks i + block.length ≤ (ranks.map List.flatten).flatten.length := by
  have hsend : (ranks.map List.flatten)[r]? = some blocks.flatten := by rw [List.getElem?_map, hblocks, Option.map_some]
  have hi := (List.getElem?_eq_some_iff.mp hblock).1
  have hr := (List.getElem?_eq_some_iff.mp hsend).1
  have hinner := start_le (Nat.succ_le_of_lt hi)
  have houter := start_le (Nat.succ_le_of_lt hr)
  rw [Nat.succ_eq_add_one, start_succ hblock] at hinner
  rw [Nat.succ_eq_add_one, start_succ hsend] at houter
  omega

theorem block_at : ((ranks.map List.flatten).flatten.drop
    (start blocks i + start (ranks.map List.flatten) r)).take block.length = block := by
  have hsend : (ranks.map List.flatten)[r]? = some blocks.flatten := by rw [List.getElem?_map, hblocks, Option.map_some]
  have hi := (List.getElem?_eq_some_iff.mp hblock).1
  have hinner := start_le (Nat.succ_le_of_lt hi)
  rw [Nat.succ_eq_add_one, start_succ hblock] at hinner
  have h := drop_start hblock (by omega : 0 + block.length ≤ block.length)
  rw [Nat.add_comm, drop_start hsend hinner]
  rwa [Nat.add_zero, List.drop_zero, List.take_length] at h

include hlength

/-- The gathered `len` of rank `r` for word `i`. -/
theorem len_at (hi : i < n) :
    ((ranks.map packed).map Packed.len).flatten[r * n + i]? = some (toInt block.length) := by
  rw [getElem?_flatten_uniform _ hi]
  · simp [hblocks, packed, hblock]
  · simp only [List.mem_map, forall_exists_index, and_imp, forall_apply_eq_imp_iff₂, packed, List.length_map]
    exact hlength

/-- The gathered `off` of rank `r` for word `i`. -/
theorem off_at (hi : i < n) :
    ((ranks.map packed).map Packed.off).flatten[r * n + i]? = some (toInt (start blocks i)) := by
  have hlt := (List.getElem?_eq_some_iff.mp hblock).1
  rw [getElem?_flatten_uniform _ hi]
  · simp [hblocks, packed, hlt]
  · simp only [List.mem_map, forall_exists_index, and_imp, forall_apply_eq_imp_iff₂, packed, List.length_map,
      List.length_range]
    exact hlength

end Block

include hlength hn hbytes

/-- One turn of the loop over the ranks inserts the records of that rank's
    block for the word, read from its place in the received bytes. -/
theorem mergeRank_eq {base : List Int} {r i : ℕ} {blocks : List Word} (hblocks : ranks[r]? = some blocks) (hi : i < n)
    (hindex : (ranks.length - 1) * n + i < 2147483648)
    (hbase : base[r]? = some (start (ranks.map List.flatten) r : Int)) (merged : List Word) :
    mergeRank n ((ranks.map packed).map Packed.off).flatten ((ranks.map packed).map Packed.len).flatten base
      (ranks.map List.flatten).flatten i merged r =
        .ok (insertAll strcmpLess merged (records (blocks[i]?.getD []))) := by
  have hr := (List.getElem?_eq_some_iff.mp hblocks).1
  have hblocksLength : blocks.length = n := hlength blocks (List.mem_of_getElem? hblocks)
  obtain ⟨block, hblock⟩ : ∃ block, blocks[i]? = some block := ⟨_, List.getElem?_eq_getElem (by omega)⟩
  have hbounds := block_bounds hblocks hblock
  have hlen := len_at hlength hblocks hblock hi
  have hoff := off_at hlength hblocks hblock hi
  rw [toInt_of_isInt (isInt_natCast (by omega))] at hlen hoff
  have hindexEq := flatIndex_eq hn hr hi hindex
  simp only [mergeRank, hindexEq, loop.bind_ok, vecAt_of_getElem? hlen, hblock, Option.getD_some]
  split
  · have hempty : block = [] := List.length_eq_zero_iff.mp (by omega)
    rw [hempty, loop.pure_eq_ok]
    rfl
  · rw [vecAt_of_getElem? hoff, loop.bind_ok, vecAt_of_getElem? hbase, loop.bind_ok, ← Int.natCast_add,
      checkInt_of_isInt (isInt_natCast (by omega)), loop.bind_ok]
    exact mergeRecords_eq (by omega) (block_at hblocks hblock) merged

theorem foldlM_mergeRank_eq {base : List Int} {i : ℕ} (hi : i < n) (hindex : (ranks.length - 1) * n + i < 2147483648)
    (hbase : ∀ r, r < ranks.length → base[r]? = some (start (ranks.map List.flatten) r : Int)) :
    (List.range ranks.length).foldlM (mergeRank n ((ranks.map packed).map Packed.off).flatten
      ((ranks.map packed).map Packed.len).flatten base (ranks.map List.flatten).flatten i) [] =
        .ok (insertAll strcmpLess [] (ranks.flatMap fun blocks => records (blocks[i]?.getD []))) := by
  obtain ⟨final, hfinal, hmerged⟩ := loop.foldlM_range_ok
    (mergeRank n ((ranks.map packed).map Packed.off).flatten ((ranks.map packed).map Packed.len).flatten base
      (ranks.map List.flatten).flatten i)
    (fun r merged => merged =
      insertAll strcmpLess [] ((ranks.take r).flatMap fun blocks => records (blocks[i]?.getD [])))
    ranks.length [] (by simp) (by
      rintro r merged hr rfl
      obtain ⟨blocks, hblocks⟩ : ∃ blocks, ranks[r]? = some blocks := ⟨_, List.getElem?_eq_getElem hr⟩
      refine ⟨_, mergeRank_eq hlength hn hbytes hblocks hi hindex (hbase r hr) _, ?_⟩
      rw [List.take_add_one, hblocks, List.flatMap_append, insertAll_append]
      simp)
  rw [hfinal, hmerged, List.take_length]

/-- The loop over the words collects their lines, in index order. -/
theorem foldlM_mergeWord_eq {wl : WordList} (hwords : wl.words.length = n) {present_global : List Byte}
    (hpresent : present_global.length = n) (hindex : IndexFits n ranks.length present_global) {base : List Int}
    (hbase : ∀ r, r < ranks.length → base[r]? = some (start (ranks.map List.flatten) r : Int)) :
    (List.range n).foldlM (mergeWord wl present_global ranks.length ((ranks.map packed).map Packed.off).flatten
      ((ranks.map packed).map Packed.len).flatten base (ranks.map List.flatten).flatten) [] =
        .ok ((List.range n).filterMap (mergedLine wl present_global ranks)) := by
  obtain ⟨result, hresult, hlines⟩ := loop.foldlM_range_ok
    (mergeWord wl present_global ranks.length ((ranks.map packed).map Packed.off).flatten
      ((ranks.map packed).map Packed.len).flatten base (ranks.map List.flatten).flatten)
    (fun i result => result = (List.range i).filterMap (mergedLine wl present_global ranks))
    n [] (by simp) (by
      rintro i result hi rfl
      obtain ⟨present, hat⟩ : ∃ present, present_global[i]? = some present :=
        ⟨_, List.getElem?_eq_getElem (by omega)⟩
      obtain ⟨word, hword⟩ : ∃ word, wl.words[i]? = some word := ⟨_, List.getElem?_eq_getElem (by omega)⟩
      unfold mergeWord
      rw [vecAt_of_getElem? hat, loop.bind_ok, List.range_succ, List.filterMap_append]
      by_cases hzero : present = 0
      · have hlast := hindex i hi (by rw [hat, hzero])
        rw [if_neg (by simp [hzero]), hwords, foldlM_mergeRank_eq hlength hn hbytes hi hlast hbase, loop.bind_ok,
          vecAt_of_getElem? hword, loop.bind_ok, loop.pure_eq_ok]
        refine ⟨_, rfl, ?_⟩
        simp [mergedLine, hat, hzero, hword]
      · rw [if_pos hzero, loop.pure_eq_ok]
        refine ⟨_, rfl, ?_⟩
        simp [mergedLine, hat, hzero])
  rw [hresult, hlines]

end Ranks

/-- Gathering one of the `int` vectors of all ranks. -/
theorem gather_packed {n : ℕ} (ranks : List (List Word)) (entries : Packed → List Int)
    (h : ∀ blocks ∈ ranks, (entries (packed blocks)).length = n) :
    MPI_Gather (n : Int) ((ranks.map packed).map entries) (List.replicate (n * ranks.length) 0) =
      .ok ((ranks.map packed).map entries).flatten := by
  refine MPI_Gather_eq (fun b hb => ?_) _ (by simp)
  simp only [List.mem_map, exists_exists_and_eq_and] at hb
  obtain ⟨blocks, hblocks, rfl⟩ := hb
  exact h blocks hblocks

theorem map_packed_big (ranks : List (List Word)) : (ranks.map packed).map Packed.big = ranks.map List.flatten := by
  rw [List.map_map]
  rfl

/-- No rank's buffer is too long for `int` when all of them together are not. -/
theorem isInt_big {ranks : List (List Word)} (hbytes : (ranks.map List.flatten).flatten.length < 2147483648) :
    ∀ pk ∈ ranks.map packed, IsInt (pk.big.length : Int) := by
  intro pk hpk
  obtain ⟨blocks, hblocks, rfl⟩ := List.mem_map.mp hpk
  have hle := (List.sublist_flatten_of_mem (List.mem_map_of_mem hblocks (f := List.flatten))).length_le
  exact isInt_natCast (Nat.lt_of_le_of_lt hle hbytes)

theorem big_bytes_eq {ranks : List (List Word)} (hbytes : (ranks.map List.flatten).flatten.length < 2147483648) :
    ((ranks.map packed).map fun pk => toInt pk.big.length) =
      (ranks.map List.flatten).map fun b => (b.length : Int) := by
  rw [map_toInt_eq (isInt_big hbytes), List.map_map, List.map_map]
  rfl

/-- Rank 0 obtains, for every index the mask leaves out, one line with the word
    and the records of all ranks for it, in index order. -/
theorem MergePackedAcrossRanks_eq (wl : WordList) (present_global : List Byte) (ranks : List (List Word))
    (hpresent : present_global.length = wl.words.length)
    (hlength : ∀ blocks ∈ ranks, blocks.length = wl.words.length) (hn : wl.words.length < 2147483648)
    (hindex : IndexFits wl.words.length ranks.length present_global)
    (hbytes : (ranks.map List.flatten).flatten.length < 2147483648) :
    MergePackedAcrossRanks wl present_global (ranks.map packed) 0 =
      .ok ((List.range wl.words.length).filterMap (mergedLine wl present_global ranks)) := by
  have hcount : toInt wl.words.length = wl.words.length := toInt_of_isInt (isInt_natCast hn)
  have hoff := gather_packed ranks Packed.off fun blocks hblocks =>
    show (packed blocks).off.length = wl.words.length by simp [packed, hlength blocks hblocks]
  have hlen := gather_packed ranks Packed.len fun blocks hblocks =>
    show (packed blocks).len.length = wl.words.length by simp [packed, hlength blocks hblocks]
  have hstarts : ∀ r, r < ranks.length →
      (starts (ranks.map List.flatten))[r]? = some (start (ranks.map List.flatten) r : Int) :=
    fun r hr => starts_getElem? (by rwa [List.length_map])
  have hneg : ¬ ((0 : Int) ≠ 0) := by simp
  rw [← hcount] at hoff hlen
  simp only [MergePackedAcrossRanks, if_neg hneg, List.length_map, big_bytes_eq hbytes, map_packed_big]
  rw [hoff, loop.bind_ok, hlen, loop.bind_ok, sumBytes_eq hbytes, loop.bind_ok, displacements_eq hbytes,
    loop.bind_ok, gatherBig_eq, loop.bind_ok, rankBase_eq hbytes, loop.bind_ok,
    foldlM_mergeWord_eq hlength hn hbytes rfl hpresent hindex hstarts]

end spellcheck.candidates
