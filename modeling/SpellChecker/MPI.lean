import SpellChecker.Data.Blocks
import SpellChecker.Data.Loop
import SpellChecker.Machine

open blocks

namespace spellcheck.mpi

/-- What a call makes of a count that it is handed. -/
def checkCount (count : Int) : Except Fault Unit := if count < 0 then .error .badCount else .ok ()

theorem checkCount_of_nonneg {count : Int} (h : 0 ≤ count) : checkCount count = .ok () := if_neg (not_lt.mpr h)

theorem checkCount_of_neg {count : Int} (h : count < 0) : checkCount count = .error .badCount := if_pos h

/-- One negative count among several is enough. -/
theorem forM_checkCount (counts : List Int) :
    counts.forM checkCount = if ∃ count ∈ counts, count < 0 then .error .badCount else .ok () := by
  induction counts with
  | nil => simp
  | cons count counts ih =>
    have hcons : (count :: counts).forM checkCount = checkCount count >>= fun _ => counts.forM checkCount := rfl
    rw [hcons]
    by_cases hcount : count < 0
    · rw [checkCount_of_neg hcount, if_pos ⟨count, by simp, hcount⟩]
      rfl
    · rw [checkCount_of_nonneg (not_lt.mp hcount), loop.bind_ok, ih]
      simp [hcount]

/-- `MPI_Allreduce` with `MPI_BOR` on the first `count` bytes of every rank's
    vector; `recv` is the receive buffer before the call. -/
def MPI_Allreduce_BOR (count : Int) (sends : List (List Byte)) (recv : List Byte) : Except Fault (List Byte) :=
  if count < 0 then .error .badCount
  else .ok ((sends.map (·.take count.toNat)).foldl (List.zipWith (· ||| ·)) (List.replicate count.toNat 0) ++
    recv.drop count.toNat)

/-- `MPI_Bcast` of the first `count` bytes, as any rank sees it: `root` is the
    buffer of rank 0, and `buf` its own before the call. -/
def MPI_Bcast (count : Int) (root buf : Word) : Except Fault Word :=
  if count < 0 then .error .badCount
  else .ok (root.take count.toNat ++ buf.drop count.toNat)

/-- `MPI_Gather`, as rank 0 sees it: every rank's block of `count` elements is
    placed at its rank's position in `recv`. -/
def MPI_Gather {α : Type} (count : Int) (sends : List (List α)) (recv : List α) : Except Fault (List α) :=
  if count < 0 then .error .badCount
  else if recv.length < count.toNat * sends.length then .error .outOfBounds
  else .ok (sends.flatMap (·.take count.toNat) ++ recv.drop (count.toNat * sends.length))

/-- What `MPI_Gatherv` does with the block of one rank: it is placed at the
    rank's displacement. -/
def placeBlock (sends : List Word) (counts displs : List Int) (recv : Word) (r : ℕ) : Except Fault Word := do
  let send ← vecAt sends r
  let count ← vecAt counts r
  let displ ← vecAt displs r
  if displ < 0 ∨ (recv.length : Int) < displ + count then .error .outOfBounds
  else .ok (recv.take displ.toNat ++ send.take count.toNat ++ recv.drop (displ + count).toNat)

/-- `MPI_Gatherv`, as rank 0 sees it. -/
def MPI_Gatherv (sends : List Word) (counts displs : List Int) (recv : Word) : Except Fault Word := do
  counts.forM checkCount
  (List.range sends.length).foldlM (placeBlock sends counts displs) recv

theorem foldl_or_spec {n : ℕ} {sends : List (List Byte)} (hlength : ∀ s ∈ sends, s.length = n) {acc : List Byte}
    (hacc : acc.length = n) :
    (sends.foldl (List.zipWith (· ||| ·)) acc).length = n ∧
      ∀ i, i < n → ((sends.foldl (List.zipWith (· ||| ·)) acc)[i]? = some 0 ↔
        acc[i]? = some 0 ∧ ∀ s ∈ sends, s[i]? = some 0) := by
  induction sends generalizing acc with
  | nil => simp [hacc]
  | cons s sends ih =>
    have hs : s.length = n := hlength s (by simp)
    have hzip : (List.zipWith (· ||| ·) acc s).length = n := by simp [hacc, hs]
    obtain ⟨hresult, hzero⟩ := ih (fun s hs => hlength s (by simp [hs])) hzip
    refine ⟨hresult, fun i hi => ?_⟩
    rw [List.foldl_cons, hzero i hi]
    have hboth : (List.zipWith (· ||| ·) acc s)[i]? = some 0 ↔ acc[i]? = some 0 ∧ s[i]? = some 0 := by
      simp [List.getElem?_zipWith, List.getElem?_eq_getElem (by omega : i < acc.length),
        List.getElem?_eq_getElem (by omega : i < s.length)]
    rw [hboth, List.forall_mem_cons, and_assoc]

/-- A byte of the reduction is zero exactly when it is zero on every rank. -/
theorem MPI_Allreduce_BOR_spec {n : ℕ} {sends : List (List Byte)} (hlength : ∀ s ∈ sends, s.length = n)
    {recv : List Byte} (hrecv : recv.length = n) :
    ∃ result, MPI_Allreduce_BOR (n : Int) sends recv = .ok result ∧ result.length = n ∧
      ∀ i, i < n → (result[i]? = some 0 ↔ ∀ s ∈ sends, s[i]? = some 0) := by
  have htake : sends.map (·.take n) = sends := by
    conv_rhs => rw [← List.map_id sends]
    exact List.map_congr_left fun s hs => List.take_of_length_le (hlength s hs).le
  obtain ⟨hresult, hzero⟩ := foldl_or_spec hlength (show (List.replicate n (0 : Byte)).length = n by simp)
  refine ⟨_, ?_, hresult, fun i hi => ?_⟩
  · unfold MPI_Allreduce_BOR
    rw [if_neg (by omega), Int.toNat_natCast, htake, List.drop_of_length_le hrecv.le,
      List.append_nil]
  · rw [hzero i hi]
    simp [hi]

theorem MPI_Gather_eq {α : Type} {n : ℕ} {sends : List (List α)} (hlength : ∀ b ∈ sends, b.length = n)
    (recv : List α) (hrecv : recv.length = n * sends.length) :
    MPI_Gather (n : Int) sends recv = .ok sends.flatten := by
  have htake : sends.flatMap (·.take n) = sends.flatten := by
    rw [← List.flatMap_id']
    exact List.flatMap_congr fun b hb => List.take_of_length_le (hlength b hb).le
  unfold MPI_Gather
  rw [if_neg (by omega), Int.toNat_natCast, if_neg (by omega), htake,
    List.drop_of_length_le hrecv.le, List.append_nil]

/-- The receive buffer of a gather before the block of rank `r` is placed. -/
structure GatheredUpTo (sends : List Word) (recv : Word) (r : ℕ) (now : Word) : Prop where
  done : now.take (start sends r) = (sends.take r).flatten
  length : now.length = recv.length
  untouched : now.drop sends.flatten.length = recv.drop sends.flatten.length

/-- A block with its own length as count, at the place where it starts in the
    concatenation, extends the part of the buffer that is done. -/
theorem placeBlock_step {sends : List Word} {displs : List Int} {recv now : Word} {r : ℕ} (hr : r < sends.length)
    (hdispl : displs[r]? = some (start sends r : Int)) (hrecv : sends.flatten.length ≤ recv.length)
    (h : GatheredUpTo sends recv r now) :
    ∃ next, placeBlock sends (sends.map fun b => (b.length : Int)) displs now r = .ok next ∧
      GatheredUpTo sends recv (r + 1) next := by
  obtain ⟨hdone, hlength, htail⟩ := h
  obtain ⟨block, hblock⟩ : ∃ block, sends[r]? = some block := ⟨_, List.getElem?_eq_getElem hr⟩
  have hnext := start_succ hblock
  have hend := start_le (Nat.succ_le_of_lt hr)
  rw [Nat.succ_eq_add_one, hnext] at hend
  have hcount : (sends.map fun b => (b.length : Int))[r]? = some (block.length : Int) := by simp [hblock]
  have hbefore : (now.take (start sends r)).length = start sends r := by
    rw [List.length_take]
    omega
  have hwritten : (now.take (start sends r) ++ block).length = start sends r + block.length := by
    rw [List.length_append, hbefore]
  have hinside : ¬ ((start sends r : Int) < 0 ∨ (now.length : Int) < start sends r + block.length) := by omega
  refine ⟨now.take (start sends r) ++ block ++ now.drop (start sends r + block.length), ?_, ?_, ?_, ?_⟩
  · unfold placeBlock
    rw [vecAt_of_getElem? hblock, loop.bind_ok, vecAt_of_getElem? hcount, loop.bind_ok, vecAt_of_getElem? hdispl,
      loop.bind_ok, if_neg hinside]
    rw [Int.toNat_natCast, Int.toNat_natCast, ← Int.natCast_add, Int.toNat_natCast, List.take_length]
  · rw [hnext, List.take_add_one, hblock, List.flatten_append, ← hdone, List.take_left' hwritten]
    simp
  · rw [List.length_append, hwritten, List.length_drop]
    omega
  · rw [List.drop_append, List.drop_of_length_le (by omega), List.nil_append, hwritten, List.drop_drop,
      Nat.add_sub_cancel' hend, htail]

/-- With every block at the place where it starts in the concatenation, the
    receive buffer begins with the concatenation; the rest of it is untouched. -/
theorem MPI_Gatherv_eq {sends : List Word} {displs : List Int}
    (hdispls : ∀ r, r < sends.length → displs[r]? = some (start sends r : Int)) (recv : Word)
    (hrecv : sends.flatten.length ≤ recv.length) :
    MPI_Gatherv sends (sends.map fun b => (b.length : Int)) displs recv =
      .ok (sends.flatten ++ recv.drop sends.flatten.length) := by
  obtain ⟨final, hfinal, hwhole, -, htail⟩ := loop.foldlM_range_ok
    (placeBlock sends (sends.map fun b => (b.length : Int)) displs) (GatheredUpTo sends recv) sends.length recv
    ⟨by simp, rfl, rfl⟩ fun r now hr h => placeBlock_step hr (hdispls r hr) hrecv h
  rw [start_length, List.take_length] at hwhole
  have hsplit := List.take_append_drop sends.flatten.length final
  rw [hwhole, htail] at hsplit
  have hcounts : ¬ ∃ count ∈ sends.map fun b => (b.length : Int), count < 0 := by
    simp
  unfold MPI_Gatherv
  rw [forM_checkCount, if_neg hcounts, loop.bind_ok, hfinal, hsplit]

end spellcheck.mpi
