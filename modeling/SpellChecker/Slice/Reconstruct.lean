import SpellChecker.Slice.Partition

open lines blocks

namespace spellcheck.slice

section Padded

variable {file : Word} {width size : ℕ}

/-- A text whose lines have at most `width` bytes has a line start among any
    `width + 1` consecutive positions. -/
theorem exists_span_between (hclosed : Closed newline file)
    (hlines : ∀ entry ∈ spans newline 0 file, entry.2.length ≤ width) {pos : ℕ} (hpos : pos + width < file.length) :
    ∃ entry ∈ spans newline 0 file, pos ≤ entry.1 ∧ entry.1 ≤ pos + width := by
  obtain ⟨entry, hentry, hle, hge⟩ := exists_span_around hclosed (by omega : pos < file.length)
  have hwidth := hlines entry hentry
  by_cases hstart : entry.1 = pos
  · exact ⟨entry, hentry, by omega, by omega⟩
  · obtain ⟨next, hnext, hbehind⟩ := exists_span_behind hclosed hentry (by omega)
    exact ⟨next, hnext, by omega, by omega⟩

/-- With lines of at most 127 bytes the pad carries every line that starts in a
    slice: the line behind it, or the end of the file, is still in the window, of
    which everything is read. -/
theorem carried_of_short_lines (hclosed : Closed newline file)
    (hlines : ∀ entry ∈ spans newline 0 file, entry.2.length ≤ width) (hwidth : width ≤ 127)
    (hcut : width < file.length / size) {rank : ℕ} (hrank : rank < size)
    (hread : max_len (compute_slice file.length rank size) file.length < 2147483648) {entry : ℕ × Word}
    (hentry : entry ∈ spans newline 0 file)
    (hinside : entry.1 < slice_off file.length size rank + slice_len file.length size rank) :
    Carried file (slice_off file.length size rank) (slice_len file.length size rank) entry := by
  have hlength := hlines entry hentry
  have hown := spans_next hentry
  rw [Nat.sub_zero] at hown
  have hfile := (List.getElem?_eq_some_iff.mp hown).1
  rw [compute_slice_eq, ← read_end_eq_iff (slice_fits hrank)] at hread
  rw [← slice_off_succ] at hinside
  unfold Carried
  rw [hread]
  rcases Nat.lt_or_ge (rank + 1) size with hnext | hlast
  · have hfollowing := slice_fits (n := file.length) hnext
    have hbase : file.length / size ≤ slice_len file.length size (rank + 1) := Nat.le_add_right _ _
    obtain ⟨next, hmem, hbehind⟩ := exists_span_behind hclosed hentry (by omega)
    have hnextLength := hlines next hmem
    have hbounds := spans_bounds hmem
    have hnewline := spans_next hmem
    rw [Nat.sub_zero] at hnewline
    rw [slice_off_succ] at hinside
    refine .inr ⟨next.1 + next.2.length, ?_, by omega, hnewline⟩
    unfold window_end
    omega
  · have hlastEnd : slice_off file.length size rank + slice_len file.length size rank = file.length := by
      rw [← slice_off_succ, (by omega : rank + 1 = size), slice_off_size (by omega)]
    refine .inl ⟨hlastEnd, ?_⟩
    unfold window_end
    omega

/-- A reader whose window is shorter than `2^31` bytes keeps all lines that start
    in its slice. -/
theorem kept_lines_of_short_lines (hclosed : Closed newline file)
    (hlines : ∀ entry ∈ spans newline 0 file, entry.2.length ≤ width) (hwidth : width ≤ 127)
    (hcut : width < file.length / size) {rank : ℕ} (hrank : rank < size)
    (hread : max_len (compute_slice file.length rank size) file.length < 2147483648) :
    kept_lines file (slice_off file.length size rank) (slice_len file.length size rank) =
      (spans newline 0 file).filter
        (starts_in (slice_off file.length size rank) (slice_len file.length size rank)) := by
  unfold kept_lines
  apply List.filter_congr
  intro entry hentry
  have himplies (hstarts : starts_in (slice_off file.length size rank) (slice_len file.length size rank) entry) :
      entry.1 + entry.2.length <
        scan_end file (slice_off file.length size rank) (slice_len file.length size rank) := by
    simp only [starts_in, decide_eq_true_eq] at hstarts
    exact lt_scan_end_of_carried (slice_fits hrank) hstarts.1
      (carried_of_short_lines hclosed hlines hwidth hcut hrank hread hentry hstarts.2)
  rw [Bool.eq_iff_iff, decide_eq_true_eq]
  exact ⟨And.left, fun hstarts => ⟨hstarts, himplies hstarts⟩⟩

/-- When the texts of all ranks, one behind the other, are the file, every line
    is kept by a rank. -/
theorem exists_mem_kept_lines (htexts : (List.range size).flatMap (rank_text file size) = file)
    {entry : ℕ × Word} (hentry : entry ∈ spans newline 0 file) :
    ∃ rank < size, entry ∈ kept_lines file (slice_off file.length size rank) (slice_len file.length size rank) := by
  have hsublist := kept_lines_all_sublist file size
  have hlines (l : Word) (hl : l ∈ ((List.range size).flatMap fun rank =>
      kept_lines file (slice_off file.length size rank) (slice_len file.length size rank)).map Prod.snd) :
      newline ∉ l := by
    obtain ⟨kept, hkept, rfl⟩ := List.mem_map.mp hl
    exact (spans_bounds (hsublist.subset hkept)).2.2
  have hwhole : unlines newline (((List.range size).flatMap fun rank =>
      kept_lines file (slice_off file.length size rank) (slice_len file.length size rank)).map Prod.snd) = file := by
    rw [List.map_flatMap, unlines, List.flatMap_assoc]
    exact htexts
  -- The lines of the texts are the lines of the file, so none of these is missing.
  have hcount := congrArg List.length (spans_unlines hlines 0)
  rw [hwhole, List.length_map, List.length_map] at hcount
  rw [← hsublist.eq_of_length hcount.symm] at hentry
  simpa using hentry

/-- A rank whose window has `2^31` bytes or more misses the lines at the end of
    its slice. -/
theorem max_len_lt_of_texts (hclosed : Closed newline file)
    (hlines : ∀ entry ∈ spans newline 0 file, entry.2.length ≤ width) (hwidth : width ≤ 127)
    (hcut : width < file.length / size) (htexts : (List.range size).flatMap (rank_text file size) = file)
    {rank : ℕ} (hrank : rank < size) :
    max_len (compute_slice file.length rank size) file.length < 2147483648 := by
  have hfit := slice_fits (n := file.length) hrank
  have hbase : file.length / size ≤ slice_len file.length size rank := Nat.le_add_right _ _
  have hmono := slice_off_mono file.length size
  have hnext := slice_off_succ file.length size rank
  rw [compute_slice_eq]
  by_contra hlong
  have hread := read_end_add_le hfit hlong
  obtain ⟨entry, hentry, hle, hge⟩ := exists_span_between hclosed hlines
    (by omega : slice_off file.length size (rank + 1) - (width + 1) + width < file.length)
  obtain ⟨owner, -, hkept⟩ := exists_mem_kept_lines htexts hentry
  obtain ⟨-, ⟨hfirst, hlast⟩, hend⟩ := mem_kept_lines.mp hkept
  rw [← slice_off_succ] at hlast
  obtain rfl : owner = rank := by
    have hlt : owner < rank + 1 := hmono.reflect_lt (by omega)
    have hgt : rank < owner + 1 := hmono.reflect_lt (by omega)
    omega
  -- What is read ends more than a line before the slice does.
  have hscan := (scan_bounds hfit).2.1
  have hwindow : window_end file.length (slice_off file.length size owner) (slice_len file.length size owner) ≤
      slice_off file.length size (owner + 1) + 512 := by
    unfold window_end
    omega
  omega

/-- Rank 0 takes one of the bytes that are left over, if there are any. -/
theorem slice_len_zero (n : ℕ) {size : ℕ} (hsize : 0 < size) : slice_len n size 0 = (n + size - 1) / size := by
  have hdiv := Nat.div_add_mod n size
  have hmod := Nat.mod_lt n hsize
  refine (Nat.div_eq_of_lt_le ?_ ?_).symm
  · unfold slice_len
    rw [Nat.add_mul, Nat.mul_comm (n / size)]
    split <;> omega
  · unfold slice_len
    rw [Nat.add_mul, Nat.add_mul, Nat.mul_comm (n / size)]
    split <;> omega

/-- The windows of all ranks are short when that of rank 0 is: it is the longest. -/
theorem forall_max_len_lt_iff {n size : ℕ} (hsize : 0 < size) :
    (∀ rank < size, max_len (compute_slice n rank size) n < 2147483648) ↔
      n < 2147483648 ∨ (n + size - 1) / size + 512 < 2147483648 := by
  have hmax {rank : ℕ} (hrank : rank < size) := max_len_eq (slice_fits (n := n) hrank)
  rw [← slice_len_zero n hsize]
  constructor
  · intro h
    have hroot := h 0 hsize
    rw [compute_slice_eq, hmax hsize, slice_off_zero, window_end] at hroot
    omega
  · intro h rank hrank
    have hle := slice_len_antitone n size (Nat.zero_le rank)
    rw [compute_slice_eq, hmax hrank, window_end]
    omega

/-- For a file that ends in a newline, with lines of at most `width ≤ 127` bytes
    and slices longer than that: the texts of all ranks, one behind the other, are
    the file, and every rank receives a line, exactly when the longest window, that
    of rank 0, is shorter than `2^31` bytes. -/
theorem read_slice_aligned_reconstructs_iff (hend : file.getLast? = some newline)
    (hlines : ∀ entry ∈ spans newline 0 file, entry.2.length ≤ width) (hwidth : width ≤ 127)
    (hsize : 0 < size) (hcut : width < file.length / size) :
    (∃ texts : ℕ → Word,
      (∀ rank < size, read_slice_aligned file (compute_slice file.length rank size) file.length = .ok (texts rank)) ∧
      (List.range size).flatMap texts = file ∧ ∀ rank < size, spans newline 0 (texts rank) ≠ []) ↔
    file.length < 2147483648 ∨ (file.length + size - 1) / size + 512 < 2147483648 := by
  have hclosed : Closed newline file := .inr hend
  rw [← forall_max_len_lt_iff hsize]
  constructor
  · rintro ⟨texts, htexts, hfile, -⟩ rank hrank
    refine max_len_lt_of_texts hclosed hlines hwidth hcut (Eq.trans ?_ hfile) hrank
    apply List.flatMap_congr
    intro other hother
    have hlt := List.mem_range.mp hother
    exact Except.ok.inj ((read_rank_slice hlt).symm.trans (htexts other hlt))
  intro hread
  have hkept {rank : ℕ} (hrank : rank < size) :=
    kept_lines_of_short_lines hclosed hlines hwidth hcut hrank (hread rank hrank)
  refine ⟨rank_text file size, fun rank hrank => read_rank_slice hrank, ?_, fun rank hrank => ?_⟩
  · have hwhole := congrArg (fun entries => unlines newline (entries.map Prod.snd)) (flatMap_starts_in file hsize)
    rw [unlines_spans hclosed, List.map_flatMap, unlines, List.flatMap_assoc] at hwhole
    refine Eq.trans ?_ hwhole
    apply List.flatMap_congr
    intro rank hrank
    unfold rank_text
    rw [hkept (List.mem_range.mp hrank), unlines]
  · have hfit := slice_fits (n := file.length) hrank
    have hbase : file.length / size ≤ slice_len file.length size rank := Nat.le_add_right _ _
    obtain ⟨entry, hentry, hle, hge⟩ := exists_span_between hclosed hlines
      (by omega : slice_off file.length size rank + width < file.length)
    have hmem : entry ∈ kept_lines file (slice_off file.length size rank) (slice_len file.length size rank) := by
      rw [hkept hrank, List.mem_filter]
      exact ⟨hentry, by simp only [starts_in, decide_eq_true_eq]; omega⟩
    intro hnil
    have hlines := spans_rank_text file size rank
    rw [hnil, List.map_nil, eq_comm, List.map_eq_nil_iff] at hlines
    simp [hlines] at hmem

end Padded

/-- Of a file of `2^31` to `2^32` bytes a single rank reads nothing: the count of
    `MPI_File_read_at` is negative. -/
theorem read_slice_aligned_one_eq_nil {file : Word} (hlow : 2147483648 ≤ file.length)
    (hhigh : file.length < 4294967296) :
    read_slice_aligned file (compute_slice file.length 0 1) file.length = .ok [] := by
  have hrange := isInt_toInt file.length
  have hcases := toInt_eq_or file.length
  have hread : read_end file.length (slice_off file.length 1 0) (slice_len file.length 1 0) ≤ 0 := by
    rw [slice_off_zero, slice_len_one, read_end, read_count,
      (by unfold window_end; omega : window_end file.length 0 file.length - (0 - 256) = file.length)]
    unfold IsInt at hrange
    omega
  have hnone := kept_lines_eq_nil (slice_fits (n := file.length) (by decide : 0 < 1)) (hread.trans (Nat.zero_le _))
  have hone := @read_rank_slice file 1 0 (by decide)
  rw [rank_text, hnone] at hone
  exact hone

/-- The reader of a single rank finds nothing in a file of `2^30` lines `a`. -/
theorem read_slice_aligned_reads_nothing :
    let file := unlines newline (List.replicate 1073741824 [97])
    file.getLast? = some newline ∧ (∀ entry ∈ spans newline 0 file, entry.2.length ≤ 1) ∧ 1 < file.length / 1 ∧
      read_slice_aligned file (compute_slice file.length 0 1) file.length = .ok [] ∧
      ¬ ∃ texts : ℕ → Word,
        (∀ rank : ℕ, rank < 1 →
          read_slice_aligned file (compute_slice file.length rank 1) file.length = .ok (texts rank)) ∧
        (List.range 1).flatMap texts = file ∧ ∀ rank : ℕ, rank < 1 → spans newline 0 (texts rank) ≠ [] := by
  have hcount : 1073741824 * 2 = 2147483648 := rfl
  generalize 1073741824 = count at hcount ⊢
  intro file
  have hlines : ∀ l ∈ List.replicate count ([97] : Word), newline ∉ l := by
    intro l hl
    rw [List.eq_of_mem_replicate hl]
    decide
  have hlength : file.length = count * 2 := by simp [file, length_unlines]
  have hnone := @read_slice_aligned_one_eq_nil file (by omega) (by omega)
  refine ⟨?_, fun entry hentry => ?_, by omega, hnone, ?_⟩
  · obtain ⟨rest, rfl⟩ : ∃ rest, count = rest + 1 := ⟨count - 1, by omega⟩
    simp [file, List.replicate_succ', unlines]
  · have hmem := List.mem_map_of_mem (f := Prod.snd) hentry
    rw [spans_unlines hlines] at hmem
    rw [List.eq_of_mem_replicate hmem]
    decide
  · rintro ⟨texts, htexts, -, hline⟩
    have hempty := Except.ok.inj (hnone.symm.trans (htexts 0 (by decide)))
    exact hline 0 (by decide) (by rw [← hempty]; rfl)

/-- Three lines of one byte cut for two ranks. -/
theorem read_slice_aligned_reconstructs_iff_small :
    ∃ texts : ℕ → Word,
      (∀ rank : ℕ, rank < 2 →
        read_slice_aligned [97, 10, 98, 10, 99, 10] (compute_slice 6 rank 2) 6 = .ok (texts rank)) ∧
      (List.range 2).flatMap texts = [97, 10, 98, 10, 99, 10] ∧
      ∀ rank : ℕ, rank < 2 → spans newline 0 (texts rank) ≠ [] :=
  (@read_slice_aligned_reconstructs_iff [97, 10, 98, 10, 99, 10] 1 2 (by decide) (by decide) (by decide) (by decide)
    (by decide)).mpr (by decide)

end spellcheck.slice
