import SpellChecker.Slice.Basic

namespace spellcheck.slice

theorem find_eq_none {buf : Word} {c : Byte} {pos : ℕ} (h : find buf c pos = none) :
    ∀ i, pos ≤ i → buf[i]? ≠ some c := by
  intro i hi hget
  unfold find at h
  rw [Option.map_eq_none_iff, List.findIdx?_eq_none_iff] at h
  have hmem : c ∈ buf.drop pos := by
    rw [List.mem_iff_getElem?]
    exact ⟨i - pos, by rw [List.getElem?_drop, Nat.add_sub_cancel' hi, hget]⟩
  simpa using h c hmem

theorem find_eq_some {buf : Word} {c : Byte} {pos p : ℕ} (h : find buf c pos = some p) :
    pos ≤ p ∧ buf[p]? = some c ∧ ∀ i, pos ≤ i → i < p → buf[i]? ≠ some c := by
  obtain ⟨k, hk, rfl⟩ := Option.map_eq_some_iff.mp h
  obtain ⟨hlt, hat, hbefore⟩ := List.findIdx?_eq_some_iff_getElem.mp hk
  refine ⟨Nat.le_add_right pos k, ?_, ?_⟩
  · rw [← List.getElem?_drop, List.getElem?_eq_getElem hlt]
    simpa using hat
  · intro i hi hip hget
    have hindex : i - pos < (buf.drop pos).length := by omega
    have hnot := hbefore (i - pos) (by omega)
    have hsame : (buf.drop pos)[i - pos]? = some c := by
      rw [List.getElem?_drop, Nat.add_sub_cancel' hi, hget]
    rw [List.getElem?_eq_getElem hindex, Option.some.injEq] at hsame
    simp [hsame] at hnot

theorem rfind_eq_none {buf : Word} {c : Byte} (h : rfind buf c = none) :
    ∀ i : ℕ, buf[i]? ≠ some c := by
  intro i hget
  unfold rfind at h
  rw [Option.map_eq_none_iff, List.findIdx?_eq_none_iff] at h
  simpa using h c (by simpa using List.mem_of_getElem? hget)

theorem rfind_eq_some {buf : Word} {c : Byte} {p : ℕ} (h : rfind buf c = some p) :
    buf[p]? = some c ∧ ∀ i, p < i → buf[i]? ≠ some c := by
  obtain ⟨k, hk, rfl⟩ := Option.map_eq_some_iff.mp h
  obtain ⟨hlt, hat, hbefore⟩ := List.findIdx?_eq_some_iff_getElem.mp hk
  rw [List.length_reverse] at hlt
  constructor
  · rw [List.getElem_reverse] at hat
    rw [List.getElem?_eq_getElem (by omega)]
    simpa using hat
  · intro i hi hget
    have hilt := (List.getElem?_eq_some_iff.mp hget).1
    have hnot := hbefore (buf.length - 1 - i) (by omega)
    have hsame : buf[i] = c := by simpa [hilt] using hget
    rw [List.getElem_reverse] at hnot
    simp only [(by omega : buf.length - 1 - (buf.length - 1 - i) = i), hsame] at hnot
    simp at hnot

/-- Where the window of the slice `[off, off + len)` ends in a file of `n` bytes. -/
def window_end (n off len : ℕ) : ℕ := min n (max off 256 + len + 256)

/-- How many bytes of the window are read: its length, converted to the `int`
    that counts them. -/
def read_count (n off len : ℕ) : ℕ := (toInt (window_end n off len - (off - 256) : ℕ)).toNat

/-- Where the bytes that are read end in the file. -/
def read_end (n off len : ℕ) : ℕ := off - 256 + read_count n off len

/-- The bytes of the window that are read. -/
def window (file : Word) (off len : ℕ) : Word := (file.take (read_end file.length off len)).drop (off - 256)

/-- The buffer for the window: behind the bytes that are read it keeps its zeros. -/
def buffer (file : Word) (off len : ℕ) : Word :=
  window file off len ++ List.replicate (window_end file.length off len - read_end file.length off len) 0

theorem read_off_eq (off len : ℕ) : read_off ⟨off, len⟩ = ((off - 256 : ℕ) : Int) := by
  change (if (off : Int) > 256 then (off : Int) - 256 else 0) = _
  split <;> omega

theorem max_len_eq {n off len : ℕ} (hfit : off + len ≤ n) :
    max_len ⟨off, len⟩ n = ((window_end n off len - (off - 256) : ℕ) : Int) := by
  unfold max_len
  rw [read_off_eq, window_end]
  change (if ((off - 256 : ℕ) : Int) + ((len : Int) + 2 * 256) > n then (n : Int) - ((off - 256 : ℕ) : Int)
    else (len : Int) + 2 * 256) = _
  split <;> omega

variable {file : Word} {off len : ℕ}

theorem window_bounds (hfit : off + len ≤ file.length) :
    off - 256 ≤ window_end file.length off len ∧ off + len ≤ window_end file.length off len ∧
      window_end file.length off len ≤ file.length := by
  simp only [window_end]
  omega

theorem read_bounds {n : ℕ} (hfit : off + len ≤ n) :
    off - 256 ≤ read_end n off len ∧ read_end n off len ≤ window_end n off len ∧ read_end n off len ≤ n := by
  have hle := toNat_toInt_le (window_end n off len - (off - 256))
  have hwindow : off - 256 ≤ window_end n off len ∧ window_end n off len ≤ n := by
    simp only [window_end]
    omega
  unfold read_end read_count
  omega

/-- The whole window is read exactly when its length is an `int`. -/
theorem read_end_eq_iff {n : ℕ} (hfit : off + len ≤ n) :
    read_end n off len = window_end n off len ↔ max_len ⟨off, len⟩ n < 2147483648 := by
  have hiff := toNat_toInt_eq_iff (window_end n off len - (off - 256))
  have hwindow : off - 256 ≤ window_end n off len := by
    simp only [window_end]
    omega
  rw [max_len_eq hfit]
  unfold read_end read_count
  omega

/-- A window whose length is no `int` is read at most up to `2^31` bytes before its end. -/
theorem read_end_add_le {n : ℕ} (hfit : off + len ≤ n) (hlong : ¬ max_len ⟨off, len⟩ n < 2147483648) :
    read_end n off len + 2147483648 ≤ window_end n off len := by
  rw [max_len_eq hfit] at hlong
  have hcount := toNat_toInt_add_le (n := window_end n off len - (off - 256)) (by omega)
  have hread : read_end n off len = off - 256 + (toInt (window_end n off len - (off - 256) : ℕ)).toNat := rfl
  omega

theorem window_eq : window file off len = (file.drop (off - 256)).take (read_count file.length off len) := by
  rw [window, read_end, List.drop_take, Nat.add_sub_cancel_left]

theorem length_window (hfit : off + len ≤ file.length) :
    (window file off len).length = read_end file.length off len - (off - 256) := by
  have hbounds := read_bounds hfit
  simp only [window, List.length_drop, List.length_take]
  omega

theorem length_buffer (hfit : off + len ≤ file.length) :
    (buffer file off len).length = window_end file.length off len - (off - 256) := by
  have hbounds := read_bounds hfit
  rw [buffer, List.length_append, length_window hfit, List.length_replicate]
  omega

theorem getElem?_window (i : ℕ) : (window file off len)[i]? =
    if off - 256 + i < read_end file.length off len then file[off - 256 + i]? else none := by
  unfold window
  rw [List.getElem?_drop, List.getElem?_take]

/-- A newline of the buffer is one of the file. -/
theorem getElem?_buffer_eq_newline (hfit : off + len ≤ file.length) {i : ℕ} :
    (buffer file off len)[i]? = some newline ↔
      off - 256 + i < read_end file.length off len ∧ file[off - 256 + i]? = some newline := by
  have hlength := length_window hfit
  by_cases hi : i < (window file off len).length
  · rw [buffer, List.getElem?_append_left hi, getElem?_window, if_pos (by omega)]
    exact ⟨fun h => ⟨by omega, h⟩, And.right⟩
  · rw [buffer, List.getElem?_append_right (by omega)]
    constructor
    · intro h
      exact absurd (List.eq_of_mem_replicate (List.mem_of_getElem? h)) (by decide)
    · intro h
      omega

/-- Position `i` of the file, where it has been read. -/
theorem getElem?_buffer_sub (hfit : off + len ≤ file.length) {i : ℕ} (hle : off - 256 ≤ i)
    (hlt : i < read_end file.length off len) (hat : file[i]? = some newline) :
    (buffer file off len)[i - (off - 256)]? = some newline := by
  rw [getElem?_buffer_eq_newline hfit, Nat.add_sub_cancel' hle]
  exact ⟨hlt, hat⟩

/-- The window lies inside the file, so the bytes that are read are there. -/
theorem read_buf_eq (hfit : off + len ≤ file.length) :
    read_buf file ⟨off, len⟩ file.length = .ok (buffer file off len) := by
  have hbounds := window_bounds hfit
  have hread := read_bounds hfit
  have hlen : max_len ⟨off, len⟩ file.length =
      ((window_end file.length off len - (off - 256) : ℕ) : Int) := max_len_eq hfit
  have hcount : (toInt ((window_end file.length off len - (off - 256) : ℕ) : Int)).toNat =
      read_count file.length off len := rfl
  have hrest : window_end file.length off len - (off - 256) - (read_end file.length off len - (off - 256)) =
      window_end file.length off len - read_end file.length off len := by omega
  simp only [read_buf, hlen, read_off_eq, Int.toNat_natCast, hcount, ← window_eq, length_window hfit, hrest, buffer]
  exact if_neg (by omega)

/-- The begin of the scan, as an offset in the file: the start of the file, a
    position the slice part of what is read has no newline for, or the first line
    start in the slice or behind it. -/
theorem slice_begin_cases (hfit : off + len ≤ file.length) :
    (off = 0 ∧ slice_begin ⟨off, len⟩ (buffer file off len) = 0) ∨
    (0 < off ∧ slice_begin ⟨off, len⟩ (buffer file off len) = 0 ∧
      ∀ i, off ≤ i + 1 → i < read_end file.length off len → file[i]? ≠ some newline) ∨
    ∃ first, 0 < off ∧ off ≤ first + 1 ∧ first < read_end file.length off len ∧
      file[first]? = some newline ∧ (∀ i, off ≤ i + 1 → i < first → file[i]? ≠ some newline) ∧
      off - 256 + slice_begin ⟨off, len⟩ (buffer file off len) = first + 1 := by
  by_cases hoff : off = 0
  · exact .inl ⟨hoff, by simp [slice_begin, hoff]⟩
  · have hrel : ((off : Int) - ((off - 256 : ℕ) : Int)).toNat = off - (off - 256) := by omega
    have hpos : (off : Int) > 0 := by omega
    simp only [slice_begin, read_off_eq, hrel, if_pos hpos, if_pos (by omega : off - (off - 256) > 0)]
    cases hfind : find (buffer file off len) newline (off - (off - 256) - 1) with
    | none =>
      refine .inr (.inl ⟨by omega, rfl, fun i hi hlt hget => ?_⟩)
      exact find_eq_none hfind (i - (off - 256)) (by omega) (getElem?_buffer_sub hfit (by omega) hlt hget)
    | some pos =>
      obtain ⟨hle, hat, hbefore⟩ := find_eq_some hfind
      obtain ⟨hlt, hat⟩ := (getElem?_buffer_eq_newline hfit).mp hat
      refine .inr (.inr ⟨off - 256 + pos, by omega, by omega, hlt, hat, fun i hi hlt' hget => ?_,
        (Nat.add_assoc _ pos 1).symm⟩)
      exact hbefore (i - (off - 256)) (by omega) (by omega) (getElem?_buffer_sub hfit (by omega) (by omega) hget)

/-- The end of the scan, as an offset in the file, as far as bytes are read: what
    is behind them has no newline. -/
theorem slice_end_cases (hfit : off + len ≤ file.length) (start : ℕ) :
    (off + len = file.length ∧
      off - 256 + slice_end ⟨off, len⟩ (buffer file off len) file.length start =
        window_end file.length off len) ∨
    (off + len < file.length ∧
      (∀ i, off - 256 ≤ i → i < read_end file.length off len → file[i]? ≠ some newline) ∧
      off - 256 + slice_end ⟨off, len⟩ (buffer file off len) file.length start =
        window_end file.length off len) ∨
    ∃ last, off + len < file.length ∧ off - 256 ≤ last ∧ last < read_end file.length off len ∧
      file[last]? = some newline ∧
      (∀ i, last < i → i < read_end file.length off len → file[i]? ≠ some newline) ∧
      off - 256 + slice_end ⟨off, len⟩ (buffer file off len) file.length start =
        if off - 256 + start < last then last else window_end file.length off len := by
  have hbounds := window_bounds hfit
  have hlength := length_buffer hfit
  by_cases hend : off + len = file.length
  · refine .inl ⟨hend, ?_⟩
    unfold slice_end
    rw [if_neg (by simp only; omega), hlength]
    omega
  · have hinside : (off : Int) + len < file.length := by omega
    simp only [slice_end, if_pos hinside]
    cases hfind : rfind (buffer file off len) newline with
    | none =>
      refine .inr (.inl ⟨by omega, fun i hi hlt hget => ?_, by simp only [hlength]; omega⟩)
      exact rfind_eq_none hfind (i - (off - 256)) (getElem?_buffer_sub hfit (by omega) hlt hget)
    | some last =>
      obtain ⟨hat, hafter⟩ := rfind_eq_some hfind
      obtain ⟨hlt, hat⟩ := (getElem?_buffer_eq_newline hfit).mp hat
      refine .inr (.inr ⟨off - 256 + last, by omega, by omega, hlt, hat, fun i hi hlt' hget => ?_, ?_⟩)
      · exact hafter (i - (off - 256)) (by omega) (getElem?_buffer_sub hfit (by omega) hlt' hget)
      · simp only [hlength]
        split <;> split <;> omega

/-- The scan begins and ends inside the window, in this order. -/
theorem slice_begin_le_end (hfit : off + len ≤ file.length) :
    off - 256 + slice_begin ⟨off, len⟩ (buffer file off len) ≤ read_end file.length off len ∧
      slice_begin ⟨off, len⟩ (buffer file off len) ≤
        slice_end ⟨off, len⟩ (buffer file off len) file.length
          (slice_begin ⟨off, len⟩ (buffer file off len)) ∧
      slice_end ⟨off, len⟩ (buffer file off len) file.length
          (slice_begin ⟨off, len⟩ (buffer file off len)) ≤ (buffer file off len).length := by
  have hbounds := window_bounds hfit
  have hread := read_bounds hfit
  have hlength := length_buffer hfit
  have hbegin : off - 256 + slice_begin ⟨off, len⟩ (buffer file off len) ≤ read_end file.length off len := by
    rcases slice_begin_cases hfit with ⟨_, h⟩ | ⟨_, h, _⟩ | ⟨first, _, _, hlt, _, _, h⟩ <;> omega
  refine ⟨hbegin, ?_⟩
  generalize slice_begin ⟨off, len⟩ (buffer file off len) = start at hbegin ⊢
  rcases slice_end_cases hfit start with ⟨_, h⟩ | ⟨_, _, h⟩ | ⟨last, _, _, hlt, _, _, h⟩
  · omega
  · omega
  · split at h <;> omega

end spellcheck.slice
