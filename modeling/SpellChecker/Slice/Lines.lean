import SpellChecker.Data.Lines
import SpellChecker.Slice.Window

open lines

namespace spellcheck.slice

/-- Whether a line starts in the slice `[off, off + len)`. -/
def starts_in (off len : ℕ) (entry : ℕ × Word) : Bool := off ≤ entry.1 ∧ entry.1 < off + len

/-- Where the scan of a slice begins, as an offset in the file. -/
def scan_begin (file : Word) (off len : ℕ) : ℕ := off - 256 + slice_begin ⟨off, len⟩ (buffer file off len)

/-- Where the scan of a slice ends, as an offset in the file: at the latest
    behind the bytes that have been read. -/
def scan_end (file : Word) (off len : ℕ) : ℕ :=
  min (off - 256 + slice_end ⟨off, len⟩ (buffer file off len) file.length
    (slice_begin ⟨off, len⟩ (buffer file off len))) (read_end file.length off len)

/-- The lines the reader of a slice keeps, with their offsets in the file: those
    that start in the slice and end before the scan does. -/
def kept_lines (file : Word) (off len : ℕ) : List (ℕ × Word) :=
  (spans newline 0 file).filter fun entry =>
    starts_in off len entry ∧ entry.1 + entry.2.length < scan_end file off len

theorem foldl_append_if {α β : Type} (p : α → Prop) [DecidablePred p] (f : α → β) (l : List α) (acc : List β) :
    l.foldl (fun acc a => if p a then acc ++ [f a] else acc) acc = acc ++ (l.filter p).map f := by
  induction l generalizing acc with
  | nil => simp
  | cons a l ih =>
    rw [List.foldl_cons, ih, List.filter_cons]
    by_cases h : p a <;> simp [h]

/-- The scan keeps the complete lines of its text that start in the slice. -/
theorem aligned_lines_eq (off len base : ℕ) (aligned : Word) :
    aligned_lines ⟨off, len⟩ aligned base =
      ((spans newline base aligned).filter (starts_in off len)).map Prod.snd := by
  have hscan := foldl_range_eq_spans newline aligned
    (fun (acc : List Word) start line =>
      if (base : Int) + start ≥ off ∧ (base : Int) + start < off + len then acc ++ [line] else acc) []
  unfold aligned_lines
  rw [hscan, foldl_append_if
    (fun entry : ℕ × Word => (base : Int) + entry.1 ≥ off ∧ (base : Int) + entry.1 < off + len),
    List.nil_append, spans_shift newline base aligned, List.filter_map, List.map_map]
  congr 1
  apply List.filter_congr
  intro entry _
  simp only [Function.comp, starts_in, decide_eq_decide]
  omega

/-- A line that starts in the slice is carried to its rank: it is read with its
    newline, and the slice ends the file or a further newline is read behind it. -/
def Carried (file : Word) (off len : ℕ) (entry : ℕ × Word) : Prop :=
  off + len = file.length ∧ entry.1 + entry.2.length < read_end file.length off len ∨
    ∃ e < read_end file.length off len, entry.1 + entry.2.length < e ∧ file[e]? = some newline

theorem carried_iff (file : Word) (off len : ℕ) (entry : ℕ × Word) : Carried file off len entry ↔
    off + len = file.length ∧ entry.1 + entry.2.length < read_end file.length off len ∨
      newline ∈ (file.take (read_end file.length off len)).drop (entry.1 + entry.2.length + 1) := by
  refine or_congr_right ?_
  rw [List.mem_iff_getElem?]
  constructor
  · rintro ⟨e, he, hbehind, hat⟩
    refine ⟨e - (entry.1 + entry.2.length + 1), ?_⟩
    rw [List.getElem?_drop, List.getElem?_take, Nat.add_sub_cancel' hbehind, if_pos he, hat]
  · rintro ⟨i, hat⟩
    rw [List.getElem?_drop, List.getElem?_take] at hat
    split at hat
    · rename_i hlt
      exact ⟨_, hlt, by omega, hat⟩
    · cases hat

/-- A carried line is read whole. -/
theorem Carried.lt_read_end {file : Word} {off len : ℕ} {entry : ℕ × Word} (h : Carried file off len entry) :
    entry.1 + entry.2.length < read_end file.length off len := by
  obtain ⟨-, hread⟩ | ⟨e, he, hbehind, -⟩ := h
  · exact hread
  · omega

instance (file : Word) (off len : ℕ) (entry : ℕ × Word) : Decidable (Carried file off len entry) :=
  decidable_of_iff' _ (carried_iff file off len entry)

variable {file : Word} {off len : ℕ}

theorem scan_bounds (hfit : off + len ≤ file.length) :
    scan_begin file off len ≤ scan_end file off len ∧
      scan_end file off len ≤ read_end file.length off len ∧
      read_end file.length off len ≤ file.length := by
  obtain ⟨hbegin, hle, -⟩ := slice_begin_le_end hfit
  have hread := read_bounds hfit
  simp only [scan_begin, scan_end]
  omega

/-- The end of the scan: behind what is read, or the last newline there. -/
theorem scan_end_cases (hfit : off + len ≤ file.length) :
    (off + len = file.length ∧ scan_end file off len = read_end file.length off len) ∨
    (off + len < file.length ∧
      (∀ i, off - 256 ≤ i → i < read_end file.length off len → file[i]? ≠ some newline) ∧
      scan_end file off len = read_end file.length off len) ∨
    ∃ last, off + len < file.length ∧ off - 256 ≤ last ∧ last < read_end file.length off len ∧
      file[last]? = some newline ∧
      (∀ i, last < i → i < read_end file.length off len → file[i]? ≠ some newline) ∧
      scan_end file off len = if scan_begin file off len < last then last else read_end file.length off len := by
  have hread := read_bounds hfit
  unfold scan_end scan_begin
  rcases slice_end_cases hfit (slice_begin ⟨off, len⟩ (buffer file off len)) with
    ⟨hend, hstop⟩ | ⟨hlt, hnone, hstop⟩ | ⟨last, hlt, hle, hlast, hat, hafter, hstop⟩
  · exact .inl ⟨hend, by omega⟩
  · exact .inr (.inl ⟨hlt, hnone, by omega⟩)
  · refine .inr (.inr ⟨last, hlt, hle, hlast, hat, hafter, ?_⟩)
    rw [hstop]
    split <;> omega

/-- A line that starts in the slice lies behind the begin of the scan, and no
    line before the begin does. -/
theorem filter_starts_in (hfit : off + len ≤ file.length) :
    (spans newline (scan_begin file off len)
      ((file.drop (scan_begin file off len)).take (scan_end file off len - scan_begin file off len))).filter
        (starts_in off len) = kept_lines file off len := by
  obtain ⟨hend, hstop, hlength⟩ := scan_bounds hfit
  have hbegin := slice_begin_cases hfit
  -- From here on only the position of the begin and the order of the bounds matter.
  unfold kept_lines
  generalize scan_end file off len = stop at hend hstop ⊢
  generalize hcut : scan_begin file off len = cut at hend ⊢
  unfold scan_begin at hcut
  rcases hbegin with ⟨rfl, hzero⟩ | ⟨hpos, hzero, hnewline⟩ | ⟨first, hpos, hfirst, hlt, hat, hnewline, heq⟩
  · obtain rfl : cut = 0 := by omega
    exact spans_filter_piece (by simpa using closed_nil newline) hend (Nat.zero_le _) (by simp)
  · -- No line starts in the slice and ends in what is read: it would follow a newline there.
    have hnone (entry : ℕ × Word) (hstarts : starts_in off len entry = true)
        (hinside : entry.1 + entry.2.length < stop) : file[entry.1 - 1]? ≠ some newline := by
      simp only [starts_in, decide_eq_true_eq] at hstarts
      exact hnewline _ (by omega) (by omega)
    have hbehind (entry : ℕ × Word) (hstarts : starts_in off len entry = true) : cut < entry.1 := by
      simp only [starts_in, decide_eq_true_eq] at hstarts
      omega
    rw [List.filter_eq_nil_iff.mpr, List.filter_eq_nil_iff.mpr]
    · intro entry hentry hkept
      obtain ⟨hstarts, hinside⟩ := of_decide_eq_true hkept
      exact hnone entry hstarts hinside (spans_previous hentry (Nat.zero_lt_of_lt (hbehind entry hstarts)))
    · intro entry hentry hstarts
      obtain ⟨hinside, hprevious⟩ := spans_piece_previous hentry (hbehind entry hstarts)
      exact hnone entry hstarts (by omega) hprevious
  · obtain rfl : cut = first + 1 := by omega
    have hfirstLength : first < file.length := (List.getElem?_eq_some_iff.mp hat).1
    apply spans_filter_piece (.inr ?_) hend (by omega)
    · intro entry hentry
      simp only [starts_in, decide_eq_false_iff_not]
      intro hstarts
      have hpiece : entry ∈ spans newline 0 ((file.drop 0).take (first + 1)) := hentry
      obtain ⟨hinside, hprevious⟩ := spans_piece_previous hpiece (by omega)
      exact hnewline _ (by omega) (by omega) hprevious
    · rw [List.getLast?_eq_getElem?, List.length_take, Nat.min_eq_left (by omega), Nat.add_sub_cancel,
        List.getElem?_take, if_pos (by omega), hat]

/-- The text `aligned` is the piece of the file between the ends of the scan,
    with zeros behind it where the buffer has not been filled. -/
theorem aligned_eq (hfit : off + len ≤ file.length) :
    ∃ unread, ((buffer file off len).drop (slice_begin ⟨off, len⟩ (buffer file off len))).take
      (slice_end ⟨off, len⟩ (buffer file off len) file.length
        (slice_begin ⟨off, len⟩ (buffer file off len)) - slice_begin ⟨off, len⟩ (buffer file off len)) =
      (file.drop (scan_begin file off len)).take (scan_end file off len - scan_begin file off len) ++
        List.replicate unread 0 := by
  obtain ⟨hbegin, hle, -⟩ := slice_begin_le_end hfit
  have hread := read_bounds hfit
  have hlength := length_window hfit
  simp only [scan_begin, scan_end]
  generalize slice_end ⟨off, len⟩ (buffer file off len) file.length
    (slice_begin ⟨off, len⟩ (buffer file off len)) = stop at hle ⊢
  generalize slice_begin ⟨off, len⟩ (buffer file off len) = rel at hbegin hle ⊢
  have hcount : min (stop - rel) (read_end file.length off len - (off - 256 + rel)) =
      min (off - 256 + stop) (read_end file.length off len) - (off - 256 + rel) := by omega
  rw [buffer, List.drop_append_of_le_length (by omega), List.take_append, List.take_replicate]
  refine ⟨_, congrArg (· ++ _) ?_⟩
  rw [window, List.drop_drop, List.drop_take, List.take_take, hcount]

/-- `read_slice_aligned` does not throw and returns the kept lines, whole and in
    file order, each followed by a newline. -/
theorem read_slice_aligned_eq (hfit : off + len ≤ file.length) :
    read_slice_aligned file ⟨off, len⟩ file.length =
      .ok (unlines newline ((kept_lines file off len).map Prod.snd)) := by
  obtain ⟨-, hle, hinside⟩ := slice_begin_le_end hfit
  obtain ⟨unread, haligned⟩ := aligned_eq hfit
  have hbase : read_off ⟨off, len⟩ + (slice_begin ⟨off, len⟩ (buffer file off len) : Int) =
      (scan_begin file off len : Int) := by
    rw [read_off_eq, scan_begin]
    omega
  have hzeros : newline ∉ List.replicate unread (0 : Byte) := fun h => absurd (List.eq_of_mem_replicate h) (by decide)
  rw [read_slice_aligned, read_buf_eq hfit, loop.bind_ok]
  simp only [size_sub, if_pos hle, substr, if_neg (Nat.not_lt.mpr (hle.trans hinside)), loop.bind_ok,
    haligned, hbase, aligned_lines_eq, spans_append_of_notMem hzeros, filter_starts_in hfit, foldl_append_line,
    List.nil_append, loop.pure_eq_ok]

theorem mem_kept_lines {entry : ℕ × Word} : entry ∈ kept_lines file off len ↔
    entry ∈ spans newline 0 file ∧ (off ≤ entry.1 ∧ entry.1 < off + len) ∧
      entry.1 + entry.2.length < scan_end file off len := by
  simp [kept_lines, starts_in]

/-- Without a byte of the slice read, no line is kept. -/
theorem kept_lines_eq_nil (hfit : off + len ≤ file.length) (hread : read_end file.length off len ≤ off) :
    kept_lines file off len = [] := by
  have hscan := (scan_bounds hfit).2.1
  rw [List.eq_nil_iff_forall_not_mem]
  intro entry hentry
  obtain ⟨-, hstarts, hend⟩ := mem_kept_lines.mp hentry
  omega

/-- A carried line is kept. -/
theorem lt_scan_end_of_carried (hfit : off + len ≤ file.length) {entry : ℕ × Word} (hstart : off ≤ entry.1)
    (hcarried : Carried file off len entry) : entry.1 + entry.2.length < scan_end file off len := by
  have hread := hcarried.lt_read_end
  rcases scan_end_cases hfit with ⟨_, hend⟩ | ⟨hlt, hnone, _⟩ | ⟨last, hlt, _, hlast, _, hafter, hend⟩
  · omega
  · obtain h | ⟨e, he, hbehind, hat⟩ := hcarried
    · omega
    · exact absurd hat (hnone e (by omega) he)
  · obtain h | ⟨e, he, hbehind, hat⟩ := hcarried
    · omega
    · have hle : e ≤ last := by
        by_contra hnot
        exact hafter e (by omega) he hat
      rw [hend]
      split <;> omega

/-- A kept line that is not empty is carried: only an empty line can be kept
    with its own newline as the last one that is read. -/
theorem carried_of_lt_scan_end (hfit : off + len ≤ file.length) {entry : ℕ × Word}
    (hentry : entry ∈ spans newline 0 file) (hstart : off ≤ entry.1) (hinside : entry.1 < off + len)
    (hne : entry.2 ≠ []) (hkept : entry.1 + entry.2.length < scan_end file off len) :
    Carried file off len entry := by
  have hpos : 0 < entry.2.length := List.length_pos_iff.mpr hne
  have hbounds := scan_bounds hfit
  have hown := spans_next hentry
  rw [Nat.sub_zero] at hown
  have hbegin : scan_begin file off len ≤ entry.1 := by
    unfold scan_begin
    rcases slice_begin_cases hfit with ⟨rfl, h⟩ | ⟨_, h, _⟩ | ⟨first, hoff, _, _, _, hbefore, h⟩
    · omega
    · omega
    · by_contra hnot
      have hprevious := spans_previous hentry (by omega)
      exact hbefore _ (by omega) (by omega) hprevious
  rcases scan_end_cases hfit with ⟨hend, _⟩ | ⟨_, hnone, hstop⟩ | ⟨last, _, _, hlast, hat, hafter, hstop⟩
  · exact .inl ⟨hend, by omega⟩
  · exact absurd hown (hnone _ (by omega) (by omega))
  · rw [hstop] at hkept
    refine .inr ⟨last, hlast, ?_, hat⟩
    split at hkept
    · exact hkept
    · by_contra hnot
      exact hafter _ (by omega) hkept hown

end spellcheck.slice
