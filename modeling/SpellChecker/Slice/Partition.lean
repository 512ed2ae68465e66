import Mathlib.Data.List.Flatten
import SpellChecker.Data.Blocks
import SpellChecker.Slice.Lines

open lines blocks

namespace spellcheck.slice

/-- Where the slice of a rank starts. -/
def slice_off (n size rank : ℕ) : ℕ := rank * (n / size) + min rank (n % size)

/-- How long the slice of a rank is. -/
def slice_len (n size rank : ℕ) : ℕ := n / size + if rank < n % size then 1 else 0

theorem compute_slice_eq (n rank size : ℕ) :
    compute_slice n rank size = ⟨slice_off n size rank, slice_len n size rank⟩ := by
  simp only [compute_slice, slice_off, slice_len, ← Int.ofNat_tdiv, ← Int.ofNat_tmod, Int.ofNat_lt, Slice.mk.injEq,
    Nat.cast_add, Nat.cast_mul]
  split <;> omega

@[simp] theorem slice_off_zero (n size : ℕ) : slice_off n size 0 = 0 := by simp [slice_off]

@[simp] theorem slice_len_one (n : ℕ) : slice_len n 1 0 = n := by simp [slice_len, Nat.mod_one]

/-- Lengths do not increase with the rank. -/
theorem slice_len_antitone (n size : ℕ) : Antitone (slice_len n size) := by
  intro first second hle
  unfold slice_len
  split <;> split <;> omega

/-- Every slice starts where the one before it ends. -/
theorem slice_off_succ (n size rank : ℕ) :
    slice_off n size (rank + 1) = slice_off n size rank + slice_len n size rank := by
  rw [slice_off, slice_off, slice_len, Nat.add_mul, Nat.one_mul]
  split <;> omega

theorem slice_off_size {n size : ℕ} (hsize : 0 < size) : slice_off n size size = n := by
  have hmod := Nat.mod_lt n hsize
  rw [slice_off, Nat.min_eq_right hmod.le, Nat.div_add_mod]

theorem slice_off_mono (n size : ℕ) : Monotone (slice_off n size) :=
  monotone_nat_of_le_succ fun rank => by
    rw [slice_off_succ]
    exact Nat.le_add_right _ _

/-- The slices of all ranks lie inside the file. -/
theorem slice_fits {n size rank : ℕ} (hrank : rank < size) :
    slice_off n size rank + slice_len n size rank ≤ n := by
  have hle := slice_off_mono n size (Nat.succ_le_of_lt hrank)
  rw [slice_off_size (Nat.zero_lt_of_lt hrank)] at hle
  rwa [Nat.succ_eq_add_one, slice_off_succ] at hle

/-- The text a rank receives. -/
def rank_text (file : Word) (size rank : ℕ) : Word :=
  unlines newline ((kept_lines file (slice_off file.length size rank) (slice_len file.length size rank)).map Prod.snd)

theorem read_rank_slice {file : Word} {size rank : ℕ} (hrank : rank < size) :
    read_slice_aligned file (compute_slice file.length rank size) file.length = .ok (rank_text file size rank) := by
  rw [compute_slice_eq]
  exact read_slice_aligned_eq (slice_fits hrank)

/-- The lines of a rank's text are the lines its reader kept. -/
theorem spans_rank_text (file : Word) (size rank : ℕ) :
    (spans newline 0 (rank_text file size rank)).map Prod.snd =
      (kept_lines file (slice_off file.length size rank) (slice_len file.length size rank)).map Prod.snd := by
  refine spans_unlines (fun l hl => ?_) 0
  obtain ⟨entry, hentry, rfl⟩ := List.mem_map.mp hl
  exact (spans_bounds (mem_kept_lines.mp hentry).1).2.2

/-- The lines of a file by the rank whose slice they start in. -/
theorem flatMap_starts_in (file : Word) {size : ℕ} (hsize : 0 < size) :
    ((List.range size).flatMap fun rank => (spans newline 0 file).filter
      (starts_in (slice_off file.length size rank) (slice_len file.length size rank))) = spans newline 0 file := by
  have hsorted : (spans newline 0 file).Pairwise fun a b => a.1 < b.1 :=
    (spans_pairwise newline 0 file).imp fun h => by omega
  have hcuts := flatMap_filter_cuts hsorted (slice_off_mono file.length size) size
  simp only [slice_off_succ] at hcuts
  refine hcuts.trans ?_
  rw [slice_off_zero, slice_off_size hsize, List.filter_eq_self]
  intro entry hentry
  have := spans_bounds hentry
  simp only [decide_eq_true_eq]
  omega

theorem kept_lines_sublist (file : Word) (off len : ℕ) :
    (kept_lines file off len).Sublist ((spans newline 0 file).filter (starts_in off len)) := by
  unfold kept_lines
  apply List.monotone_filter_right _
  intro entry hentry
  simp only [decide_eq_true_eq] at hentry
  exact hentry.1

/-- Over all ranks no line is kept twice, and the order stays. -/
theorem kept_lines_all_sublist (file : Word) (size : ℕ) :
    ((List.range size).flatMap fun rank =>
      kept_lines file (slice_off file.length size rank) (slice_len file.length size rank)).Sublist
        (spans newline 0 file) := by
  rcases Nat.eq_zero_or_pos size with rfl | hsize
  · simp
  · rw [← flatMap_starts_in file hsize]
    exact List.Sublist.flatMap_right _ fun rank _ => kept_lines_sublist file _ _

/-- On every rank the window lies inside the file, its length is not negative,
    the buffer has this length and begins with the bytes that are read, the scan
    begins and ends inside it in this order, and the text returned consists of
    whole lines of the file that start in the slice, in file order. Over all ranks
    no line of the file is returned twice. -/
theorem read_slice_aligned_safe (file : Word) (size : ℕ) :
    ∃ kept : ℕ → List (ℕ × Word),
      (∀ rank < size,
        let s := compute_slice file.length rank size
        (0 ≤ read_off s ∧ 0 ≤ max_len s file.length ∧ read_off s + max_len s file.length ≤ file.length) ∧
        (∃ buf, read_buf file s file.length = .ok buf ∧
          (buf.length : Int) = max_len s file.length ∧
          (file.drop (read_off s).toNat).take (toInt (max_len s file.length)).toNat <+: buf ∧
          slice_begin s buf ≤ slice_end s buf file.length (slice_begin s buf) ∧
          slice_end s buf file.length (slice_begin s buf) ≤ buf.length) ∧
        read_slice_aligned file s file.length = .ok (unlines newline ((kept rank).map Prod.snd)) ∧
        (kept rank).Sublist (spans newline 0 file) ∧
        ∀ entry ∈ kept rank, s.off ≤ entry.1 ∧ entry.1 < s.off + s.len) ∧
      ((List.range size).flatMap kept).Sublist (spans newline 0 file) ∧
      ((List.range size).flatMap kept).Nodup := by
  refine ⟨fun rank => kept_lines file (slice_off file.length size rank) (slice_len file.length size rank),
    fun rank hrank => ?_, kept_lines_all_sublist file size,
    (kept_lines_all_sublist file size).nodup (spans_nodup newline 0 file)⟩
  have hfit := slice_fits (n := file.length) hrank
  have hbounds := window_bounds hfit
  obtain ⟨-, hle, hinside⟩ := slice_begin_le_end hfit
  intro s
  have hs : s = ⟨slice_off file.length size rank, slice_len file.length size rank⟩ := compute_slice_eq _ _ _
  rw [hs]
  have hmax := max_len_eq hfit
  have hread : (file.drop (read_off ⟨slice_off file.length size rank, slice_len file.length size rank⟩).toNat).take
      (toInt (max_len ⟨slice_off file.length size rank, slice_len file.length size rank⟩ file.length)).toNat =
        window file (slice_off file.length size rank) (slice_len file.length size rank) := by
    rw [read_off_eq, Int.toNat_natCast, hmax, window_eq]
    rfl
  refine ⟨?_, ⟨_, read_buf_eq hfit, ?_, ?_, hle, hinside⟩, read_slice_aligned_eq hfit,
    List.filter_sublist, fun entry hentry => ?_⟩
  · rw [read_off_eq, hmax]
    exact ⟨by omega, by omega, by omega⟩
  · rw [length_buffer hfit, hmax]
  · rw [hread]
    exact List.prefix_append _ _
  · have := (mem_kept_lines.mp hentry).2.1
    simp only
    omega

end spellcheck.slice
