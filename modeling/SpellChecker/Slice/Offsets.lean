import SpellChecker.Slice.Partition

open blocks

namespace spellcheck.slice

/-- The values of a 64-bit `MPI_Offset`. -/
def IsOffset (x : Int) : Prop := -9223372036854775808 ≤ x ∧ x < 9223372036854775808

instance (x : Int) : Decidable (IsOffset x) := inferInstanceAs (Decidable (_ ∧ _))

/-- A value that satisfies `fits`, or a fault. -/
def checkFits (fits : Int → Prop) [DecidablePred fits] (x : Int) : Except Fault Int :=
  if fits x then .ok x else .error .overflow

/-- `compute_slice` with a check of every value it computes. -/
def compute_sliceChecked (fits : Int → Prop) [DecidablePred fits] (n rank size : Int) : Except Fault Slice := do
  let base ← checkFits fits (n.tdiv size)
  let extra ← checkFits fits (n.tmod size)
  let row ← checkFits fits (rank * base)
  let shift ← checkFits fits (if rank < extra then rank else extra)
  let start ← checkFits fits (row + shift)
  let more ← checkFits fits (if rank < extra then 1 else 0)
  let length ← checkFits fits (base + more)
  return ⟨start, length⟩

/-- Lengths differ by at most one. -/
theorem slice_len_le_succ (n size first second : ℕ) : slice_len n size first ≤ slice_len n size second + 1 := by
  unfold slice_len
  split <;> split <;> omega

/-- Every value computed for a rank lies between zero and `n`. -/
theorem compute_sliceChecked_eq {fits : Int → Prop} [DecidablePred fits] {n rank size : ℕ} (hrank : rank < size)
    (hfits : ∀ v : ℕ, v ≤ n → fits v) :
    compute_sliceChecked fits n rank size = .ok (compute_slice n rank size) := by
  have hcheck {v : ℕ} (hv : v ≤ n) : checkFits fits (v : Int) = .ok (v : Int) := if_pos (hfits v hv)
  have hoff : rank * (n / size) + min rank (n % size) ≤ n := (Nat.le_add_right _ _).trans (slice_fits hrank)
  have hlen : n / size + (if rank < n % size then 1 else 0) ≤ n := (Nat.le_add_left _ _).trans (slice_fits hrank)
  have hshift : (if (rank : Int) < (n % size : ℕ) then (rank : Int) else (n % size : ℕ)) =
      (min rank (n % size) : ℕ) := by
    split <;> omega
  have hmore : (if (rank : Int) < (n % size : ℕ) then (1 : Int) else 0) = (if rank < n % size then 1 else 0 : ℕ) := by
    split <;> split <;> omega
  rw [compute_slice_eq, compute_sliceChecked, ← Int.ofNat_tdiv, hcheck (Nat.div_le_self n size), loop.bind_ok,
    ← Int.ofNat_tmod, hcheck (Nat.mod_le n size), loop.bind_ok]
  rw [← Nat.cast_mul, hcheck ((Nat.le_add_right _ _).trans hoff), loop.bind_ok, hshift,
    hcheck ((Nat.le_add_left _ _).trans hoff), loop.bind_ok, ← Nat.cast_add, hcheck hoff, loop.bind_ok]
  rw [hmore, hcheck ((Nat.le_add_left _ _).trans hlen), loop.bind_ok, ← Nat.cast_add, hcheck hlen, loop.bind_ok]
  rfl

/-- The slices of all ranks partition the file: they start at zero, each where
    the one before it ends, and end at `n`; their lengths do not increase and
    differ by at most one; and no value computed on the way leaves `[0, n]`. -/
theorem compute_slice_partition (n size : ℕ) (hsize : 1 ≤ size) :
    (compute_slice n 0 size).off = 0 ∧
      (∀ rank : ℕ, rank + 1 < size →
        (compute_slice n (rank + 1) size).off = (compute_slice n rank size).off + (compute_slice n rank size).len) ∧
      (compute_slice n (size - 1) size).off + (compute_slice n (size - 1) size).len = n ∧
      (∀ x : ℕ, x < n → ∃! rank : ℕ, rank < size ∧ (compute_slice n rank size).off ≤ x ∧
        x < (compute_slice n rank size).off + (compute_slice n rank size).len) ∧
      (∀ first second : ℕ, first ≤ second → second < size →
        (compute_slice n second size).len ≤ (compute_slice n first size).len ∧
          (compute_slice n first size).len ≤ (compute_slice n second size).len + 1) ∧
      ∀ rank : ℕ, rank < size →
        compute_sliceChecked (fun v => 0 ≤ v ∧ v ≤ n) n rank size = .ok (compute_slice n rank size) ∧
          (IsOffset n → compute_sliceChecked IsOffset n rank size = .ok (compute_slice n rank size)) := by
  have hoff (rank : ℕ) : (compute_slice n rank size).off = slice_off n size rank := by rw [compute_slice_eq]
  have hlen (rank : ℕ) : (compute_slice n rank size).len = slice_len n size rank := by rw [compute_slice_eq]
  have hend (rank : ℕ) : (compute_slice n rank size).off + (compute_slice n rank size).len =
      slice_off n size (rank + 1) := by
    rw [hoff, hlen, slice_off_succ, Nat.cast_add]
  refine ⟨?_, fun rank _ => ?_, ?_, fun x hx => ?_, fun first second hle _ => ?_,
    fun rank hrank => ⟨?_, fun hoffset => ?_⟩⟩
  · exact (hoff 0).trans (congrArg Nat.cast (slice_off_zero n size))
  · rw [hend]
    exact hoff (rank + 1)
  · rw [← Nat.cast_pred hsize, hend, Nat.sub_add_cancel hsize, slice_off_size hsize]
  · have hunique := @existsUnique_between_cuts _ (slice_off_mono n size) size x (by simp)
      (by rwa [slice_off_size hsize])
    simp only [hend]
    simpa only [hoff, Int.ofNat_le, Int.ofNat_lt] using hunique
  · rw [hlen, hlen]
    exact ⟨by exact_mod_cast slice_len_antitone n size hle, by exact_mod_cast slice_len_le_succ n size first second⟩
  · exact compute_sliceChecked_eq hrank fun v hv => ⟨by omega, by exact_mod_cast hv⟩
  · refine compute_sliceChecked_eq hrank fun v hv => ?_
    unfold IsOffset at hoffset ⊢
    omega

/-- Three bytes for five ranks, two of which get none. -/
theorem compute_slice_partition_small :
    (compute_slice 3 4 5).off + (compute_slice 3 4 5).len = 3 ∧
      (∃! rank : ℕ, rank < 5 ∧ (compute_slice 3 rank 5).off ≤ 2 ∧
        2 < (compute_slice 3 rank 5).off + (compute_slice 3 rank 5).len) ∧
      compute_sliceChecked (fun v => 0 ≤ v ∧ v ≤ 3) 3 2 5 = .ok (compute_slice 3 2 5) := by
  obtain ⟨-, -, hlast, hunique, -, hvalues⟩ := compute_slice_partition 3 5 (by omega)
  exact ⟨hlast, hunique 2 (by omega), (hvalues 2 (by omega)).1⟩

end spellcheck.slice
