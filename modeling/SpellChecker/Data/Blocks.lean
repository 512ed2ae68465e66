import Mathlib.Algebra.BigOperators.Group.List.Basic
import Mathlib.Algebra.Ring.Nat
import Mathlib.Data.List.Basic
import Mathlib.Data.List.Range
import Mathlib.Order.Monotone.Basic
import Mathlib.Tactic.Cases

namespace blocks

variable {α : Type*}

section Cuts

/-- Adjacent ranges of a sorted list make up the joint range. -/
theorem filter_range_append {key : α → ℕ} {l : List α} (hl : l.Pairwise fun a b => key a < key b)
    {lo mid hi : ℕ} (hlo : lo ≤ mid) (hhi : mid ≤ hi) :
    (l.filter fun a => lo ≤ key a ∧ key a < mid) ++ (l.filter fun a => mid ≤ key a ∧ key a < hi) =
      l.filter fun a => lo ≤ key a ∧ key a < hi := by
  induction l with
  | nil => simp
  | cons a l ih =>
    obtain ⟨hhead, htail⟩ := List.pairwise_cons.mp hl
    have hrest := ih htail
    simp only [List.filter_cons, decide_eq_true_eq]
    by_cases hlow : lo ≤ key a ∧ key a < mid
    · rw [if_pos hlow, if_neg (by omega), if_pos (by omega), List.cons_append, hrest]
    · by_cases hhigh : mid ≤ key a ∧ key a < hi
      · -- Everything behind `a` is behind `mid` as well.
        have hnone : (l.filter fun b => lo ≤ key b ∧ key b < mid) = [] := by
          rw [List.filter_eq_nil_iff]
          intro b hb
          have := hhead b hb
          simp only [decide_eq_true_eq]
          omega
        rw [hnone, List.nil_append] at hrest
        rw [if_neg hlow, if_pos hhigh, if_pos (by omega), hnone, List.nil_append, hrest]
      · rw [if_neg hlow, if_neg hhigh, if_neg (by omega), hrest]

/-- Consecutive ranges of a sorted list, put together, give the whole range. -/
theorem flatMap_filter_cuts {key : α → ℕ} {l : List α} (hl : l.Pairwise fun a b => key a < key b)
    {cut : ℕ → ℕ} (hcut : Monotone cut) (count : ℕ) :
    ((List.range count).flatMap fun r => l.filter fun a => cut r ≤ key a ∧ key a < cut (r + 1)) =
      l.filter fun a => cut 0 ≤ key a ∧ key a < cut count := by
  induction count with
  | zero =>
    symm
    rw [List.range_zero, List.flatMap_nil, List.filter_eq_nil_iff]
    intro a _
    simp only [decide_eq_true_eq]
    omega
  | succ count ih =>
    rw [List.range_succ, List.flatMap_append, ih, List.flatMap_singleton]
    exact filter_range_append hl (hcut (Nat.zero_le count)) (hcut (Nat.le_succ count))

/-- A position behind the first cut and before the last one lies between
    exactly one pair of neighbouring cuts. -/
theorem existsUnique_between_cuts {cut : ℕ → ℕ} (hcut : Monotone cut) {count x : ℕ} (hfirst : cut 0 ≤ x)
    (hlast : x < cut count) : ∃! r, r < count ∧ cut r ≤ x ∧ x < cut (r + 1) := by
  obtain ⟨r, hr⟩ : ∃ r, r < count ∧ cut r ≤ x ∧ x < cut (r + 1) := by
    induction count with
    | zero => omega
    | succ count ih =>
      by_cases hbefore : x < cut count
      · obtain ⟨r, hlt, hbetween⟩ := ih hbefore
        exact ⟨r, by omega, hbetween⟩
      · exact ⟨count, by omega, by omega, hlast⟩
  refine ⟨r, hr, fun other hother => ?_⟩
  have hle : other < r + 1 := hcut.reflect_lt (hother.2.1.trans_lt hr.2.2)
  have hge : r < other + 1 := hcut.reflect_lt (hr.2.1.trans_lt hother.2.2)
  omega

end Cuts

/-- Visiting a list by index visits its elements in order. -/
theorem filterMap_range_getElem? {β : Type*} (l : List α) (f : α → Option β) :
    ((List.range l.length).filterMap fun i => l[i]?.bind f) = l.filterMap f := by
  have hall : (List.range l.length).map (fun i => l[i]?) = l.map some := by
    apply List.ext_getElem (by simp)
    intro i hi _
    have : i < l.length := by simpa using hi
    simp [this]
  calc ((List.range l.length).filterMap fun i => l[i]?.bind f)
      = ((List.range l.length).map fun i => l[i]?).filterMap fun a => a.bind f := by rw [List.filterMap_map]; rfl
    _ = l.filterMap f := by rw [hall, List.filterMap_map]; rfl

section Placement

/-- Block `r` of a concatenation of blocks of `n` elements sits at `r * n`. -/
theorem getElem?_flatten_uniform {n : ℕ} {blocks : List (List α)} (h : ∀ b ∈ blocks, b.length = n) {r i : ℕ}
    (hi : i < n) : blocks.flatten[r * n + i]? = blocks[r]?.bind fun b => b[i]? := by
  induction blocks generalizing r with
  | nil => simp
  | cons b blocks ih =>
    have hb : b.length = n := h b (by simp)
    have hrest (r : ℕ) := ih (fun b hb => h b (by simp [hb])) (r := r)
    cases r with
    | zero => simp [List.getElem?_append_left (by omega : i < b.length)]
    | succ r =>
      rw [List.flatten_cons, Nat.succ_mul, List.getElem?_append_right (by omega),
        (by omega : r * n + n + i - b.length = r * n + i), hrest, List.getElem?_cons_succ]

/-- Where block `r` starts in the concatenation of the blocks. -/
def start (blocks : List (List α)) (r : ℕ) : ℕ := ((blocks.take r).map List.length).sum

@[simp] theorem start_zero (blocks : List (List α)) : start blocks 0 = 0 := by simp [start]

theorem start_succ {blocks : List (List α)} {r : ℕ} {b : List α} (h : blocks[r]? = some b) :
    start blocks (r + 1) = start blocks r + b.length := by
  simp [start, List.take_add_one, h]

theorem start_cons_succ (b : List α) (blocks : List (List α)) (r : ℕ) :
    start (b :: blocks) (r + 1) = b.length + start blocks r := by
  simp [start]

theorem start_length (blocks : List (List α)) : start blocks blocks.length = blocks.flatten.length := by
  simp [start, List.length_flatten]

theorem start_mono (blocks : List (List α)) : Monotone (start blocks) := by
  apply monotone_nat_of_le_succ
  intro r
  cases h : blocks[r]? with
  | none =>
    have hlength := List.getElem?_eq_none_iff.mp h
    simp [start, List.take_of_length_le hlength, List.take_of_length_le (Nat.le_succ_of_le hlength)]
  | some b =>
    rw [start_succ h]
    exact Nat.le_add_right _ _

theorem start_le {blocks : List (List α)} {r : ℕ} (h : r ≤ blocks.length) :
    start blocks r ≤ blocks.flatten.length :=
  start_length blocks ▸ start_mono blocks h

theorem flatten_take (blocks : List (List α)) (r : ℕ) :
    (blocks.take r).flatten = blocks.flatten.take (start blocks r) := by
  have hsplit : blocks.flatten = (blocks.take r).flatten ++ (blocks.drop r).flatten := by
    rw [← List.flatten_append, List.take_append_drop]
  rw [hsplit, List.take_left' (by simp [start, List.length_flatten])]

/-- The elements from `pos` on of block `r` are found behind its start. -/
theorem drop_start {blocks : List (List α)} {r : ℕ} {b : List α} (h : blocks[r]? = some b) {pos count : ℕ}
    (hfit : pos + count ≤ b.length) :
    (blocks.flatten.drop (start blocks r + pos)).take count = (b.drop pos).take count := by
  have hlt := (List.getElem?_eq_some_iff.mp h).1
  have hsplit : blocks.flatten = (blocks.take r).flatten ++ (b ++ (blocks.drop (r + 1)).flatten) := by
    rw [← List.flatten_cons, ← List.flatten_append]
    congr 1
    rw [← (List.getElem?_eq_some_iff.mp h).2, List.getElem_cons_drop, List.take_append_drop]
  have hlength : (blocks.take r).flatten.length = start blocks r := by simp [start, List.length_flatten]
  rw [hsplit, ← List.drop_drop, List.drop_left' hlength, List.drop_append_of_le_length (by omega),
    List.take_append_of_le_length (by simp; omega)]

end Placement

end blocks
