import Mathlib.Data.List.Basic
import Mathlib.Data.Nat.Basic
import Mathlib.Order.Bounds.Basic
import Mathlib.Tactic.Cases

namespace edit_script

variable {α : Type*}

/-- One insertion, deletion or substitution of a single symbol. A substitution
    puts in a different symbol, so one edit always changes the list. -/
inductive OneEdit : List α → List α → Prop where
  | insert (before after : List α) (x : α) : OneEdit (before ++ after) (before ++ x :: after)
  | delete (before after : List α) (x : α) : OneEdit (before ++ x :: after) (before ++ after)
  | substitute (before after : List α) {x y : α} (hne : x ≠ y) :
      OneEdit (before ++ x :: after) (before ++ y :: after)

/-- An edit script of exactly `n` single-symbol edits. -/
inductive EditSteps : ℕ → List α → List α → Prop where
  | refl (a : List α) : EditSteps 0 a a
  | step {n : ℕ} {a b c : List α} (head : EditSteps n a b) (last : OneEdit b c) : EditSteps (n + 1) a c

theorem OneEdit.ne {a b : List α} (h : OneEdit a b) : a ≠ b := by
  cases h with
  | insert before after x =>
    intro heq
    have hlength := congrArg List.length heq
    simp at hlength
  | delete before after x =>
    intro heq
    have hlength := congrArg List.length heq
    simp at hlength
  | substitute before after hne =>
    intro heq
    simp only [List.append_cancel_left_eq, List.cons.injEq, and_true] at heq
    exact hne heq

theorem OneEdit.cons (z : α) {a b : List α} (h : OneEdit a b) : OneEdit (z :: a) (z :: b) := by
  cases h with
  | insert before after x => exact .insert (z :: before) after x
  | delete before after x => exact .delete (z :: before) after x
  | substitute before after hne => exact .substitute (z :: before) after hne

theorem OneEdit.reverse {a b : List α} (h : OneEdit a b) : OneEdit a.reverse b.reverse := by
  cases h with
  | insert before after x =>
    simpa using OneEdit.insert after.reverse before.reverse x
  | delete before after x =>
    simpa using OneEdit.delete after.reverse before.reverse x
  | substitute before after hne =>
    simpa using OneEdit.substitute after.reverse before.reverse hne

theorem EditSteps.one {a b : List α} (h : OneEdit a b) : EditSteps 1 a b := .step (.refl a) h

theorem EditSteps.oneEdit {a b : List α} (h : EditSteps 1 a b) : OneEdit a b := by
  cases h with
  | step head last =>
    cases head
    exact last

theorem EditSteps.trans {m n : ℕ} {a b c : List α} (hab : EditSteps m a b) (hbc : EditSteps n b c) :
    EditSteps (m + n) a c := by
  induction hbc with
  | refl => exact hab
  | step _ last ih => exact .step (ih hab) last

theorem EditSteps.cons (z : α) {n : ℕ} {a b : List α} (h : EditSteps n a b) :
    EditSteps n (z :: a) (z :: b) := by
  induction h with
  | refl => exact .refl _
  | step _ last ih => exact .step ih (last.cons z)

theorem EditSteps.reverse {n : ℕ} {a b : List α} (h : EditSteps n a b) :
    EditSteps n a.reverse b.reverse := by
  induction h with
  | refl => exact .refl _
  | step _ last ih => exact .step ih last.reverse

/-- Building a list from nothing takes one insertion for each symbol. -/
theorem EditSteps.build (b : List α) : EditSteps b.length [] b := by
  induction b with
  | nil => exact .refl []
  | cons y b ih => exact .step ih (.insert [] b y)

/-- Erasing a list takes one deletion for each symbol. -/
theorem EditSteps.erase (a : List α) : EditSteps a.length a [] := by
  induction a with
  | nil => exact .refl []
  | cons x a ih =>
    have hdelete : EditSteps 1 (x :: a) a := .one (.delete [] a x)
    simpa [Nat.add_comm] using hdelete.trans ih

/-- One operation of a written edit script, at a position of the list. Nothing
    forbids a substitution by the symbol that is already there. -/
inductive Edit (α : Type*) where
  | insert (pos : ℕ) (x : α)
  | delete (pos : ℕ)
  | substitute (pos : ℕ) (x : α)

/-- What an operation makes of a list; a position outside the list is refused. -/
def Edit.apply : Edit α → List α → Option (List α)
  | .insert pos x, a => if pos ≤ a.length then some (a.take pos ++ x :: a.drop pos) else none
  | .delete pos, a => if pos < a.length then some (a.take pos ++ a.drop (pos + 1)) else none
  | .substitute pos x, a => if pos < a.length then some (a.take pos ++ x :: a.drop (pos + 1)) else none

/-- Running a script, one operation after the other. -/
def runScript (script : List (Edit α)) (a : List α) : Option (List α) :=
  script.foldlM (fun now edit => edit.apply now) a

/-- An operation changes nothing or is one edit. -/
theorem Edit.eq_or_oneEdit {edit : Edit α} {a b : List α} (h : edit.apply a = some b) : a = b ∨ OneEdit a b := by
  cases edit with
  | insert pos x =>
    simp only [Edit.apply, Option.ite_none_right_eq_some, Option.some.injEq] at h
    obtain ⟨-, rfl⟩ := h
    have hedit := OneEdit.insert (a.take pos) (a.drop pos) x
    rw [List.take_append_drop] at hedit
    exact .inr hedit
  | delete pos =>
    simp only [Edit.apply, Option.ite_none_right_eq_some, Option.some.injEq] at h
    obtain ⟨hpos, rfl⟩ := h
    have hedit := OneEdit.delete (a.take pos) (a.drop (pos + 1)) a[pos]
    rw [← List.drop_eq_getElem_cons hpos, List.take_append_drop] at hedit
    exact .inr hedit
  | substitute pos x =>
    simp only [Edit.apply, Option.ite_none_right_eq_some, Option.some.injEq] at h
    obtain ⟨hpos, rfl⟩ := h
    have hsplit : a.take pos ++ a[pos] :: a.drop (pos + 1) = a := by
      rw [← List.drop_eq_getElem_cons hpos, List.take_append_drop]
    by_cases hx : a[pos] = x
    · exact .inl (hx ▸ hsplit.symm)
    · have hedit := OneEdit.substitute (a.take pos) (a.drop (pos + 1)) hx
      rw [hsplit] at hedit
      exact .inr hedit

/-- Every edit is an operation at some position. -/
theorem OneEdit.exists_edit {a b : List α} (h : OneEdit a b) : ∃ edit : Edit α, edit.apply a = some b := by
  cases h with
  | insert before after x => exact ⟨.insert before.length x, by simp [Edit.apply]⟩
  | delete before after x => exact ⟨.delete before.length, by simp [Edit.apply]⟩
  | @substitute before after _ y _ => exact ⟨.substitute before.length y, by simp [Edit.apply]⟩

/-- Every sequence of edits can be written as a script of the same length. -/
theorem EditSteps.exists_script {n : ℕ} {a b : List α} (h : EditSteps n a b) :
    ∃ script, runScript script a = some b ∧ script.length = n := by
  induction h with
  | refl => exact ⟨[], rfl, rfl⟩
  | step _ last ih =>
    obtain ⟨script, hrun, hlength⟩ := ih
    obtain ⟨edit, hedit⟩ := last.exists_edit
    refine ⟨script ++ [edit], ?_, by simp [hlength]⟩
    unfold runScript at hrun ⊢
    rw [List.foldlM_append, hrun]
    simp [hedit]

/-- A script that runs makes at most as many edits as it has operations. -/
theorem exists_editSteps_of_runScript {script : List (Edit α)} {a b : List α} (h : runScript script a = some b) :
    ∃ n ≤ script.length, EditSteps n a b := by
  induction script generalizing a with
  | nil =>
    obtain rfl := Option.some.inj h
    exact ⟨0, Nat.le_refl 0, .refl a⟩
  | cons edit script ih =>
    obtain ⟨mid, hmid, hrest⟩ := Option.bind_eq_some_iff.mp h
    obtain ⟨n, hn, hsteps⟩ := ih hrest
    cases Edit.eq_or_oneEdit hmid with
    | inl heq =>
      subst heq
      exact ⟨n, Nat.le_succ_of_le hn, hsteps⟩
    | inr hedit =>
      refine ⟨1 + n, ?_, (EditSteps.one hedit).trans hsteps⟩
      rw [List.length_cons]
      omega

variable [DecidableEq α]

/-- One row of the Levenshtein recurrence: `rest b` is the distance of the
    remaining source to `b`, and the row adds the source symbol `x` in front.
    On equal symbols only the diagonal is consulted. -/
def levRow (x : α) (rest : List α → ℕ) : List α → ℕ
  | [] => rest [] + 1
  | y :: b => if x = y then rest b else min (min (rest (y :: b)) (levRow x rest b)) (rest b) + 1

/-- Levenshtein distance by recursion on both lists, from the front. -/
def lev : List α → List α → ℕ
  | [], b => b.length
  | x :: a, b => levRow x (lev a) b

@[simp] theorem lev_nil_left (b : List α) : lev [] b = b.length := rfl

@[simp] theorem lev_nil_right (a : List α) : lev a [] = a.length := by
  induction a with
  | nil => rfl
  | cons x a ih => simp [lev, levRow, ih]

theorem lev_cons_self (x : α) (a b : List α) : lev (x :: a) (x :: b) = lev a b := by
  simp [lev, levRow]

theorem lev_cons_ne {x y : α} (hne : x ≠ y) (a b : List α) :
    lev (x :: a) (y :: b) = min (min (lev a (y :: b)) (lev (x :: a) b)) (lev a b) + 1 := by
  simp [lev, levRow, hne]

theorem lev_self (a : List α) : lev a a = 0 := by
  induction a with
  | nil => rfl
  | cons x a ih => rw [lev_cons_self, ih]

theorem lev_comm (a b : List α) : lev a b = lev b a := by
  induction a generalizing b with
  | nil => simp
  | cons x a iha =>
    induction b with
    | nil => simp
    | cons y b ihb =>
      by_cases hxy : x = y
      · subst y
        rw [lev_cons_self, lev_cons_self, iha]
      · rw [lev_cons_ne hxy, lev_cons_ne (Ne.symm hxy), iha, iha, ihb]
        omega

/-- Neighbouring cells of the recurrence differ by at most one. Both bounds
    are needed together, because a matching symbol consults only the diagonal. -/
theorem lev_cons_bounds (x : α) (a b : List α) :
    lev (x :: a) b ≤ lev a b + 1 ∧ lev a b ≤ lev (x :: a) b + 1 := by
  generalize hsize : a.length + b.length = size
  induction size using Nat.strong_induction_on generalizing x a b with
  | h size ih =>
    cases b with
    | nil => simp; omega
    | cons y b =>
      have hsmall : a.length + b.length < size := by simp at hsize; omega
      have hrow := ih _ hsmall x a b rfl
      have hcol : lev a (y :: b) ≤ lev a b + 1 ∧ lev a b ≤ lev a (y :: b) + 1 := by
        have h := ih _ hsmall y b a (Nat.add_comm b.length a.length)
        simpa only [lev_comm _ a] using h
      by_cases hxy : x = y
      · subst y
        rw [lev_cons_self]
        omega
      · rw [lev_cons_ne hxy]
        omega

/-- Prefixing both targets with one symbol keeps a uniform one-edit bound. -/
theorem lev_cons_right_of_forall (z : α) {b c : List α} (h : ∀ a, lev a c ≤ lev a b + 1) (a : List α) :
    lev a (z :: c) ≤ lev a (z :: b) + 1 := by
  induction a with
  | nil =>
    have := h []
    simp at this ⊢
    omega
  | cons u a ih =>
    have hhere := h (u :: a)
    have htail := h a
    by_cases huz : u = z
    · subst u
      simpa only [lev_cons_self] using htail
    · rw [lev_cons_ne huz, lev_cons_ne huz]
      omega

theorem lev_substitute_head (x y : α) (s a : List α) : lev a (y :: s) ≤ lev a (x :: s) + 1 := by
  induction a with
  | nil => simp
  | cons u a ih =>
    have hrow := lev_cons_bounds u a s
    have hcol : lev a s ≤ lev a (x :: s) + 1 := by
      simpa only [lev_comm _ a] using (lev_cons_bounds x s a).2
    by_cases hy : u = y <;> by_cases hx : u = x
    · subst hy hx
      simp
    · subst hy
      rw [lev_cons_self, lev_cons_ne hx]
      omega
    · subst hx
      rw [lev_cons_self, lev_cons_ne hy]
      omega
    · rw [lev_cons_ne hx, lev_cons_ne hy]
      omega

/-- One edit of the target moves the distance by at most one. -/
theorem OneEdit.lev_le {b c : List α} (h : OneEdit b c) (a : List α) : lev a c ≤ lev a b + 1 := by
  have lift (before : List α) {s t : List α} (hst : ∀ a, lev a t ≤ lev a s + 1) :
      ∀ a, lev a (before ++ t) ≤ lev a (before ++ s) + 1 := by
    induction before with
    | nil => exact hst
    | cons z before ih => exact lev_cons_right_of_forall z ih
  cases h with
  | insert before after x =>
    refine lift before (fun a => ?_) a
    simpa only [lev_comm _ a] using (lev_cons_bounds x after a).1
  | delete before after x =>
    refine lift before (fun a => ?_) a
    simpa only [lev_comm _ a] using (lev_cons_bounds x after a).2
  | substitute before after _ => exact lift before (lev_substitute_head _ _ after) a

/-- No script is shorter than the distance it bridges. -/
theorem EditSteps.lev_le {n : ℕ} {b c : List α} (h : EditSteps n b c) (a : List α) :
    lev a c ≤ lev a b + n := by
  induction h with
  | refl => omega
  | step _ last ih =>
    have := last.lev_le a
    omega

/-- A script of exactly the Levenshtein length exists. -/
theorem editSteps_lev (a b : List α) : EditSteps (lev a b) a b := by
  induction a generalizing b with
  | nil => exact .build b
  | cons x a iha =>
    induction b with
    | nil => simpa using EditSteps.erase (x :: a)
    | cons y b ihb =>
      by_cases hxy : x = y
      · subst y
        simpa only [lev_cons_self] using (iha b).cons x
      · rw [lev_cons_ne hxy]
        have hdelete : EditSteps (lev a (y :: b) + 1) (x :: a) (y :: b) := by
          have hfirst : EditSteps 1 (x :: a) a := .one (.delete [] a x)
          simpa only [Nat.add_comm] using hfirst.trans (iha (y :: b))
        have hinsert : EditSteps (lev (x :: a) b + 1) (x :: a) (y :: b) := .step ihb (.insert [] b y)
        have hsubstitute : EditSteps (lev a b + 1) (x :: a) (y :: b) :=
          .step ((iha b).cons x) (.substitute [] b hxy)
        obtain hmin | hmin | hmin :
            min (min (lev a (y :: b)) (lev (x :: a) b)) (lev a b) = lev a (y :: b) ∨
            min (min (lev a (y :: b)) (lev (x :: a) b)) (lev a b) = lev (x :: a) b ∨
            min (min (lev a (y :: b)) (lev (x :: a) b)) (lev a b) = lev a b := by omega
        · rw [hmin]
          exact hdelete
        · rw [hmin]
          exact hinsert
        · rw [hmin]
          exact hsubstitute

theorem lev_le_of_editSteps {n : ℕ} {a b : List α} (h : EditSteps n a b) : lev a b ≤ n := by
  simpa [lev_self] using h.lev_le a

/-- The Levenshtein distance is the length of a shortest script. -/
theorem isLeast_lev (a b : List α) :
    IsLeast {n | ∃ script, runScript script a = some b ∧ script.length = n} (lev a b) := by
  refine ⟨(editSteps_lev a b).exists_script, ?_⟩
  rintro _ ⟨script, hrun, rfl⟩
  obtain ⟨n, hn, hsteps⟩ := exists_editSteps_of_runScript hrun
  exact (lev_le_of_editSteps hsteps).trans hn

theorem lev_triangle (a b c : List α) : lev a c ≤ lev a b + lev b c := (editSteps_lev b c).lev_le a

theorem lev_eq_zero_iff (a b : List α) : lev a b = 0 ↔ a = b := by
  constructor
  · intro h
    have hscript := editSteps_lev a b
    rw [h] at hscript
    cases hscript
    rfl
  · rintro rfl
    exact lev_self a

/-- Distance one is exactly one single-symbol edit. -/
theorem lev_eq_one_iff (a b : List α) : lev a b = 1 ↔ OneEdit a b := by
  constructor
  · intro h
    have hscript := editSteps_lev a b
    rw [h] at hscript
    exact hscript.oneEdit
  · intro h
    have hle := lev_le_of_editSteps (.one h)
    have hpos : lev a b ≠ 0 := fun hzero => h.ne ((lev_eq_zero_iff a b).mp hzero)
    omega

instance (a b : List α) : Decidable (OneEdit a b) := decidable_of_iff _ (lev_eq_one_iff a b)

theorem lev_reverse (a b : List α) : lev a.reverse b.reverse = lev a b := by
  have hle (a b : List α) : lev a.reverse b.reverse ≤ lev a b :=
    lev_le_of_editSteps (editSteps_lev a b).reverse
  have hback := hle a.reverse b.reverse
  rw [List.reverse_reverse, List.reverse_reverse] at hback
  exact Nat.le_antisymm (hle a b) hback

theorem lev_le_max (a b : List α) : lev a b ≤ max a.length b.length := by
  induction a generalizing b with
  | nil => simp
  | cons x a iha =>
    cases b with
    | nil => simp
    | cons y b =>
      have hdiag := iha b
      by_cases hxy : x = y
      · subst y
        rw [lev_cons_self]
        simp
        omega
      · rw [lev_cons_ne hxy]
        simp
        omega

theorem length_le_lev_add (a b : List α) : b.length ≤ a.length + lev a b := by
  simpa using lev_triangle [] a b

/-- Appending a suffix costs exactly its length. -/
theorem lev_append_right (a t : List α) : lev a (a ++ t) = t.length := by
  induction a with
  | nil => simp
  | cons x a ih => rw [List.cons_append, lev_cons_self, ih]

end edit_script
