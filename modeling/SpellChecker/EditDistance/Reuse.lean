import SpellChecker.EditDistance.Correct

namespace spellcheck.edit_distance

/-- An access to the cell `dp[i][j]`. -/
inductive Access where
  | read (i j : ℕ)
  | write (i j : ℕ)
  deriving DecidableEq, Repr

/-- The row and the column an access names. -/
def Access.cell : Access → ℕ × ℕ
  | .read i j => (i, j)
  | .write i j => (i, j)

/-- Every read comes after a write to the same cell. -/
def ReadsWritten (log : List Access) : Prop := ∀ k i j, log[k]? = some (.read i j) → .write i j ∈ log.take k

/-- The widths of the rows. -/
def Table.shape (dp : Table) : List ℕ := dp.map List.length

/-- Neither the table nor any of its rows got shorter. -/
structure Grows (dp after : Table) : Prop where
  length : dp.length ≤ after.length
  row : ∀ (i : ℕ) (row : List ℕ), dp[i]? = some row → ∃ wider, after[i]? = some wider ∧ row.length ≤ wider.length

/-- The table with the accesses of the running call to its cells, oldest first. -/
structure Traced where
  dp : Table
  log : List Access

def Traced.read (t : Traced) (i j : ℕ) : Except Fault (ℕ × Traced) := do
  let value ← t.dp.read i j
  return (value, ⟨t.dp, t.log ++ [.read i j]⟩)

def Traced.write (t : Traced) (i j value : ℕ) : Except Fault Traced := do
  let dp ← t.dp.write i j value
  return ⟨dp, t.log ++ [.write i j]⟩

/-- The two resizes at the start of a call. -/
def resize (dp : Table) (s1 s2 : Word) : Except Fault Table :=
  (List.range (s1.length + 1)).foldlM (growRow s2.length) (growTo (s1.length + 1) [] dp)

/-- `fillCell`, operation for operation, with its accesses recorded. -/
def fillCellTraced (s1 s2 : Word) (i : ℕ) (t : Traced) (j : ℕ) : Except Fault Traced := do
  let c1 ← vecAt s1 i
  let c2 ← vecAt s2 j
  if c1 = c2 then
    let (diagonal, t) ← t.read i j
    t.write (i + 1) (j + 1) diagonal
  else
    let (above, t) ← t.read i (j + 1)
    let (left, t) ← t.read (i + 1) j
    let (diagonal, t) ← t.read i j
    t.write (i + 1) (j + 1) (min (min (above + 1) (left + 1)) (diagonal + 1))

/-- `EditDistanceOn`, operation for operation, with its accesses recorded. -/
def EditDistanceTraced (dp : Table) (s1 s2 : Word) : Except Fault (ℕ × Traced) := do
  let m := s1.length
  let n := s2.length
  let dp ← resize dp s1 s2
  let t ← (List.range (m + 1)).foldlM (fun t i => t.write i 0 i) (⟨dp, []⟩ : Traced)
  let t ← (List.range (n + 1)).foldlM (fun t j => t.write 0 j j) t
  let t ← (List.range m).foldlM (fun t i => (List.range n).foldlM (fillCellTraced s1 s2 i) t) t
  t.read m n

section Projection

theorem Traced.read_project {t after : Traced} {i j value : ℕ} (h : t.read i j = .ok (value, after)) :
    t.dp.read i j = .ok value ∧ after.dp = t.dp := by
  obtain ⟨read, hread, hresult⟩ := loop.bind_eq_ok_iff.mp h
  obtain ⟨rfl, rfl⟩ := Prod.mk.inj (Except.ok.inj hresult)
  exact ⟨hread, rfl⟩

theorem Traced.write_project {t after : Traced} {i j value : ℕ} (h : t.write i j value = .ok after) :
    t.dp.write i j value = .ok after.dp := by
  obtain ⟨dp, hwrite, hresult⟩ := loop.bind_eq_ok_iff.mp h
  obtain rfl := Except.ok.inj hresult
  exact hwrite

theorem fillCellTraced_project {s1 s2 : Word} {i j : ℕ} {t after : Traced}
    (h : fillCellTraced s1 s2 i t j = .ok after) : fillCell s1 s2 i t.dp j = .ok after.dp := by
  obtain ⟨c1, hc1, h⟩ := loop.bind_eq_ok_iff.mp h
  obtain ⟨c2, hc2, h⟩ := loop.bind_eq_ok_iff.mp h
  unfold fillCell
  rw [hc1, loop.bind_ok, hc2, loop.bind_ok]
  split at h
  · rename_i hsame
    obtain ⟨⟨diagonal, t1⟩, hread, h⟩ := loop.bind_eq_ok_iff.mp h
    obtain ⟨hdiagonal, hdp⟩ := Traced.read_project hread
    rw [if_pos hsame, hdiagonal, loop.bind_ok, ← hdp]
    exact Traced.write_project h
  · rename_i hdiffer
    obtain ⟨⟨above, t1⟩, hread1, h⟩ := loop.bind_eq_ok_iff.mp h
    obtain ⟨⟨left, t2⟩, hread2, h⟩ := loop.bind_eq_ok_iff.mp h
    obtain ⟨⟨diagonal, t3⟩, hread3, h⟩ := loop.bind_eq_ok_iff.mp h
    obtain ⟨habove, hdp1⟩ := Traced.read_project hread1
    obtain ⟨hleft, hdp2⟩ := Traced.read_project hread2
    obtain ⟨hdiagonal, hdp3⟩ := Traced.read_project hread3
    rw [hdp1] at hleft
    rw [hdp2, hdp1] at hdiagonal
    rw [if_neg hdiffer, habove, loop.bind_ok, hleft, loop.bind_ok, hdiagonal, loop.bind_ok, ← hdp1, ← hdp2, ← hdp3]
    exact Traced.write_project h

end Projection

section Shape

theorem Grows.refl (dp : Table) : Grows dp dp := ⟨Nat.le_refl _, fun _ row h => ⟨row, h, Nat.le_refl _⟩⟩

theorem Grows.trans {dp mid after : Table} (hfirst : Grows dp mid) (hsecond : Grows mid after) : Grows dp after := by
  refine ⟨hfirst.length.trans hsecond.length, fun i row hrow => ?_⟩
  obtain ⟨wider, hwider, hle⟩ := hfirst.row i row hrow
  obtain ⟨widest, hwidest, hle'⟩ := hsecond.row i wider hwider
  exact ⟨widest, hwidest, hle.trans hle'⟩

theorem grows_growTo (dp : Table) (size : ℕ) : Grows dp (growTo size [] dp) := by
  refine ⟨(growTo_length size [] dp).2, fun i row hrow => ⟨row, ?_, Nat.le_refl _⟩⟩
  have hi := (List.getElem?_eq_some_iff.mp hrow).1
  rw [growTo, List.getElem?_append_left hi, hrow]

theorem growRow_grows {n i : ℕ} {dp after : Table} (h : growRow n dp i = .ok after) : Grows dp after := by
  obtain ⟨row, hrow, hresult⟩ := loop.bind_eq_ok_iff.mp h
  obtain rfl := Except.ok.inj hresult
  refine ⟨by simp, fun k old hold => ?_⟩
  have hk := (List.getElem?_eq_some_iff.mp hold).1
  by_cases hki : k = i
  · subst k
    obtain rfl := loop.ok_unique (vecAt_of_getElem? hold) hrow
    exact ⟨_, List.getElem?_set_self hk, (growTo_length (n + 1) 0 old).2⟩
  · exact ⟨old, by rw [List.getElem?_set_ne (Ne.symm hki), hold], Nat.le_refl _⟩

/-- The resizes leave room for every cell the call uses and shrink nothing. -/
theorem resize_spec (dp : Table) (s1 s2 : Word) :
    ∃ grown, resize dp s1 s2 = .ok grown ∧ Covers s1.length s2.length grown ∧ Grows dp grown := by
  obtain ⟨grown, hgrown, hcovers⟩ := growRows_spec dp s1.length s2.length
  refine ⟨grown, hgrown, hcovers, (grows_growTo dp (s1.length + 1)).trans ?_⟩
  exact loop.foldlM_rel Grows.refl (fun _ _ _ => Grows.trans) (fun _ _ _ => growRow_grows) hgrown

/-- Which cells a table has depends on the widths of its rows alone. -/
theorem cell_isSome_of_shape {dp after : Table} (h : after.shape = dp.shape) (i j : ℕ) :
    (after.cell i j).isSome = (dp.cell i j).isSome := by
  have hwidth (dp : Table) : (dp.cell i j).isSome = (dp.shape[i]?.any fun width => j < width) := by
    rw [Table.cell, Table.shape, List.getElem?_map]
    cases dp[i]? with
    | none => rfl
    | some row =>
      rw [Option.bind_some, Option.map_some, Option.any_some, Bool.eq_iff_iff]
      simp
  rw [hwidth, hwidth, h]

theorem Table.write_shape {dp after : Table} {i j value : ℕ} (h : dp.write i j value = .ok after) :
    after.shape = dp.shape := by
  obtain ⟨row, hrow, hresult⟩ := loop.bind_eq_ok_iff.mp h
  split at hresult
  · obtain rfl := Except.ok.inj hresult
    have hwidth : dp.shape[i]? = some row.length := by
      rw [Table.shape, List.getElem?_map, getElem?_of_vecAt hrow, Option.map_some]
    rw [Table.shape, List.map_set, List.length_set]
    apply List.ext_getElem?
    intro k
    by_cases hki : k = i
    · subst k
      rw [hwidth]
      exact List.getElem?_set_self (List.getElem?_eq_some_iff.mp hwidth).1
    · rw [List.getElem?_set_ne (Ne.symm hki)]
      rfl
  · cases hresult

end Shape

section Discipline

theorem ReadsWritten.append {log : List Access} (h : ReadsWritten log) {access : Access}
    (hread : ∀ i j, access = .read i j → .write i j ∈ log) : ReadsWritten (log ++ [access]) := by
  intro k i j hat
  rcases Nat.lt_trichotomy k log.length with hk | rfl | hk
  · rw [List.getElem?_append_left hk] at hat
    rw [List.take_append_of_le_length hk.le]
    exact h k i j hat
  · rw [List.getElem?_concat_length] at hat
    rw [List.take_left' rfl]
    exact hread i j (Option.some.inj hat)
  · rw [List.getElem?_eq_none (by simp; omega)] at hat
    cases hat

/-- The state of a call on the resized table `grown` when the cells `done` are
    filled: rows keep their widths, all accesses were to cells of `grown`, and
    nothing was read that this call had not written. -/
structure Disciplined (m n : ℕ) (grown : Table) (done : ℕ → ℕ → Prop) (t : Traced) : Prop where
  shape : t.dp.shape = grown.shape
  inside : ∀ access ∈ t.log, (grown.cell access.cell.1 access.cell.2).isSome
  written : ∀ i j, i ≤ m → j ≤ n → done i j → .write i j ∈ t.log
  reads : ReadsWritten t.log

variable {m n : ℕ} {grown : Table} (hcovers : Covers m n grown) {done next : ℕ → ℕ → Prop} {t : Traced}

include hcovers

/-- A read of a cell filled earlier. -/
theorem Disciplined.read (h : Disciplined m n grown done t) {i j : ℕ} (hi : i ≤ m) (hj : j ≤ n) (hdone : done i j) :
    ∃ value after, t.read i j = .ok (value, after) ∧ Disciplined m n grown done after := by
  have hcell := hcovers i j hi hj
  rw [← cell_isSome_of_shape h.shape] at hcell
  obtain ⟨value, hvalue⟩ := Option.isSome_iff_exists.mp hcell
  refine ⟨value, ⟨t.dp, t.log ++ [.read i j]⟩, ?_, h.shape, fun access haccess => ?_, fun a b ha hb hab => ?_, ?_⟩
  · unfold Traced.read
    rw [Table.read_eq_ok hvalue]
    rfl
  · cases List.mem_append.mp haccess with
    | inl hold => exact h.inside access hold
    | inr hnew =>
      obtain rfl := List.mem_singleton.mp hnew
      exact hcovers i j hi hj
  · exact List.mem_append_left _ (h.written a b ha hb hab)
  · apply h.reads.append
    intro a b hab
    obtain ⟨rfl, rfl⟩ := Access.read.inj hab
    exact h.written _ _ hi hj hdone

theorem Disciplined.write (h : Disciplined m n grown done t) {i j : ℕ} (hi : i ≤ m) (hj : j ≤ n) (value : ℕ)
    (hadds : Adds m n done i j next) :
    ∃ after, t.write i j value = .ok after ∧ Disciplined m n grown next after := by
  have hcell := hcovers i j hi hj
  rw [← cell_isSome_of_shape h.shape] at hcell
  obtain ⟨dp, hwrite, -⟩ := t.dp.write_spec value hcell
  refine ⟨⟨dp, t.log ++ [.write i j]⟩, ?_, (Table.write_shape hwrite).trans h.shape, fun access haccess => ?_,
    fun a b ha hb hab => ?_, h.reads.append fun _ _ hab => by cases hab⟩
  · unfold Traced.write
    rw [hwrite]
    rfl
  · cases List.mem_append.mp haccess with
    | inl hold => exact h.inside access hold
    | inr hnew =>
      obtain rfl := List.mem_singleton.mp hnew
      exact hcovers i j hi hj
  · cases hadds a b ha hb hab with
    | inl hold => exact List.mem_append_left _ (h.written a b ha hb hold)
    | inr heq =>
      obtain ⟨rfl, rfl⟩ := heq
      simp

end Discipline

theorem fillCellTraced_disciplined {s1 s2 : Word} {grown : Table} (hcovers : Covers s1.length s2.length grown)
    {done next : ℕ → ℕ → Prop} {t : Traced} (h : Disciplined s1.length s2.length grown done t) {i j : ℕ}
    (hi : i < s1.length) (hj : j < s2.length) (habove : done i (j + 1)) (hleft : done (i + 1) j)
    (hdiagonal : done i j) (hadds : Adds s1.length s2.length done (i + 1) (j + 1) next) :
    ∃ after, fillCellTraced s1 s2 i t j = .ok after ∧ Disciplined s1.length s2.length grown next after := by
  obtain ⟨c1, h1⟩ : ∃ c, s1[i]? = some c := ⟨_, List.getElem?_eq_getElem hi⟩
  obtain ⟨c2, h2⟩ : ∃ c, s2[j]? = some c := ⟨_, List.getElem?_eq_getElem hj⟩
  unfold fillCellTraced
  rw [vecAt_of_getElem? h1, loop.bind_ok, vecAt_of_getElem? h2, loop.bind_ok]
  by_cases hc : c1 = c2
  · obtain ⟨diagonal, t1, hread, h⟩ := h.read hcovers (by omega) (by omega) hdiagonal
    rw [if_pos hc, hread, loop.bind_ok]
    exact h.write hcovers (by omega) (by omega) diagonal hadds
  · obtain ⟨above, t1, hreadAbove, h⟩ := h.read hcovers (by omega) (by omega) habove
    obtain ⟨left, t2, hreadLeft, h⟩ := h.read hcovers (by omega) (by omega) hleft
    obtain ⟨diagonal, t3, hreadDiagonal, h⟩ := h.read hcovers (by omega) (by omega) hdiagonal
    simp only [if_neg hc, hreadAbove, hreadLeft, hreadDiagonal, loop.bind_ok]
    exact h.write hcovers (by omega) (by omega) _ hadds

/-- One call, on whatever table earlier calls left. -/
theorem EditDistanceTraced_spec (dp : Table) (s1 s2 : Word) :
    ∃ grown t, resize dp s1 s2 = .ok grown ∧ Grows dp grown ∧
      EditDistanceTraced dp s1 s2 = .ok (EditDistance s1 s2, t) ∧
      EditDistanceOn dp s1 s2 = .ok (EditDistance s1 s2, t.dp) ∧
      Disciplined s1.length s2.length grown (fun _ _ => True) t := by
  obtain ⟨grown, hgrown, hcovers, hgrows⟩ := resize_spec dp s1 s2
  obtain ⟨left, border, full, hleft, hborder, hfull, hdone⟩ := fill_in_order
    (fun t i => Traced.write t i 0 i) (fun t j => Traced.write t 0 j j) (fillCellTraced s1 s2)
    (Disciplined s1.length s2.length grown) ⟨grown, []⟩
    (fun done next t h hsub =>
      ⟨h.shape, h.inside, fun i j hi hj hnext => h.written i j hi hj (hsub i j hi hj hnext), h.reads⟩)
    (fun i done next t hi h hadds => h.write hcovers hi (Nat.zero_le _) i hadds)
    (fun j done next t hj h hadds => h.write hcovers (Nat.zero_le _) hj j hadds)
    (fun i j done next t hi hj h habove hleft hdiagonal hadds =>
      fillCellTraced_disciplined hcovers h hi hj habove hleft hdiagonal hadds)
    ⟨rfl, by simp, fun i j _ _ h => h.elim, fun k i j hat => by simp at hat⟩
  obtain ⟨distance, t, hread, hfinal⟩ := hdone.read hcovers (Nat.le_refl _) (Nat.le_refl _) trivial
  obtain ⟨hvalue, hdp⟩ := Traced.read_project hread
  have hplain : EditDistanceOn dp s1 s2 = .ok (distance, t.dp) := by
    have hleft' := loop.foldlM_project (fun dp i => Table.write dp i 0 i) Traced.dp
      (fun _ _ _ => Traced.write_project) hleft
    have hborder' := loop.foldlM_project (fun dp j => Table.write dp 0 j j) Traced.dp
      (fun _ _ _ => Traced.write_project) hborder
    have hfull' := loop.foldlM_project (fun dp i => (List.range s2.length).foldlM (fillCell s1 s2 i) dp) Traced.dp
      (fun _ i _ => loop.foldlM_project (fillCell s1 s2 i) Traced.dp fun _ _ _ => fillCellTraced_project) hfull
    unfold resize at hgrown
    rw [EditDistanceOn, hgrown, loop.bind_ok, hleft', loop.bind_ok, hborder', loop.bind_ok, hfull', loop.bind_ok,
      hvalue, loop.bind_ok, hdp]
    rfl
  obtain ⟨after, hvalueOf⟩ := EditDistanceOn_eq dp s1 s2
  obtain ⟨rfl, -⟩ := Prod.mk.inj (loop.ok_unique hplain hvalueOf)
  refine ⟨grown, t, hgrown, hgrows, ?_, hplain, hfinal⟩
  rw [EditDistanceTraced, hgrown, loop.bind_ok, hleft, loop.bind_ok, hborder, loop.bind_ok, hfull, loop.bind_ok]
  exact hread

/-- The calls of one thread, in order, each on the table the one before left. -/
def runCalls (dp : Table) : List (Word × Word) → Except Fault (List ℕ × Table)
  | [] => .ok ([], dp)
  | (s1, s2) :: calls => do
    let (distance, dp) ← EditDistanceOn dp s1 s2
    let (distances, dp) ← runCalls dp calls
    return (distance :: distances, dp)

theorem runCalls_eq (dp : Table) (calls : List (Word × Word)) :
    ∃ after, runCalls dp calls = .ok (calls.map fun call => EditDistance call.1 call.2, after) := by
  induction calls generalizing dp with
  | nil => exact ⟨dp, rfl⟩
  | cons call calls ih =>
    obtain ⟨s1, s2⟩ := call
    obtain ⟨mid, hcall⟩ := EditDistanceOn_eq dp s1 s2
    obtain ⟨after, hrest⟩ := ih mid
    refine ⟨after, ?_⟩
    rw [runCalls, hcall, loop.bind_ok]
    simp only [hrest, loop.bind_ok]
    rfl

/-- Any sequence of calls on one thread, from the empty table, returns the
    values of calls on fresh tables. Whatever call comes next, its resizes
    shrink nothing, the rest of it keeps all widths, all its accesses are inside
    the resized table, and it reads only what it has written. -/
theorem EditDistanceOn_reuse (calls : List (Word × Word)) :
    ∃ dp, runCalls [] calls = .ok (calls.map fun call => EditDistance call.1 call.2, dp) ∧
      ∀ s1 s2, ∃ grown distance t, resize dp s1 s2 = .ok grown ∧
        EditDistanceTraced dp s1 s2 = .ok (distance, t) ∧
        EditDistanceOn dp s1 s2 = .ok (distance, t.dp) ∧
        (∃ fresh, EditDistanceOn [] s1 s2 = .ok (distance, fresh)) ∧
        Grows dp grown ∧ t.dp.shape = grown.shape ∧
        (∀ access ∈ t.log, (grown.cell access.cell.1 access.cell.2).isSome) ∧
        ReadsWritten t.log := by
  obtain ⟨dp, hcalls⟩ := runCalls_eq [] calls
  refine ⟨dp, hcalls, fun s1 s2 => ?_⟩
  obtain ⟨grown, t, hgrown, hgrows, htraced, hplain, hdone⟩ := EditDistanceTraced_spec dp s1 s2
  exact ⟨grown, EditDistance s1 s2, t, hgrown, htraced, hplain, EditDistanceOn_eq [] s1 s2, hgrows, hdone.shape,
    hdone.inside, hdone.reads⟩

end spellcheck.edit_distance
