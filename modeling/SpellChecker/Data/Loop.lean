import Mathlib.Data.List.Basic
import Mathlib.Data.List.Range

namespace loop

universe u

variable {ε : Type*} {σ α β : Type u}

/-- The bind of a computation that may fail succeeds exactly when both parts do. -/
theorem bind_eq_ok_iff {x : Except ε α} {f : α → Except ε β} {y : β} :
    (x >>= f) = .ok y ↔ ∃ a, x = .ok a ∧ f a = .ok y := by
  cases x with
  | error e => simp [Bind.bind, Except.bind]
  | ok a => simp [Bind.bind, Except.bind]

@[simp] theorem bind_ok (a : α) (f : α → Except ε β) : (Except.ok a >>= f) = f a := rfl

@[simp] theorem pure_eq_ok (a : α) : (pure a : Except ε α) = .ok a := rfl

theorem ok_unique {x : Except ε α} {a b : α} (ha : x = .ok a) (hb : x = .ok b) : a = b :=
  Except.ok.inj (ha.symm.trans hb)

/-- The rule for `for (i = 0; i < n; ++i)`: a relation between the counter and
    the state that every step succeeds on and carries forward holds at the end,
    and the loop succeeds. -/
theorem foldlM_range_ok (step : σ → ℕ → Except ε σ) (invariant : ℕ → σ → Prop) (n : ℕ) (init : σ)
    (hinit : invariant 0 init)
    (hstep : ∀ i s, i < n → invariant i s → ∃ s', step s i = .ok s' ∧ invariant (i + 1) s') :
    ∃ final, (List.range n).foldlM step init = .ok final ∧ invariant n final := by
  induction n with
  | zero => exact ⟨init, rfl, hinit⟩
  | succ n ih =>
    obtain ⟨before, hbefore, hinvariant⟩ := ih fun i s hi => hstep i s (by omega)
    obtain ⟨after, hafter, hnext⟩ := hstep n before (by omega) hinvariant
    refine ⟨after, ?_, hnext⟩
    rw [List.range_succ, List.foldlM_append, hbefore, bind_ok, List.foldlM_cons, hafter, bind_ok]
    rfl

/-- A loop relates its first state to its last by any preorder that every
    successful step respects. -/
theorem foldlM_rel {step : σ → α → Except ε σ} {r : σ → σ → Prop} (hrefl : ∀ s, r s s)
    (htrans : ∀ s t u, r s t → r t u → r s u) (hstep : ∀ s a t, step s a = .ok t → r s t) {l : List α} {init final : σ}
    (h : l.foldlM step init = .ok final) : r init final := by
  induction l generalizing init with
  | nil =>
    obtain rfl := Except.ok.inj h
    exact hrefl init
  | cons a l ih =>
    rw [List.foldlM_cons, bind_eq_ok_iff] at h
    obtain ⟨next, hnext, hrest⟩ := h
    exact htrans _ _ _ (hstep init a next hnext) (ih hrest)

/-- A successful loop over an enriched state, seen through a projection, is a
    successful loop over the projected state, if this holds of every step. -/
theorem foldlM_project {step : σ → α → Except ε σ} (plain : β → α → Except ε β) (project : σ → β)
    (hstep : ∀ s a t, step s a = .ok t → plain (project s) a = .ok (project t)) {l : List α} {init final : σ}
    (h : l.foldlM step init = .ok final) : l.foldlM plain (project init) = .ok (project final) := by
  induction l generalizing init with
  | nil =>
    obtain rfl := Except.ok.inj h
    rfl
  | cons a l ih =>
    rw [List.foldlM_cons, bind_eq_ok_iff] at h
    obtain ⟨next, hnext, hrest⟩ := h
    rw [List.foldlM_cons, hstep init a next hnext, bind_ok]
    exact ih hrest

/-- A list of computations that all succeed succeeds as a whole. -/
theorem mapM_ok {f : α → Except ε β} {g : α → β} {l : List α} (h : ∀ a ∈ l, f a = .ok (g a)) :
    l.mapM f = .ok (l.map g) := by
  induction l with
  | nil => rfl
  | cons a l ih =>
    rw [List.mapM_cons, h a (by simp), bind_ok, ih fun b hb => h b (by simp [hb]), bind_ok]
    rfl

theorem mapM_congr {f g : α → Except ε β} {l : List α} (h : ∀ a ∈ l, f a = g a) : l.mapM f = l.mapM g := by
  induction l with
  | nil => rfl
  | cons a l ih => rw [List.mapM_cons, List.mapM_cons, h a (by simp), ih fun b hb => h b (by simp [hb])]

theorem mapM_bind_pure {f : α → Except ε β} {g : β → σ} {l : List α} :
    (l.mapM fun a => f a >>= fun b => pure (g b)) = l.mapM f >>= fun bs => pure (bs.map g) := by
  induction l with
  | nil => rfl
  | cons a l ih =>
    simp only [List.mapM_cons, bind_assoc, pure_bind, ih, List.map_cons]

/-- If a list of computations succeeds as a whole, each of them does. -/
theorem exists_ok_of_mapM {f : α → Except ε β} {l : List α} {bs : List β} (h : l.mapM f = .ok bs) :
    ∀ a ∈ l, ∃ b, f a = .ok b := by
  induction l generalizing bs with
  | nil => simp
  | cons a l ih =>
    rw [List.mapM_cons, bind_eq_ok_iff] at h
    obtain ⟨b, hb, hrest⟩ := h
    rw [bind_eq_ok_iff] at hrest
    obtain ⟨rest, hrest, _⟩ := hrest
    intro c hc
    cases List.mem_cons.mp hc with
    | inl hca => exact ⟨b, hca ▸ hb⟩
    | inr hcl => exact ih hrest c hcl

/-- If a computation succeeds for each of `n` members, the results are a family. -/
theorem exists_ofFn_of_mapM {n : ℕ} {members : Fin n → α} {f : α → Except ε β} {bs : List β}
    (h : (List.ofFn members).mapM f = .ok bs) :
    ∃ results : Fin n → β, bs = List.ofFn results ∧ ∀ r, f (members r) = .ok (results r) := by
  have hok (r : Fin n) : ∃ b, f (members r) = .ok b :=
    exists_ok_of_mapM h (members r) (List.mem_ofFn.mpr ⟨r, rfl⟩)
  choose results hresults using hok
  refine ⟨results, ?_, hresults⟩
  have hall : (List.ofFn members).mapM f = .ok (List.ofFn results) := by
    clear h
    induction n with
    | zero => rfl
    | succ n ih =>
      rw [List.ofFn_succ, List.ofFn_succ, List.mapM_cons, hresults, bind_ok, ih _ fun r => hresults r.succ, bind_ok]
      rfl
  exact ok_unique h hall

end loop
