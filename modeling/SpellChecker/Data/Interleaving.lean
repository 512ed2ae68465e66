import Mathlib.Algebra.Ring.Nat
import Mathlib.Data.DFinsupp.WellFounded
import Mathlib.Data.Fintype.Basic
import Mathlib.Logic.Function.Basic
import Mathlib.Tactic.Cases

namespace interleaving

variable {σ : Type*}

/-- A run of a given number of steps. -/
inductive Steps (step : σ → σ → Prop) : ℕ → σ → σ → Prop where
  | refl (s : σ) : Steps step 0 s s
  | head {n : ℕ} {s t u : σ} (first : step s t) (rest : Steps step n t u) : Steps step (n + 1) s u

/-- No step leads out of the state. -/
def Stuck (step : σ → σ → Prop) (s : σ) : Prop := ∀ t, ¬ step s t

/-- Two different steps from one state lead together again by one step each. -/
def Diamond (step : σ → σ → Prop) : Prop :=
  ∀ s t u, step s t → step s u → t = u ∨ ∃ v, step t v ∧ step u v

section Runs

variable {step : σ → σ → Prop} {s t u : σ} {m n : ℕ}

theorem Steps.single (h : step s t) : Steps step 1 s t := .head h (.refl t)

theorem Steps.trans (hfirst : Steps step m s t) (hsecond : Steps step n t u) : Steps step (m + n) s u := by
  induction hfirst with
  | refl => rwa [Nat.zero_add]
  | @head k _ _ _ hstep _ ih =>
    rw [Nat.succ_add]
    exact .head hstep (ih hsecond)

theorem Steps.tail (hrun : Steps step n s t) (hlast : step t u) : Steps step (n + 1) s u :=
  hrun.trans (.single hlast)

/-- What every step keeps, a run keeps. -/
theorem Steps.preserves {p : σ → Prop} (hstep : ∀ s t, p s → step s t → p t) (hrun : Steps step n s t) (hs : p s) :
    p t := by
  induction hrun with
  | refl => exact hs
  | head hfirst _ ih => exact ih (hstep _ _ hs hfirst)

/-- Any first step can be completed to a run of the same length as a run that
    ends in a stuck state. -/
theorem Diamond.complete_step (hdiamond : Diamond step) (hrun : Steps step n s u) (hstuck : Stuck step u)
    (h : step s t) : ∃ k, n = k + 1 ∧ Steps step k t u := by
  induction hrun generalizing t with
  | refl => exact absurd h (hstuck t)
  | @head k s mid u hfirst hrest ih =>
    refine ⟨k, rfl, ?_⟩
    rcases hdiamond s mid t hfirst h with rfl | ⟨join, hmid, ht⟩
    · exact hrest
    · obtain ⟨j, rfl, hjoin⟩ := ih hstuck hmid
      exact .head ht hjoin

/-- One run that ends in a stuck state settles all others: each of them is a
    beginning of a run of the same length to the same state. -/
theorem Diamond.complete (hdiamond : Diamond step) (hrun : Steps step n s u) (hstuck : Stuck step u)
    (h : Steps step m s t) : ∃ k, n = m + k ∧ Steps step k t u := by
  induction h generalizing n with
  | refl => exact ⟨n, (Nat.zero_add n).symm, hrun⟩
  | @head j _ _ _ hfirst _ ih =>
    obtain ⟨k, rfl, hnext⟩ := hdiamond.complete_step hrun hstuck hfirst
    obtain ⟨rest, rfl, hlast⟩ := ih hnext
    exact ⟨rest, by omega, hlast⟩

/-- All maximal runs from one state end in the same state. -/
theorem Diamond.eq_of_stuck (hdiamond : Diamond step) (hrun : Steps step n s u) (hstuck : Stuck step u)
    (h : Steps step m s t) (ht : Stuck step t) : t = u := by
  obtain ⟨k, -, hrest⟩ := hdiamond.complete hrun hstuck h
  cases hrest with
  | refl => rfl
  | head hfirst _ => exact absurd hfirst (ht _)

/-- A first step and a run can be continued to meet, the run by at most one step. -/
theorem Diamond.meet_step (hdiamond : Diamond step) (hrun : Steps step n s u) (h : step s t) :
    ∃ v k, Steps step k t v ∧ (v = u ∨ step u v) := by
  induction hrun generalizing t with
  | refl => exact ⟨t, 0, .refl t, .inr h⟩
  | @head k s mid u hfirst hrest ih =>
    rcases hdiamond s mid t hfirst h with rfl | ⟨join, hmid, ht⟩
    · exact ⟨u, k, hrest, .inl rfl⟩
    · obtain ⟨v, j, hjoin, hv⟩ := ih hmid
      exact ⟨v, j + 1, .head ht hjoin, hv⟩

/-- Any two runs from one state can be continued to meet. -/
theorem Diamond.meet (hdiamond : Diamond step) (hrun : Steps step n s u) (h : Steps step m s t) :
    ∃ v j k, Steps step j u v ∧ Steps step k t v := by
  induction h generalizing n u with
  | refl => exact ⟨u, 0, n, .refl u, hrun⟩
  | head hfirst _ ih =>
    obtain ⟨v, k, hv, hlast⟩ := hdiamond.meet_step hrun hfirst
    obtain ⟨w, i, j, hw, ht⟩ := ih hv
    refine ⟨w, ?_⟩
    rcases hlast with rfl | hlast
    · exact ⟨i, j, hw, ht⟩
    · exact ⟨i + 1, j, .head hlast hw, ht⟩

/-- A run that can go no further goes on from every state that another run leads to. -/
theorem Diamond.passes (hdiamond : Diamond step) (hrun : Steps step n s u) (h : Steps step m s t)
    (hstuck : Stuck step t) : ∃ k, Steps step k u t := by
  obtain ⟨v, j, k, hu, ht⟩ := hdiamond.meet hrun h
  cases ht with
  | refl => exact ⟨j, hu⟩
  | head hfirst _ => exact absurd hfirst (hstuck _)

/-- When no run goes on for ever, every state leads to one without a way on. -/
theorem exists_stuck (hends : WellFounded fun t s => step s t) (s : σ) : ∃ t k, Steps step k s t ∧ Stuck step t := by
  induction s using hends.induction with
  | _ s ih =>
    by_cases hstuck : Stuck step s
    · exact ⟨s, 0, .refl s, hstuck⟩
    · obtain ⟨next, hnext⟩ : ∃ t, step s t := by simpa [Stuck] using hstuck
      obtain ⟨t, k, hrest, ht⟩ := ih next hnext
      exact ⟨t, k + 1, .head hnext hrest, ht⟩

end Runs

section Parties

variable {n : ℕ} {ρ : Type*}

/-- A step of one of `n` parties: `move s r` is the state the party `r` goes to
    when the parties are in the states `s`, if it can move. -/
def PartyStep (move : (Fin n → ρ) → Fin n → Option ρ) (s t : Fin n → ρ) : Prop :=
  ∃ r x, move s r = some x ∧ t = Function.update s r x

/-- The move of a party stays as it is while others move. -/
def Independent (move : (Fin n → ρ) → Fin n → Option ρ) : Prop :=
  ∀ s r q x y, r ≠ q → move s r = some x → move s q = some y → move (Function.update s r x) q = some y

variable {move : (Fin n → ρ) → Fin n → Option ρ}

theorem stuck_iff {s : Fin n → ρ} : Stuck (PartyStep move) s ↔ ∀ r, move s r = none := by
  constructor
  · intro h r
    cases hmove : move s r with
    | none => rfl
    | some x => exact absurd ⟨r, x, hmove, rfl⟩ (h (Function.update s r x))
  · rintro h t ⟨r, x, hmove, -⟩
    rw [h r] at hmove
    cases hmove

/-- Parties of which each can move only finitely often cannot go on for ever. -/
theorem partyStep_wellFounded {after : ρ → ρ → Prop} (hafter : WellFounded after)
    (hmove : ∀ s r x, move s r = some x → after x (s r)) : WellFounded fun t s => PartyStep move s t := by
  apply Subrelation.wf (r := Pi.Lex (· < ·) fun {_ : Fin n} => after) ?_ (Pi.Lex.wellFounded (· < ·) fun _ => hafter)
  rintro t s ⟨r, x, hr, rfl⟩
  refine ⟨r, fun q hq => Function.update_of_ne hq.ne x s, ?_⟩
  rw [Function.update_self]
  exact hmove s r x hr

/-- Independent parties have the diamond property. -/
theorem Independent.diamond (h : Independent move) : Diamond (PartyStep move) := by
  rintro s t u ⟨r, x, hr, rfl⟩ ⟨q, y, hq, rfl⟩
  by_cases hrq : r = q
  · subst hrq
    rw [hr] at hq
    obtain rfl := Option.some.inj hq
    exact .inl rfl
  · refine .inr ⟨Function.update (Function.update s r x) q y, ⟨q, y, h s r q x y hrq hr hq, rfl⟩, r, x, ?_, ?_⟩
    · exact h s q r y x (Ne.symm hrq) hq hr
    · rw [Function.update_comm hrq]

/-- Parties that can each make a given move, whichever of the others have made
    theirs, can make them one after the other. -/
theorem steps_sweep {s target : Fin n → ρ} (movers : List (Fin n)) (hnodup : movers.Nodup)
    (hmove : ∀ r ∈ movers, ∀ now : Fin n → ρ, now r = s r → (∀ q, now q = s q ∨ q ∈ movers ∧ now q = target q) →
      move now r = some (target r)) :
    Steps (PartyStep move) movers.length s fun r => if r ∈ movers then target r else s r := by
  -- The run over the first movers, with the later ones still to come.
  have prefixes (done : List (Fin n)) : ∀ rest, done ++ rest = movers →
      Steps (PartyStep move) done.length s fun r => if r ∈ done then target r else s r := by
    induction done using List.reverseRecOn with
    | nil =>
      intro rest _
      simpa using Steps.refl s
    | append_singleton done r ih =>
      intro rest hsplit
      have hrun := ih (r :: rest) (by simpa using hsplit)
      have hr : r ∈ movers := by simp [← hsplit]
      have hfresh : r ∉ done := by
        rw [← hsplit, List.append_assoc] at hnodup
        intro hmem
        exact (List.nodup_append.mp hnodup).2.2 r hmem r (by simp) rfl
      have hnext : move (fun q => if q ∈ done then target q else s q) r = some (target r) := by
        refine hmove r hr _ (if_neg hfresh) fun q => ?_
        by_cases hq : q ∈ done
        · exact .inr ⟨by simp [← hsplit, hq], if_pos hq⟩
        · exact .inl (if_neg hq)
      have hstep : PartyStep move (fun q => if q ∈ done then target q else s q)
          (fun q => if q ∈ done ++ [r] then target q else s q) := by
        refine ⟨r, target r, hnext, funext fun q => ?_⟩
        by_cases hq : q = r
        · subst hq
          simp
        · simp [hq]
      simpa using hrun.tail hstep
  simpa using prefixes movers [] (List.append_nil movers)

/-- All parties move, one after the other, each to its target, if none minds who of
    the others has moved already. -/
theorem steps_sweep_all {s target : Fin n → ρ}
    (hmove : ∀ r, ∀ now : Fin n → ρ, now r = s r → (∀ q, now q = s q ∨ now q = target q) →
      move now r = some (target r)) : Steps (PartyStep move) n s target := by
  have hrun := @steps_sweep n ρ move s target (List.finRange n) (List.nodup_finRange n) fun r _ now hr hnow =>
    hmove r now hr fun q => (hnow q).imp id And.right
  simpa using hrun

end Parties

end interleaving
