import Mathlib.Algebra.BigOperators.Fin
import Mathlib.Algebra.Order.Group.Multiset
import SpellChecker.Data.Interleaving

open interleaving

namespace work_sharing

variable {τ σ ε : Type*} {threads : ℕ}

/-- Where a thread of a parallel loop is: between two iterations, with an
    iteration to compute, with something to store for it, or behind the loop. -/
inductive Phase (σ ε : Type*) where
  | idle
  | busy (i : ℕ)
  | storing (i : ℕ) (store : σ → Except ε σ)
  | left

/-- The thread is at an iteration. -/
def Phase.Working : Phase σ ε → Prop
  | .idle | .left => False
  | .busy _ | .storing _ _ => True

/-- A thread: where it is, its private variables, and the iterations it has computed. -/
structure Thread (τ σ ε : Type*) where
  phase : Phase σ ε
  own : τ
  made : List ℕ

/-- A team in a parallel loop: the iterations nobody has taken yet, the threads,
    the shared variables, and the threads that have left the region, in order. -/
structure Team (τ σ ε : Type*) (threads : ℕ) where
  todo : List ℕ
  thread : Fin threads → Thread τ σ ε
  shared : σ
  gone : List (Fin threads)

/-- A parallel region: the body of its loop, which leaves the shared variables
    alone but for the store it ends with, and what a thread does in a critical
    section behind the loop. -/
structure Region (τ σ ε : Type*) where
  body : ℕ → τ → Except ε (τ × (σ → Except ε σ))
  leave : τ → σ → σ

/-- A step of the team: an idle thread takes any iteration; computes the
    iteration it has taken; stores what it has computed; or leaves when all
    threads have come to the barrier that ends the loop. -/
inductive Step (region : Region τ σ ε) : Team τ σ ε threads → Team τ σ ε threads → Prop where
  | take (s : Team τ σ ε threads) (r : Fin threads) (i : ℕ) (hidle : (s.thread r).phase = .idle) (hi : i ∈ s.todo) :
    Step region s { s with
      todo := s.todo.erase i
      thread := Function.update s.thread r ⟨.busy i, (s.thread r).own, (s.thread r).made⟩ }
  | compute (s : Team τ σ ε threads) (r : Fin threads) (i : ℕ) (own : τ) (store : σ → Except ε σ)
    (hbusy : (s.thread r).phase = .busy i) (hbody : region.body i (s.thread r).own = .ok (own, store)) :
    Step region s { s with
      thread := Function.update s.thread r ⟨.storing i store, own, (s.thread r).made ++ [i]⟩ }
  | store (s : Team τ σ ε threads) (r : Fin threads) (i : ℕ) (store : σ → Except ε σ) (shared : σ)
    (hstoring : (s.thread r).phase = .storing i store) (hstore : store s.shared = .ok shared) :
    Step region s { s with
      thread := Function.update s.thread r ⟨.idle, (s.thread r).own, (s.thread r).made⟩
      shared := shared }
  | leave (s : Team τ σ ε threads) (r : Fin threads) (hidle : (s.thread r).phase = .idle) (htodo : s.todo = [])
    (hbarrier : ∀ q, ¬ (s.thread q).phase.Working) :
    Step region s { s with
      thread := Function.update s.thread r ⟨.left, (s.thread r).own, (s.thread r).made⟩
      shared := region.leave (s.thread r).own s.shared
      gone := s.gone ++ [r] }

/-- The team at the start of a loop of `n` iterations. -/
def start (n : ℕ) (own : Fin threads → τ) (shared : σ) : Team τ σ ε threads :=
  ⟨List.range n, fun r => ⟨.idle, own r, []⟩, shared, []⟩

/-- What a loop of `n` iterations does, apart from the private variables that do
    not matter: the body adds its iteration to the `view` of the private
    variables, its store commits it to the shared ones, in any order, and a
    leaving thread merges its view. -/
structure Contract (region : Region τ σ ε) (n : ℕ) (α : Type*) where
  good : σ → Prop
  view : τ → α
  extend : α → ℕ → α
  commit : σ → ℕ → σ
  merge : σ → α → σ
  body : ∀ i < n, ∀ own, ∃ next store, region.body i own = .ok (next, store) ∧ view next = extend (view own) i ∧
    ∀ shared, good shared → store shared = .ok (commit shared i)
  good_commit : ∀ i < n, ∀ shared, good shared → good (commit shared i)
  commit_comm : ∀ shared i j, commit (commit shared i) j = commit (commit shared j) i
  leave : ∀ own shared, region.leave own shared = merge shared (view own)

section Accounts

/-- The iterations a thread has taken. -/
def Thread.taken (t : Thread τ σ ε) : Multiset ℕ :=
  t.made + match t.phase with
    | .busy i => {i}
    | _ => 0

/-- The iteration a thread has still to store. -/
def Thread.pending (t : Thread τ σ ε) : Multiset ℕ :=
  match t.phase with
  | .storing i _ => {i}
  | _ => 0

/-- The steps a thread has before it, apart from taking more iterations. -/
def Thread.weight (t : Thread τ σ ε) : ℕ :=
  match t.phase with
  | .idle => 1
  | .busy _ => 3
  | .storing _ _ => 2
  | .left => 0

/-- The steps a team has before it. -/
def Team.weight (s : Team τ σ ε threads) : ℕ := 3 * s.todo.length + ∑ r, (s.thread r).weight

/-- A sum over the threads when one of them changes. -/
theorem sum_update {β : Type*} [AddCommMonoid β] (g : Thread τ σ ε → β) (thread : Fin threads → Thread τ σ ε)
    (r : Fin threads) (t : Thread τ σ ε) :
    ∑ q, g (Function.update thread r t q) + g (thread r) = ∑ q, g (thread q) + g t := by
  have hrest : ∑ q ∈ Finset.univ.erase r, g (Function.update thread r t q) =
      ∑ q ∈ Finset.univ.erase r, g (thread q) := by
    apply Finset.sum_congr rfl
    intro q hq
    rw [Function.update_of_ne (Finset.ne_of_mem_erase hq)]
  rw [← Finset.add_sum_erase _ _ (Finset.mem_univ r),
    ← Finset.add_sum_erase _ (fun q => g (thread q)) (Finset.mem_univ r), hrest, Function.update_self]
  ac_rfl

/-- The steps before a team when one of its threads changes. -/
theorem weight_update (s : Team τ σ ε threads) (r : Fin threads) (t : Thread τ σ ε) (todo : List ℕ) (shared : σ)
    (gone : List (Fin threads)) :
    (Team.mk todo (Function.update s.thread r t) shared gone).weight + 3 * s.todo.length + (s.thread r).weight =
      s.weight + 3 * todo.length + t.weight := by
  have hsum := sum_update Thread.weight s.thread r t
  simp only [Team.weight]
  omega

/-- Every step does one piece of the work. -/
theorem Step.weight {region : Region τ σ ε} {s t : Team τ σ ε threads} (h : Step region s t) :
    t.weight + 1 = s.weight := by
  cases h with
  | take r i hidle hi =>
    have hsum := weight_update s r ⟨.busy i, (s.thread r).own, (s.thread r).made⟩ (s.todo.erase i) s.shared s.gone
    have hlength := List.length_erase_add_one hi
    rw [Thread.weight, hidle] at hsum
    simp only [Thread.weight] at hsum
    omega
  | compute r i own store hbusy hbody =>
    have hsum := weight_update s r ⟨.storing i store, own, (s.thread r).made ++ [i]⟩ s.todo s.shared s.gone
    rw [Thread.weight, hbusy] at hsum
    simp only [Thread.weight] at hsum
    omega
  | store r i store shared hstoring hstore =>
    have hsum := weight_update s r ⟨.idle, (s.thread r).own, (s.thread r).made⟩ s.todo shared s.gone
    rw [Thread.weight, hstoring] at hsum
    simp only [Thread.weight] at hsum
    omega
  | leave r hidle htodo hbarrier =>
    have hsum := weight_update s r ⟨.left, (s.thread r).own, (s.thread r).made⟩ s.todo
      (region.leave (s.thread r).own s.shared) (s.gone ++ [r])
    rw [Thread.weight, hidle] at hsum
    simp only [Thread.weight] at hsum
    omega

end Accounts

section Invariant

variable {α : Type*} {region : Region τ σ ε} {n : ℕ} (c : Contract region n α)

/-- Where a run of the loop stands: every iteration is in one place, each view
    has grown by the iterations its thread has computed, the shared variables by
    those of them that have been stored and then by the views of the threads that
    have left. -/
structure Accounted (own : Fin threads → τ) (shared : σ) (s : Team τ σ ε threads) : Prop where
  taken : (s.todo : Multiset ℕ) + ∑ r, (s.thread r).taken = Multiset.range n
  view : ∀ r, c.view (s.thread r).own = (s.thread r).made.foldl c.extend (c.view (own r))
  storing : ∀ r i store, (s.thread r).phase = .storing i store → ∀ shared, c.good shared →
    store shared = .ok (c.commit shared i)
  nodup : s.gone.Nodup
  mem_gone : ∀ r, r ∈ s.gone ↔ (s.thread r).phase = .left
  closed : s.gone ≠ [] → s.todo = [] ∧ ∀ r, ¬ (s.thread r).phase.Working
  good : s.gone = [] → c.good s.shared
  shared : ∃ order : List ℕ,
    (order : Multiset ℕ) + ∑ r, (s.thread r).pending = ∑ r, ((s.thread r).made : Multiset ℕ) ∧
    s.shared = (s.gone.map fun r => c.view (s.thread r).own).foldl c.merge (order.foldl c.commit shared)

variable {c} {own : Fin threads → τ} {shared : σ} {s t : Team τ σ ε threads}

theorem accounted_start (hgood : c.good shared) : Accounted c own shared (start n own shared) := by
  refine ⟨?_, fun r => rfl, by simp [start], List.nodup_nil, by simp [start], by simp [start], fun _ => hgood, [], ?_,
    rfl⟩
  · simp [start, Thread.taken, Multiset.range]
  · simp [start, Thread.pending]

/-- An iteration that has been taken is in the range of the loop. -/
theorem Accounted.lt (h : Accounted c own shared s) {r : Fin threads} {i : ℕ} (hi : i ∈ (s.thread r).taken) :
    i < n := by
  rw [← Multiset.mem_range, ← h.taken]
  exact Multiset.mem_add.mpr (.inr (Multiset.mem_sum.mpr ⟨r, Finset.mem_univ r, hi⟩))

/-- An iteration that is to be stored is in the range of the loop. -/
theorem Accounted.lt_of_storing (h : Accounted c own shared s) {r : Fin threads} {i : ℕ} {store : σ → Except ε σ}
    (hstoring : (s.thread r).phase = .storing i store) : i < n := by
  obtain ⟨order, horder, -⟩ := h.shared
  have hpending : i ∈ ∑ r, (s.thread r).pending :=
    Multiset.mem_sum.mpr ⟨r, Finset.mem_univ r, by simp [Thread.pending, hstoring]⟩
  have hmade : i ∈ ∑ r, ((s.thread r).made : Multiset ℕ) := horder ▸ Multiset.mem_add.mpr (.inr hpending)
  obtain ⟨q, -, hq⟩ := Multiset.mem_sum.mp hmade
  exact h.lt (r := q) (Multiset.mem_add.mpr (.inl hq))

/-- As long as a thread is at an iteration, none has left. -/
theorem Accounted.gone_eq_nil (h : Accounted c own shared s) {r : Fin threads} (hworking : (s.thread r).phase.Working) :
    s.gone = [] := by
  by_contra hne
  exact (h.closed hne).2 r hworking

section Update

variable {r : Fin threads} {x : Thread τ σ ε}

/-- What holds of the views when one thread changes. -/
theorem update_view (hview : ∀ r, c.view (s.thread r).own = (s.thread r).made.foldl c.extend (c.view (own r)))
    (hx : c.view x.own = x.made.foldl c.extend (c.view (own r))) (q : Fin threads) :
    c.view (Function.update s.thread r x q).own =
      (Function.update s.thread r x q).made.foldl c.extend (c.view (own q)) := by
  by_cases hq : q = r
  · subst hq
    rw [Function.update_self]
    exact hx
  · rw [Function.update_of_ne hq]
    exact hview q

/-- What holds of the stores when one thread changes. -/
theorem Accounted.update_storing (h : Accounted c own shared s)
    (hx : ∀ i store, x.phase = .storing i store → ∀ shared, c.good shared → store shared = .ok (c.commit shared i))
    (q : Fin threads) (i : ℕ) (store : σ → Except ε σ)
    (hstoring : (Function.update s.thread r x q).phase = .storing i store) (shared' : σ) (hgood : c.good shared') :
    store shared' = .ok (c.commit shared' i) := by
  by_cases hq : q = r
  · subst hq
    rw [Function.update_self] at hstoring
    exact hx i store hstoring shared' hgood
  · rw [Function.update_of_ne hq] at hstoring
    exact h.storing q i store hstoring shared' hgood

/-- Who has left, when a thread changes that has not. -/
theorem Accounted.update_mem_gone (h : Accounted c own shared s) (hgone : s.gone = []) (hx : x.phase ≠ .left)
    (q : Fin threads) : q ∈ s.gone ↔ (Function.update s.thread r x q).phase = .left := by
  by_cases hq : q = r
  · subst hq
    simp [hgone, hx]
  · rw [Function.update_of_ne hq]
    exact h.mem_gone q

end Update

theorem Accounted.take (h : Accounted c own shared s) {r : Fin threads} {i : ℕ} (hidle : (s.thread r).phase = .idle)
    (hi : i ∈ s.todo) : Accounted c own shared { s with
      todo := s.todo.erase i
      thread := Function.update s.thread r ⟨.busy i, (s.thread r).own, (s.thread r).made⟩ } := by
  have hgone : s.gone = [] := by
    by_contra hne
    simp [(h.closed hne).1] at hi
  refine ⟨?_, update_view h.view (h.view r), h.update_storing (by simp), h.nodup, h.update_mem_gone hgone (by simp),
    fun hne => absurd hgone hne, h.good, ?_⟩
  · have hsum := sum_update Thread.taken s.thread r ⟨.busy i, (s.thread r).own, (s.thread r).made⟩
    have hold : (s.thread r).taken = ((s.thread r).made : Multiset ℕ) := by simp [Thread.taken, hidle]
    have hnew : Thread.taken (⟨.busy i, (s.thread r).own, (s.thread r).made⟩ : Thread τ σ ε) =
        ((s.thread r).made : Multiset ℕ) + {i} := rfl
    have htodo : {i} + ((s.todo.erase i : List ℕ) : Multiset ℕ) = s.todo := by
      rw [← Multiset.coe_erase, Multiset.singleton_add, Multiset.cons_erase hi]
    rw [hold, hnew] at hsum
    rw [← h.taken, ← htodo]
    apply add_right_cancel (b := ((s.thread r).made : Multiset ℕ))
    rw [add_assoc, hsum]
    dsimp only
    ac_rfl
  · obtain ⟨order, horder, hshared⟩ := h.shared
    have hmade := sum_update (fun x => (x.made : Multiset ℕ)) s.thread r ⟨.busy i, (s.thread r).own, (s.thread r).made⟩
    have hpending := sum_update Thread.pending s.thread r ⟨.busy i, (s.thread r).own, (s.thread r).made⟩
    simp only [Thread.pending, hidle, add_zero] at hpending
    refine ⟨order, ?_, by simpa [hgone] using hshared⟩
    rw [add_right_cancel hmade, ← horder]
    exact congrArg _ hpending

theorem Accounted.compute (h : Accounted c own shared s) {r : Fin threads} {i : ℕ} {next : τ}
    {store : σ → Except ε σ} (hbusy : (s.thread r).phase = .busy i)
    (hbody : region.body i (s.thread r).own = .ok (next, store)) :
    Accounted c own shared { s with
      thread := Function.update s.thread r ⟨.storing i store, next, (s.thread r).made ++ [i]⟩ } := by
  have hgone := h.gone_eq_nil (r := r) (by simp [hbusy, Phase.Working])
  have hlt : i < n := h.lt (show i ∈ (s.thread r).taken by simp [Thread.taken, hbusy])
  obtain ⟨made, kept, hmade, hview, hstore⟩ := c.body i hlt (s.thread r).own
  rw [hbody] at hmade
  obtain ⟨rfl, rfl⟩ := Prod.mk.inj (Except.ok.inj hmade)
  refine ⟨?_, update_view h.view ?_, h.update_storing fun j kept hkept => ?_, h.nodup,
    h.update_mem_gone hgone (by simp), fun hne => absurd hgone hne, h.good, ?_⟩
  · have hsum := sum_update Thread.taken s.thread r ⟨.storing i store, next, (s.thread r).made ++ [i]⟩
    have hsame : Thread.taken ⟨.storing i store, next, (s.thread r).made ++ [i]⟩ = (s.thread r).taken := by
      simp [Thread.taken, hbusy, ← Multiset.coe_add]
    rw [hsame] at hsum
    rw [← h.taken, add_right_cancel hsum]
  · rw [hview, h.view r, List.foldl_append]
    rfl
  · obtain ⟨rfl, rfl⟩ := Phase.storing.inj hkept
    exact hstore
  · obtain ⟨order, horder, hshared⟩ := h.shared
    have hmade := sum_update (fun x => (x.made : Multiset ℕ)) s.thread r
      ⟨.storing i store, next, (s.thread r).made ++ [i]⟩
    have hpending := sum_update Thread.pending s.thread r ⟨.storing i store, next, (s.thread r).made ++ [i]⟩
    simp only [Thread.pending, hbusy, add_zero] at hpending
    refine ⟨order, ?_, by simpa [hgone] using hshared⟩
    apply add_right_cancel (b := ((s.thread r).made : Multiset ℕ))
    rw [hmade, ← horder, ← Multiset.coe_add]
    change (order : Multiset ℕ) + (∑ q, Thread.pending (Function.update s.thread r _ q)) + _ = _
    simp only [Thread.pending]
    rw [hpending]
    simp only [← Multiset.coe_singleton]
    ac_rfl

theorem Accounted.store (h : Accounted c own shared s) {r : Fin threads} {i : ℕ} {store : σ → Except ε σ} {result : σ}
    (hstoring : (s.thread r).phase = .storing i store) (hstore : store s.shared = .ok result) :
    Accounted c own shared { s with
      thread := Function.update s.thread r ⟨.idle, (s.thread r).own, (s.thread r).made⟩
      shared := result } := by
  have hgone := h.gone_eq_nil (r := r) (by simp [hstoring, Phase.Working])
  have hcommit := h.storing r i store hstoring s.shared (h.good hgone)
  rw [hstore] at hcommit
  obtain rfl := Except.ok.inj hcommit
  refine ⟨?_, update_view h.view (h.view r), h.update_storing (by simp), h.nodup, h.update_mem_gone hgone (by simp),
    fun hne => absurd hgone hne, fun _ => c.good_commit i (h.lt_of_storing hstoring) _ (h.good hgone), ?_⟩
  · have hsum := sum_update Thread.taken s.thread r ⟨.idle, (s.thread r).own, (s.thread r).made⟩
    have hsame : Thread.taken (⟨.idle, (s.thread r).own, (s.thread r).made⟩ : Thread τ σ ε) = (s.thread r).taken := by
      simp [Thread.taken, hstoring]
    rw [hsame] at hsum
    rw [← h.taken, add_right_cancel hsum]
  · obtain ⟨order, horder, hshared⟩ := h.shared
    have hmade := sum_update (fun x => (x.made : Multiset ℕ)) s.thread r ⟨.idle, (s.thread r).own, (s.thread r).made⟩
    have hpending := sum_update Thread.pending s.thread r ⟨.idle, (s.thread r).own, (s.thread r).made⟩
    simp only [Thread.pending, hstoring, add_zero] at hpending
    refine ⟨order ++ [i], ?_, by rw [hshared]; simp [hgone]⟩
    rw [add_right_cancel hmade, ← horder, ← Multiset.coe_add]
    change _ + (∑ q, Thread.pending (Function.update s.thread r _ q)) = _
    simp only [Thread.pending]
    rw [← hpending, ← Multiset.coe_singleton]
    ac_rfl

theorem Accounted.leave (h : Accounted c own shared s) {r : Fin threads} (hidle : (s.thread r).phase = .idle)
    (htodo : s.todo = []) (hbarrier : ∀ q, ¬ (s.thread q).phase.Working) :
    Accounted c own shared { s with
      thread := Function.update s.thread r ⟨.left, (s.thread r).own, (s.thread r).made⟩
      shared := region.leave (s.thread r).own s.shared
      gone := s.gone ++ [r] } := by
  have hfresh : r ∉ s.gone := by simp [h.mem_gone, hidle]
  refine ⟨?_, update_view h.view (h.view r), h.update_storing (by simp), ?_, fun q => ?_,
    fun _ => ⟨htodo, fun q => ?_⟩, by simp, ?_⟩
  · have hsum := sum_update Thread.taken s.thread r ⟨.left, (s.thread r).own, (s.thread r).made⟩
    have hsame : Thread.taken (⟨.left, (s.thread r).own, (s.thread r).made⟩ : Thread τ σ ε) = (s.thread r).taken := by
      simp [Thread.taken, hidle]
    rw [hsame] at hsum
    rw [← h.taken, add_right_cancel hsum]
  · refine List.nodup_append.mpr ⟨h.nodup, List.nodup_singleton r, ?_⟩
    simpa using fun q hq => ne_of_mem_of_not_mem hq hfresh
  · by_cases hq : q = r
    · subst hq
      simp
    · simp [hq, h.mem_gone q]
  · by_cases hq : q = r
    · subst hq
      simp [Phase.Working]
    · simp only [Function.update_of_ne hq]
      exact hbarrier q
  · obtain ⟨order, horder, hshared⟩ := h.shared
    have hmade := sum_update (fun x => (x.made : Multiset ℕ)) s.thread r ⟨.left, (s.thread r).own, (s.thread r).made⟩
    have hpending := sum_update Thread.pending s.thread r ⟨.left, (s.thread r).own, (s.thread r).made⟩
    simp only [Thread.pending, hidle, add_zero] at hpending
    refine ⟨order, ?_, ?_⟩
    · rw [add_right_cancel hmade, ← horder]
      exact congrArg _ hpending
    · have hviews : (s.gone.map fun q =>
          c.view (Function.update s.thread r ⟨.left, (s.thread r).own, (s.thread r).made⟩ q).own) =
          s.gone.map fun q => c.view (s.thread q).own := by
        apply List.map_congr_left
        intro q hq
        rw [Function.update_of_ne (ne_of_mem_of_not_mem hq hfresh)]
      simp only [List.map_append, List.foldl_append, hviews, List.map_singleton, Function.update_self, List.foldl_cons,
        List.foldl_nil]
      rw [c.leave, hshared]

/-- Every step keeps the accounts. -/
theorem Accounted.step (h : Accounted c own shared s) (hstep : Step region s t) : Accounted c own shared t := by
  cases hstep with
  | take r i hidle hi => exact h.take hidle hi
  | compute r i next store hbusy hbody => exact h.compute hbusy hbody
  | store r i store result hstoring hstore => exact h.store hstoring hstore
  | leave r hidle htodo hbarrier => exact h.leave hidle htodo hbarrier

/-- No iteration is taken by two threads. -/
theorem Accounted.exclusive (h : Accounted c own shared s) {r q : Fin threads} {i : ℕ}
    (hr : i ∈ (s.thread r).taken) (hq : i ∈ (s.thread q).taken) : r = q := by
  by_contra hne
  have hnodup : (∑ r, (s.thread r).taken).Nodup := by
    apply Multiset.nodup_of_le _ (Multiset.nodup_range n)
    rw [← h.taken]
    exact Multiset.le_add_left _ _
  rw [← Finset.add_sum_erase _ _ (Finset.mem_univ r)] at hnodup
  refine Multiset.disjoint_left.mp (Multiset.nodup_add.mp hnodup).2.2 hr ?_
  exact Multiset.mem_sum.mpr ⟨q, Finset.mem_erase.mpr ⟨Ne.symm hne, Finset.mem_univ q⟩, hq⟩

/-- A team in which some thread has not left can go on. -/
theorem Accounted.progress (h : Accounted c own shared s) {r : Fin threads} (hr : (s.thread r).phase ≠ .left) :
    ∃ t, Step region s t := by
  by_cases hbarrier : ∀ q, ¬ (s.thread q).phase.Working
  · have hidle : (s.thread r).phase = .idle := by
      have hrest := hbarrier r
      cases hphase : (s.thread r).phase with
      | idle => rfl
      | busy i => simp [hphase, Phase.Working] at hrest
      | storing i store => simp [hphase, Phase.Working] at hrest
      | left => exact absurd hphase hr
    cases htodo : s.todo with
    | nil => exact ⟨_, .leave s r hidle htodo hbarrier⟩
    | cons i rest => exact ⟨_, .take s r i hidle (by simp [htodo])⟩
  · obtain ⟨q, hworking⟩ : ∃ q, (s.thread q).phase.Working := by simpa using hbarrier
    cases hphase : (s.thread q).phase with
    | idle => simp [hphase, Phase.Working] at hworking
    | left => simp [hphase, Phase.Working] at hworking
    | busy i =>
      have hlt : i < n := h.lt (show i ∈ (s.thread q).taken by simp [Thread.taken, hphase])
      obtain ⟨next, store, hbody, -⟩ := c.body i hlt (s.thread q).own
      exact ⟨_, .compute s q i next store hphase hbody⟩
    | storing i store =>
      have hstore := h.storing q i store hphase s.shared (h.good (h.gone_eq_nil hworking))
      exact ⟨_, .store s q i store _ hphase hstore⟩

theorem stuck_iff_left (h : Accounted c own shared s) :
    Stuck (Step region) s ↔ ∀ r, (s.thread r).phase = .left := by
  constructor
  · intro hstuck r
    by_contra hr
    obtain ⟨t, hstep⟩ := h.progress hr
    exact hstuck t hstep
  · intro hleft t hstep
    cases hstep with
    | take r i hidle hi => simp [hleft r] at hidle
    | compute r i next store hbusy hbody => simp [hleft r] at hbusy
    | store r i store result hstoring hstore => simp [hleft r] at hstoring
    | leave r hidle htodo hbarrier => simp [hleft r] at hidle

theorem Accounted.todo_eq_nil (h : Accounted c own shared s) (hthreads : 0 < threads)
    (hleft : ∀ r, (s.thread r).phase = .left) : s.todo = [] :=
  (h.closed (List.ne_nil_of_mem ((h.mem_gone ⟨0, hthreads⟩).mpr (hleft _)))).1

/-- A team can always finish its work. -/
theorem Accounted.complete (h : Accounted c own shared s) (hthreads : 0 < threads) :
    ∃ t, Steps (Step region) s.weight s t ∧ Stuck (Step region) t := by
  induction hweight : s.weight generalizing s with
  | zero =>
    refine ⟨s, .refl s, fun t hstep => ?_⟩
    have := hstep.weight
    omega
  | succ k ih =>
    by_cases hleft : ∀ r, (s.thread r).phase = .left
    · have hzero : s.weight = 0 := by simp [Team.weight, h.todo_eq_nil hthreads hleft, Thread.weight, hleft]
      omega
    · obtain ⟨r, hr⟩ := not_forall.mp hleft
      obtain ⟨next, hstep⟩ := h.progress hr
      have hnext := hstep.weight
      obtain ⟨t, hrest, hstuck⟩ := ih (h.step hstep) (by omega)
      exact ⟨t, .head hstep hrest, hstuck⟩

theorem steps_weight {m : ℕ} (h : Steps (Step region) m s t) : t.weight + m = s.weight := by
  induction h with
  | refl => rfl
  | head hfirst _ ih =>
    have hstep := hfirst.weight
    omega

/-- What the loop has done when all threads have left. -/
structure Finished (c : Contract region n α) (own : Fin threads → τ) (shared : σ) (s : Team τ σ ε threads) : Prop where
  threads : s.gone.Perm (List.finRange threads)
  made : (s.gone.flatMap fun r => (s.thread r).made).Perm (List.range n)
  shared : s.shared = (s.gone.map fun r => (s.thread r).made.foldl c.extend (c.view (own r))).foldl c.merge
    ((List.range n).foldl c.commit shared)

theorem coe_flatMap (f : Fin threads → List ℕ) (l : List (Fin threads)) :
    (l.flatMap f : Multiset ℕ) = (l.map fun r => (f r : Multiset ℕ)).sum := by
  induction l with
  | nil => rfl
  | cons r l ih => rw [List.flatMap_cons, ← Multiset.coe_add, ih, List.map_cons, List.sum_cons]

theorem Accounted.finished (h : Accounted c own shared s) (hthreads : 0 < threads)
    (hleft : ∀ r, (s.thread r).phase = .left) : Finished c own shared s := by
  have hgone : s.gone.Perm (List.finRange threads) := by
    rw [List.perm_ext_iff_of_nodup h.nodup (List.nodup_finRange threads)]
    intro r
    simp [h.mem_gone r, hleft r]
  have hsum : ∑ r, ((s.thread r).made : Multiset ℕ) = Multiset.range n := by
    rw [← h.taken, h.todo_eq_nil hthreads hleft, Multiset.coe_nil, zero_add]
    apply Finset.sum_congr rfl
    intro r _
    simp [Thread.taken, hleft r]
  refine ⟨hgone, ?_, ?_⟩
  · rw [← Multiset.coe_eq_coe, coe_flatMap, (hgone.map _).sum_eq, ← Fin.sum_univ_def, hsum]
    rfl
  · obtain ⟨order, horder, hshared⟩ := h.shared
    have hstored : ∑ r, (s.thread r).pending = 0 :=
      Finset.sum_eq_zero fun r _ => by simp [Thread.pending, hleft r]
    rw [hstored, add_zero] at horder
    have hperm : order.Perm (List.range n) := Multiset.coe_eq_coe.mp (horder.trans hsum)
    have : RightCommutative c.commit := ⟨c.commit_comm⟩
    rw [hshared, hperm.foldl_eq]
    simp only [h.view]

/-- A run of the loop: it ends after three steps for each iteration and one for
    each thread, whoever takes which iteration and whoever computes and stores
    when, and then it has done what the loop does in sequence. On the way no two
    threads are at the same iteration. -/
theorem Contract.settles (c : Contract region n α) (hthreads : 0 < threads) (hgood : c.good shared) {m : ℕ}
    (hsteps : Steps (Step region) m (start n own shared) s) :
    (∃ t rest, 3 * n + threads = m + rest ∧ Steps (Step region) rest s t ∧ Stuck (Step region) t) ∧
      (Stuck (Step region) s → Finished c own shared s) ∧
      ∀ r q i, i ∈ (s.thread r).taken → i ∈ (s.thread q).taken → r = q := by
  have haccounts : Accounted c own shared s :=
    hsteps.preserves (fun _ _ h hstep => h.step hstep) (accounted_start hgood)
  refine ⟨?_, fun hstuck => ?_, fun r q i hr hq => haccounts.exclusive hr hq⟩
  · obtain ⟨t, hrest, hstuck⟩ := haccounts.complete hthreads
    have hweight : (start n own shared : Team τ σ ε threads).weight = 3 * n + threads := by
      simp [start, Team.weight, Thread.weight]
    have hrun := steps_weight hsteps
    exact ⟨t, s.weight, by omega, hrest, hstuck⟩
  · exact haccounts.finished hthreads ((stuck_iff_left haccounts).mp hstuck)

end Invariant

section Slots

variable {β : Type*} (f : ℕ → Option β)

/-- An iteration that writes to its own entry of a vector, or nowhere. -/
def setSlot (slots : List β) (i : ℕ) : List β :=
  match f i with
  | some x => slots.set i x
  | none => slots

@[simp] theorem length_setSlot (slots : List β) (i : ℕ) : (setSlot f slots i).length = slots.length := by
  unfold setSlot
  split
  · exact List.length_set
  · rfl

/-- Iterations write to different entries, so their order does not show. -/
theorem setSlot_comm (slots : List β) (i j : ℕ) :
    setSlot f (setSlot f slots i) j = setSlot f (setSlot f slots j) i := by
  by_cases hij : i = j
  · rw [hij]
  · unfold setSlot
    cases f i with
    | none => rfl
    | some x =>
      cases f j with
      | none => rfl
      | some y => exact List.set_comm x y hij

theorem foldl_setSlot (n : ℕ) (fill : β) :
    (List.range n).foldl (setSlot f) (List.replicate n fill) = (List.range n).map fun i => (f i).getD fill := by
  have hprefix (done : ℕ) : done ≤ n → (List.range done).foldl (setSlot f) (List.replicate n fill) =
      ((List.range done).map fun i => (f i).getD fill) ++ List.replicate (n - done) fill := by
    induction done with
    | zero => simp
    | succ done ih =>
      intro hdone
      rw [List.range_succ, List.foldl_append, ih (by omega), List.foldl_cons, List.foldl_nil, List.map_append,
        List.append_assoc, (by omega : n - done = (n - (done + 1)) + 1), List.replicate_succ]
      unfold setSlot
      cases h : f done with
      | none => simp [h]
      | some x => simp [h]
  simpa using hprefix n (Nat.le_refl n)

end Slots

end work_sharing
