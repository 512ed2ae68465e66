import SpellChecker.Data.Interleaving

open interleaving

namespace collective

variable {Op : Type*} {Payload : Op → Type*} {α : Type*} {n : ℕ}

/-- A member of a group that communicates by collective calls alone: it has
    ended, or it hands its contribution to the next call and goes on with the
    contributions the call hands back, in the order of the members. -/
inductive Process (Payload : Op → Type*) (α : Type*) where
  | stop (outcome : α)
  | call (op : Op) (contribution : Payload op) (resume : List (Payload op) → Process Payload α)

/-- Which members a call waits for: at least those whose contributions it
    hands back, and otherwise whichever the implementation likes. -/
structure Waiting (reads : Op → Fin n → Fin n → Bool) where
  waits : Op → Fin n → Fin n → Bool
  covers : ∀ op r q, reads op r q = true → waits op r q = true

/-- An implementation that waits for nothing but the data. -/
def Waiting.least (reads : Op → Fin n → Fin n → Bool) : Waiting reads := ⟨reads, fun _ _ _ h => h⟩

/-- A member during a run: what is left to do, whether it is inside the next
    call, and the calls it has entered so far. The calls of a group match by
    their position. -/
structure Member (Payload : Op → Type*) (α : Type*) where
  process : Process Payload α
  inside : Bool
  calls : List (Sigma Payload)

/-- The member is inside a call of `op`. -/
def Member.InsideCall (x : Member Payload α) (op : Op) : Prop :=
  x.inside = true ∧ ∃ contribution resume, x.process = .call op contribution resume

/-- All members before their first call. -/
def start (p : Fin n → Process Payload α) : Fin n → Member Payload α := fun r => ⟨p r, false, []⟩

/-- The contributions a completed call hands back to member `r`. -/
def handedBack (reads : Op → Fin n → Fin n → Bool) (op : Op) (contribution : Fin n → Payload op) (r : Fin n) :
    List (Payload op) :=
  ((List.finRange n).filter (reads op r)).map contribution

variable [DecidableEq Op]

/-- What a member with these calls contributed to its call at position `i`, if
    that is a call of `op`. -/
def contributed (op : Op) (calls : List (Sigma Payload)) (i : ℕ) : Option (Payload op) :=
  calls[i]?.bind fun call => if h : call.1 = op then some (h ▸ call.2) else none

/-- The position of the call a member is inside of. -/
def Member.position (x : Member Payload α) : ℕ := x.calls.length - 1

/-- All members that `r` waits for in its call of `op` have entered theirs. -/
def Ready {reads : Op → Fin n → Fin n → Bool} (waiting : Waiting reads) (s : Fin n → Member Payload α) (r : Fin n)
    (op : Op) : Prop :=
  ∀ q, waiting.waits op r q = true → (contributed op (s q).calls (s r).position).isSome

instance {reads : Op → Fin n → Fin n → Bool} (waiting : Waiting reads) (s : Fin n → Member Payload α) (r : Fin n)
    (op : Op) : Decidable (Ready waiting s r op) :=
  inferInstanceAs (Decidable (∀ _, _))

/-- What the call of `op` hands back to `r`. -/
def received (reads : Op → Fin n → Fin n → Bool) (s : Fin n → Member Payload α) (r : Fin n) (op : Op) :
    List (Payload op) :=
  (List.finRange n).filterMap fun q =>
    if reads op r q = true then contributed op (s q).calls (s r).position else none

/-- One move of member `r`: into its next call, or out of it when all members it
    waits for have entered theirs. -/
def move {reads : Op → Fin n → Fin n → Bool} (waiting : Waiting reads) (s : Fin n → Member Payload α) (r : Fin n) :
    Option (Member Payload α) :=
  match (s r).process with
  | .stop _ => none
  | .call op contribution resume =>
    if (s r).inside = true then
      if Ready waiting s r op then some ⟨resume (received reads s r op), false, (s r).calls⟩ else none
    else some ⟨.call op contribution resume, true, (s r).calls ++ [⟨op, contribution⟩]⟩

/-- A step of the group. -/
abbrev GroupStep {reads : Op → Fin n → Fin n → Bool} (waiting : Waiting reads) :
    (Fin n → Member Payload α) → (Fin n → Member Payload α) → Prop :=
  PartyStep (move waiting)

section Confluence

theorem contributed_append {op : Op} {calls : List (Sigma Payload)} {i : ℕ} {m : Payload op}
    (h : contributed op calls i = some m) (more : List (Sigma Payload)) :
    contributed op (calls ++ more) i = some m := by
  obtain ⟨call, hcall, hm⟩ := Option.bind_eq_some_iff.mp h
  have hi := (List.getElem?_eq_some_iff.mp hcall).1
  rw [contributed, List.getElem?_append_left hi, hcall]
  exact hm

@[simp] theorem contributed_last (calls : List (Sigma Payload)) (op : Op) (m : Payload op) :
    contributed op (calls ++ [⟨op, m⟩]) calls.length = some m := by
  simp [contributed]

variable {reads : Op → Fin n → Fin n → Bool} {waiting : Waiting reads} {s t : Fin n → Member Payload α}

/-- What a move can be. -/
theorem move_eq_some_iff {r : Fin n} {x : Member Payload α} : move waiting s r = some x ↔
    ∃ op contribution resume, (s r).process = .call op contribution resume ∧
      ((s r).inside = false ∧ x = ⟨.call op contribution resume, true, (s r).calls ++ [⟨op, contribution⟩]⟩ ∨
        (s r).inside = true ∧ Ready waiting s r op ∧ x = ⟨resume (received reads s r op), false, (s r).calls⟩) := by
  rw [move]
  cases hprocess : (s r).process with
  | stop outcome => simp
  | call op contribution resume =>
    constructor
    · intro h
      refine ⟨op, contribution, resume, rfl, ?_⟩
      cases hinside : (s r).inside with
      | false => exact .inl ⟨rfl, by simpa [hinside, eq_comm] using h⟩
      | true =>
        by_cases hready : Ready waiting s r op
        · exact .inr ⟨rfl, hready, by simpa [hinside, hready, eq_comm] using h⟩
        · simp [hinside, hready] at h
    · rintro ⟨op', contribution', resume', heq, h⟩
      cases heq
      rcases h with ⟨hinside, rfl⟩ | ⟨hinside, hready, rfl⟩
      · simp [hinside]
      · simp [hinside, hready]

/-- A member that has ended stays as it is. -/
theorem move_stop {r : Fin n} {outcome : α} (h : (s r).process = .stop outcome) : move waiting s r = none := by
  rw [move, h]

/-- A member forgets no call it has entered. -/
theorem move_calls {r : Fin n} {x : Member Payload α} (h : move waiting s r = some x) :
    ∃ more, x.calls = (s r).calls ++ more := by
  obtain ⟨op, contribution, resume, -, ⟨-, rfl⟩ | ⟨-, -, rfl⟩⟩ := move_eq_some_iff.mp h
  · exact ⟨_, rfl⟩
  · exact ⟨[], (List.append_nil _).symm⟩

/-- What a ready member waits for stays as it is when another member moves. -/
theorem Ready.update {r q : Fin n} {op : Op} (h : Ready waiting s q op) (hne : r ≠ q) {x : Member Payload α}
    (hx : ∃ more, x.calls = (s r).calls ++ more) :
    Ready waiting (Function.update s r x) q op ∧
      received reads (Function.update s r x) q op = received reads s q op := by
  have hself : Function.update s r x q = s q := Function.update_of_ne (Ne.symm hne) x s
  have hkeeps (p : Fin n) (hp : waiting.waits op q p = true) :
      contributed op (Function.update s r x p).calls (s q).position = contributed op (s p).calls (s q).position := by
    by_cases hpr : p = r
    · subst hpr
      obtain ⟨more, hmore⟩ := hx
      obtain ⟨m, hm⟩ := Option.isSome_iff_exists.mp (h p hp)
      rw [Function.update_self, hmore, hm]
      exact contributed_append hm more
    · rw [Function.update_of_ne hpr]
  constructor
  · intro p hp
    rw [hself, hkeeps p hp]
    exact h p hp
  · rw [received, received, hself]
    apply List.filterMap_congr
    intro p _
    split
    · rename_i hreads
      exact hkeeps p (waiting.covers op q p hreads)
    · rfl

/-- Whether and how a member moves is settled by what the others have entered
    already, and they forget none of it. -/
theorem move_independent (waiting : Waiting reads) : Independent (@move Op Payload α n _ reads waiting) := by
  intro s r q x y hne hr hq
  have hself : Function.update s r x q = s q := Function.update_of_ne (Ne.symm hne) x s
  obtain ⟨op, contribution, resume, hprocess, hmove⟩ := move_eq_some_iff.mp hq
  rw [move_eq_some_iff, hself]
  refine ⟨op, contribution, resume, hprocess, hmove.imp id ?_⟩
  rintro ⟨hinside, hready, rfl⟩
  obtain ⟨hready', hreceived⟩ := hready.update hne (move_calls hr)
  exact ⟨hinside, hready', by rw [hreceived]⟩

/-- Groups that communicate by collective calls alone have the diamond property. -/
theorem groupStep_diamond (waiting : Waiting reads) : Diamond (@GroupStep Op Payload α n _ reads waiting) :=
  (move_independent waiting).diamond

theorem stop_of_steps {m : ℕ} (h : Steps (GroupStep waiting) m s t) {r : Fin n} {outcome : α}
    (hr : (s r).process = .stop outcome) : (t r).process = .stop outcome := by
  refine h.preserves (p := fun s => (s r).process = .stop outcome) ?_ hr
  rintro s t hs ⟨q, x, hmove, rfl⟩
  by_cases hq : q = r
  · subst hq
    rw [move_stop hs] at hmove
    cases hmove
  · rwa [Function.update_of_ne (Ne.symm hq)]

end Confluence

section Ends

variable {reads : Op → Fin n → Fin n → Bool} {s : Fin n → Member Payload α}

/-- What a call can make of a process. -/
inductive Resumed : Process Payload α → Process Payload α → Prop where
  | resume {op : Op} {contribution : Payload op} (resume : List (Payload op) → Process Payload α)
      (received : List (Payload op)) : Resumed (resume received) (.call op contribution resume)

omit [DecidableEq Op] in
theorem resumed_wellFounded : WellFounded (@Resumed Op Payload α) := by
  refine ⟨fun p => ?_⟩
  induction p with
  | stop outcome => exact ⟨_, fun q hq => nomatch hq⟩
  | call op contribution resume ih =>
    refine ⟨_, fun q hq => ?_⟩
    cases hq with
    | resume _ received => exact ih received

/-- A member that has moved: it has entered its call, or its call has returned. -/
def Moved : Member Payload α → Member Payload α → Prop :=
  InvImage (Prod.Lex Resumed fun entered outside => entered = true ∧ outside = false)
    fun x => (x.process, x.inside)

omit [DecidableEq Op] in
theorem moved_wellFounded : WellFounded (@Moved Op Payload α) := by
  refine InvImage.wf _ (resumed_wellFounded.prod_lex ⟨fun b => ?_⟩)
  have htrue : Acc (fun entered outside : Bool => entered = true ∧ outside = false) true :=
    ⟨_, fun c hc => nomatch hc.2⟩
  cases b with
  | true => exact htrue
  | false =>
    refine ⟨_, fun c hc => ?_⟩
    rw [hc.1]
    exact htrue

/-- Every run of the group comes to a state without a way on. -/
theorem groupStep_wellFounded (waiting : Waiting reads) :
    WellFounded fun t s : Fin n → Member Payload α => GroupStep waiting s t := by
  apply partyStep_wellFounded moved_wellFounded
  intro s r x hmove
  obtain ⟨op, contribution, resume, hprocess, ⟨hinside, rfl⟩ | ⟨-, -, rfl⟩⟩ := move_eq_some_iff.mp hmove
  · rw [Moved, InvImage, hprocess, hinside]
    exact .right _ ⟨rfl, rfl⟩
  · rw [Moved, InvImage, hprocess]
    exact .left _ _ (.resume resume _)

end Ends

section Lockstep

/-- The members stand between two calls, all at the same one. -/
structure Together (s : Fin n → Member Payload α) (i : ℕ) (p : Fin n → Process Payload α) : Prop where
  process : ∀ r, (s r).process = p r
  outside : ∀ r, (s r).inside = false
  calls : ∀ r, (s r).calls.length = i

omit [DecidableEq Op] in
theorem together_start (p : Fin n → Process Payload α) : Together (start p) 0 p :=
  ⟨fun _ => rfl, fun _ => rfl, fun _ => rfl⟩

variable {reads : Op → Fin n → Fin n → Bool} {waiting : Waiting reads} {s t : Fin n → Member Payload α} {i k : ℕ}
  {op : Op} {contribution : Fin n → Payload op} {resume : Fin n → List (Payload op) → Process Payload α}

theorem received_eq_handedBack {r : Fin n}
    (h : ∀ q, contributed op (s q).calls (s r).position = some (contribution q)) :
    received reads s r op = handedBack reads op contribution r := by
  unfold received handedBack
  generalize List.finRange n = members
  induction members with
  | nil => rfl
  | cons q members ih =>
    by_cases hq : reads op r q = true
    · simp [hq, h q, ih]
    · simp [hq, ih]

/-- All members enter the same call, one after the other, and then leave it. -/
theorem Together.round (waiting : Waiting reads) (h : Together s i fun r => .call op (contribution r) (resume r)) :
    ∃ t, Steps (GroupStep waiting) (n + n) s t ∧
      Together t (i + 1) fun r => resume r (handedBack reads op contribution r) := by
  obtain ⟨hprocess, houtside, hcalls⟩ := h
  let log (r : Fin n) : List (Sigma Payload) := (s r).calls ++ [⟨op, contribution r⟩]
  let entered (r : Fin n) : Member Payload α := ⟨.call op (contribution r) (resume r), true, log r⟩
  let left (r : Fin n) : Member Payload α := ⟨resume r (handedBack reads op contribution r), false, log r⟩
  have henter : Steps (GroupStep waiting) n s entered := by
    apply steps_sweep_all
    intro r now hr _
    rw [move_eq_some_iff, hr]
    exact ⟨op, contribution r, resume r, hprocess r, .inl ⟨houtside r, rfl⟩⟩
  have hleave : Steps (GroupStep waiting) n entered left := by
    apply steps_sweep_all
    intro r now hr hnow
    have hlog (q : Fin n) : (now q).calls = log q := by
      cases hnow q with
      | inl hq => rw [hq]
      | inr hq => rw [hq]
    have hposted (q : Fin n) : contributed op (now q).calls (now r).position = some (contribution q) := by
      have hposition : (now r).position = (s q).calls.length := by
        rw [Member.position, hlog, List.length_append, hcalls, hcalls]
        rfl
      rw [hposition, hlog]
      exact contributed_last _ op _
    rw [move_eq_some_iff]
    refine ⟨op, contribution r, resume r, by rw [hr], .inr ⟨by rw [hr], fun q _ => by rw [hposted]; rfl, ?_⟩⟩
    rw [received_eq_handedBack hposted, hlog]
  exact ⟨left, henter.trans hleave, fun _ => rfl, fun _ => rfl, fun r => by simp [left, log, hcalls]⟩

/-- Members that stand at one place can get to another one together, by `k` calls. -/
def Advances (waiting : Waiting reads) (k : ℕ) (p p' : Fin n → Process Payload α) : Prop :=
  ∀ s i, Together s i p → ∃ t j, Steps (GroupStep waiting) (k * (n + n)) s t ∧ Together t j p'

theorem Advances.refl (p : Fin n → Process Payload α) : Advances waiting 0 p p := by
  intro s i h
  rw [Nat.zero_mul]
  exact ⟨s, i, .refl s, h⟩

/-- A call that all members make, followed by whatever they do next. -/
theorem Advances.call {p' : Fin n → Process Payload α}
    (h : Advances waiting k (fun r => resume r (handedBack reads op contribution r)) p') :
    Advances waiting (k + 1) (fun r => .call op (contribution r) (resume r)) p' := by
  intro s i hs
  obtain ⟨mid, hround, hmid⟩ := hs.round waiting
  obtain ⟨t, j, hrest, ht⟩ := h mid _ hmid
  rw [Nat.succ_mul, Nat.add_comm]
  exact ⟨t, j, hround.trans hrest, ht⟩

/-- When all members can get to their ends together, every run gets there: it
    can be continued to these ends and is never longer, and who has ended, has
    ended so. -/
theorem Advances.settles {p : Fin n → Process Payload α} {outcome : Fin n → α}
    (h : Advances waiting k p fun r => .stop (outcome r)) {m : ℕ} (hrun : Steps (GroupStep waiting) m (start p) s) :
    (∃ t rest, k * (n + n) = m + rest ∧ Steps (GroupStep waiting) rest s t ∧
        ∀ r, (t r).process = .stop (outcome r)) ∧
      (Stuck (GroupStep waiting) s → ∀ r, (s r).process = .stop (outcome r)) ∧
      ∀ r x, (s r).process = .stop x → x = outcome r := by
  obtain ⟨t, j, hfull, ht⟩ := h _ _ (together_start p)
  have hstuck : Stuck (GroupStep waiting) t := stuck_iff.mpr fun r => move_stop (ht.process r)
  obtain ⟨rest, hk, hrest⟩ := (groupStep_diamond waiting).complete hfull hstuck hrun
  refine ⟨⟨t, rest, hk, hrest, ht.process⟩, fun hs => ?_, fun r x hx => ?_⟩
  · rw [(groupStep_diamond waiting).eq_of_stuck hfull hstuck hrun hs]
    exact ht.process
  · have hend := stop_of_steps hrest hx
    rw [ht.process r] at hend
    exact (Process.stop.inj hend).symm

/-- Who has ended where members can get to together, ends so in every run. -/
theorem Advances.ended {p p' : Fin n → Process Payload α} (h : Advances waiting k p p') {r : Fin n} {outcome : α}
    (hr : p' r = .stop outcome) {m : ℕ} (hrun : Steps (GroupStep waiting) m (start p) s) :
    (Stuck (GroupStep waiting) s → (s r).process = .stop outcome) ∧
      ∀ x, (s r).process = .stop x → x = outcome := by
  obtain ⟨mid, j, hfirst, hmid⟩ := h _ _ (together_start p)
  have hended : (mid r).process = .stop outcome := (hmid.process r).trans hr
  constructor
  · intro hstuck
    obtain ⟨rest, hrest⟩ := (groupStep_diamond waiting).passes hfirst hrun hstuck
    exact stop_of_steps hrest hended
  · intro x hx
    obtain ⟨v, _, _, hmeet, hmeet'⟩ := (groupStep_diamond waiting).meet hfirst hrun
    have hend := stop_of_steps hmeet' hx
    rw [stop_of_steps hmeet hended] at hend
    exact (Process.stop.inj hend).symm

end Lockstep

section Tails

variable {reads : Op → Fin n → Fin n → Bool} {waiting : Waiting reads} {s t : Fin n → Member Payload α} {i k : ℕ}
  {outcome gone : α} {ops : List Op} {r q : Fin n}

/-- A member that has these calls left, uses nothing that they hand back, and then
    ends. -/
inductive Tail (outcome : α) : List Op → Process Payload α → Prop where
  | stop : Tail outcome [] (.stop outcome)
  | call {op : Op} {ops : List Op} {contribution : Payload op} {resume : List (Payload op) → Process Payload α}
      (hresume : ∀ received, Tail outcome ops (resume received)) :
      Tail outcome (op :: ops) (.call op contribution resume)

/-- Member `q` has ended after its first `i` calls. Member `r` has made as many
    calls, and of the calls `ops` behind them it has got past those only that do not
    wait for `q`. -/
structure InTail (waiting : Waiting reads) (r q : Fin n) (i : ℕ) (outcome gone : α) (ops : List Op)
    (s : Fin n → Member Payload α) : Prop where
  ended : (s q).process = .stop gone
  entered : (s q).calls.length ≤ i
  behind : i ≤ (s r).calls.length
  inside : (s r).inside = true → i < (s r).calls.length
  rest : ∃ rest ⊆ ops, Tail outcome rest (s r).process ∧ ∀ op ∈ ops, op ∈ rest ∨ waiting.waits op r q = false

/-- A call that waits for a member without a further call is not ready. -/
theorem InTail.waits_eq_false (h : InTail waiting r q i outcome gone ops s) {op : Op} (hinside : (s r).inside = true)
    (hready : Ready waiting s r op) : waiting.waits op r q = false := by
  rw [← Bool.not_eq_true]
  intro hwaits
  have hposted := hready q hwaits
  have hposition : (s q).calls.length ≤ (s r).position := by
    have hentered := h.entered
    have hbehind := h.inside hinside
    rw [Member.position]
    omega
  rw [contributed, List.getElem?_eq_none hposition] at hposted
  cases hposted

omit [DecidableEq Op] in
/-- Member `r` may become another one that has made as many calls. -/
theorem InTail.update (h : InTail waiting r q i outcome gone ops s) (hne : q ≠ r) {x : Member Payload α}
    (hbehind : i ≤ x.calls.length) (hinside : x.inside = true → i < x.calls.length)
    (hrest : ∃ rest ⊆ ops, Tail outcome rest x.process ∧ ∀ op ∈ ops, op ∈ rest ∨ waiting.waits op r q = false) :
    InTail waiting r q i outcome gone ops (Function.update s r x) := by
  have hsame : Function.update s r x q = s q := Function.update_of_ne hne x s
  have hself : Function.update s r x r = x := Function.update_self r x s
  refine ⟨?_, ?_, ?_, ?_, ?_⟩
  · rw [hsame]
    exact h.ended
  · rw [hsame]
    exact h.entered
  · rw [hself]
    exact hbehind
  · rw [hself]
    exact hinside
  · rw [hself]
    exact hrest

theorem InTail.step (h : InTail waiting r q i outcome gone ops s) (hstep : GroupStep waiting s t) :
    InTail waiting r q i outcome gone ops t := by
  obtain ⟨mover, x, hmove, rfl⟩ := hstep
  have hq : q ≠ mover := by
    rintro rfl
    rw [move_stop h.ended] at hmove
    cases hmove
  by_cases hr : r = mover
  · subst hr
    obtain ⟨rest, hsub, htail, hpast⟩ := h.rest
    obtain ⟨op, contribution, resume, hprocess, hx⟩ := move_eq_some_iff.mp hmove
    rw [hprocess] at htail
    cases htail with
    | @call _ rest' _ _ hresume =>
      rcases hx with ⟨-, rfl⟩ | ⟨hinside, hready, rfl⟩
      · have hlonger : i < ((s r).calls ++ [(⟨op, contribution⟩ : Sigma Payload)]).length := by
          rw [List.length_append]
          exact Nat.lt_succ_of_le h.behind
        exact h.update hq hlonger.le (fun _ => hlonger) ⟨_, hsub, .call hresume, hpast⟩
      · refine h.update hq h.behind (fun houtside => nomatch houtside)
          ⟨rest', (List.cons_subset.mp hsub).2, hresume _, fun other hother => ?_⟩
        rcases hpast other hother with hleft | hfree
        · rcases List.mem_cons.mp hleft with rfl | hleft
          · exact .inr (h.waits_eq_false hinside hready)
          · exact .inl hleft
        · exact .inr hfree
  · have hqsame : Function.update s mover x q = s q := Function.update_of_ne hq x s
    have hrsame : Function.update s mover x r = s r := Function.update_of_ne hr x s
    obtain ⟨hended, hentered, hbehind, hinside, hrest⟩ := h
    exact ⟨by rwa [hqsame], by rwa [hqsame], by rwa [hrsame], by rwa [hrsame], by rwa [hrsame]⟩

/-- Where members can get to together, one has ended and another has a tail of
    calls left. In a run that can go no further the latter is inside one of them,
    or it has ended, and none of them waits for the former. -/
theorem Advances.tail {p p' : Fin n → Process Payload α} (h : Advances waiting k p p') (hr : Tail outcome ops (p' r))
    (hq : p' q = .stop gone) {m : ℕ} (hrun : Steps (GroupStep waiting) m (start p) s)
    (hstuck : Stuck (GroupStep waiting) s) :
    (∃ op ∈ ops, (s r).InsideCall op) ∨
      (s r).process = .stop outcome ∧ ∀ op ∈ ops, waiting.waits op r q = false := by
  obtain ⟨mid, j, hfirst, hmid⟩ := h _ _ (together_start p)
  obtain ⟨rest, hrest⟩ := (groupStep_diamond waiting).passes hfirst hrun hstuck
  have hbegin : InTail waiting r q j outcome gone ops mid :=
    ⟨(hmid.process q).trans hq, (hmid.calls q).le, (hmid.calls r).ge, fun hin => by simp [hmid.outside r] at hin,
      ops, List.Subset.refl _, hmid.process r ▸ hr, fun op hop => .inl hop⟩
  have hend : InTail waiting r q j outcome gone ops s := hrest.preserves (fun s t hs => hs.step) hbegin
  obtain ⟨left, hsub, htail, hpast⟩ := hend.rest
  generalize hprocess : (s r).process = process at htail
  cases htail with
  | stop => exact .inr ⟨rfl, fun op hop => (hpast op hop).resolve_left (List.not_mem_nil)⟩
  | @call op _ contribution resume hresume =>
    refine .inl ⟨op, hsub List.mem_cons_self, ?_, contribution, resume, hprocess⟩
    -- Outside its call, the member could enter it.
    by_contra houtside
    have hmove := stuck_iff.mp hstuck r
    rw [move, hprocess] at hmove
    simp [houtside] at hmove

end Tails

section Blocked

variable {reads : Op → Fin n → Fin n → Bool} {waiting : Waiting reads} {s : Fin n → Member Payload α} {i k : ℕ}

/-- Some members have ended, and all others come to a call that hands them back
    a contribution of one that has. -/
structure Blocked (reads : Op → Fin n → Fin n → Bool) (op : Op) (ended : Fin n → Bool)
    (p : Fin n → Process Payload α) : Prop where
  stop : ∀ r, ended r = true → ∃ outcome, p r = .stop outcome
  call : ∀ r, ended r = false → ∃ contribution resume, p r = .call op contribution resume
  missing : ∀ r, ended r = false → ∃ q, reads op r q = true ∧ ended q = true

/-- Members that stand at a blocked place enter the call, unless they have ended, and
    stay inside it. -/
theorem Together.block (waiting : Waiting reads) {op : Op} {ended : Fin n → Bool} {p : Fin n → Process Payload α}
    (h : Together s i p) (hblocked : Blocked reads op ended p) :
    ∃ t m, m ≤ n ∧ Steps (GroupStep waiting) m s t ∧ Stuck (GroupStep waiting) t ∧
      (∀ r, (t r).process = p r) ∧ ∀ r, ended r = false → (t r).inside = true := by
  obtain ⟨hprocess, houtside, hcalls⟩ := h
  choose contribution resume hcall using hblocked.call
  let entered (r : Fin n) : Member Payload α :=
    if hr : ended r = false then
      ⟨.call op (contribution r hr) (resume r hr), true, (s r).calls ++ [⟨op, contribution r hr⟩]⟩
    else s r
  let movers := (List.finRange n).filter fun r => !ended r
  have hmovers (r : Fin n) : r ∈ movers ↔ ended r = false := by simp [movers]
  have hrun : Steps (GroupStep waiting) movers.length s fun r => if r ∈ movers then entered r else s r := by
    apply steps_sweep movers ((List.nodup_finRange n).filter _)
    intro r hr now hnow _
    have hr := (hmovers r).mp hr
    rw [move_eq_some_iff, hnow]
    refine ⟨op, contribution r hr, resume r hr, by rw [hprocess, hcall r hr], .inl ⟨houtside r, ?_⟩⟩
    simp only [entered, dif_pos hr]
  have hafter : (fun r => if r ∈ movers then entered r else s r) = entered := by
    funext r
    by_cases hr : ended r = false
    · rw [if_pos ((hmovers r).mpr hr)]
    · rw [if_neg fun hmem => hr ((hmovers r).mp hmem)]
      simp only [entered, dif_neg hr]
  rw [hafter] at hrun
  refine ⟨entered, movers.length, ?_, hrun, stuck_iff.mpr fun r => ?_, fun r => ?_, fun r hr => ?_⟩
  · simpa using List.length_filter_le (fun r => !ended r) (List.finRange n)
  · by_cases hr : ended r = false
    · obtain ⟨q, hreads, hq⟩ := hblocked.missing r hr
      -- The call at position `i` is one that member `q` never enters.
      have hnone : contributed op (entered q).calls (entered r).position = none := by
        have hposition : (entered r).position = i := by simp [entered, hr, Member.position, hcalls]
        have hlog : (entered q).calls = (s q).calls := by simp [entered, hq]
        rw [hposition, hlog, contributed, List.getElem?_eq_none (hcalls q).le]
        rfl
      rw [← Option.not_isSome_iff_eq_none, Option.isSome_iff_exists]
      rintro ⟨x, hx⟩
      obtain ⟨op', _, _, hprocess', ⟨hout, -⟩ | ⟨-, hready, -⟩⟩ := move_eq_some_iff.mp hx
      · simp [entered, hr] at hout
      · simp only [entered, dif_pos hr, Process.call.injEq] at hprocess'
        obtain ⟨rfl, -⟩ := hprocess'
        have hmissing := hready q (waiting.covers op r q hreads)
        rw [hnone] at hmissing
        cases hmissing
    · obtain ⟨outcome, hstop⟩ := hblocked.stop r (by simpa using hr)
      have hended : (entered r).process = .stop outcome := by simp only [entered, dif_neg hr, hprocess, hstop]
      exact move_stop hended
  · by_cases hr : ended r = false
    · simp only [entered, dif_pos hr, hcall r hr]
    · simp only [entered, dif_neg hr, hprocess]
  · simp only [entered, dif_pos hr]

/-- When members can get to a blocked place together, every run ends up there:
    nobody gets past the call. -/
theorem Advances.blocks {op : Op} {ended : Fin n → Bool} {p p' : Fin n → Process Payload α}
    (h : Advances waiting k p p') (hblocked : Blocked reads op ended p') {m : ℕ}
    (hrun : Steps (GroupStep waiting) m (start p) s) :
    (∃ t rest, m + rest ≤ k * (n + n) + n ∧ Steps (GroupStep waiting) rest s t ∧ Stuck (GroupStep waiting) t) ∧
      (Stuck (GroupStep waiting) s → ∀ r, (s r).process = p' r ∧ (ended r = false → (s r).InsideCall op)) ∧
      ∀ r x, (s r).process = .stop x → ended r = true ∧ p' r = .stop x := by
  obtain ⟨mid, j, hfirst, hmid⟩ := h _ _ (together_start p)
  obtain ⟨t, last, hlast, hsecond, hstuck, hprocess, hinside⟩ := hmid.block waiting hblocked
  have hfull := hfirst.trans hsecond
  obtain ⟨rest, hk, hrest⟩ := (groupStep_diamond waiting).complete hfull hstuck hrun
  refine ⟨⟨t, rest, by omega, hrest, hstuck⟩, fun hs r => ?_, fun r x hx => ?_⟩
  · rw [(groupStep_diamond waiting).eq_of_stuck hfull hstuck hrun hs]
    refine ⟨hprocess r, fun hr => ⟨hinside r hr, ?_⟩⟩
    rw [hprocess r]
    exact hblocked.call r hr
  · have hend := stop_of_steps hrest hx
    rw [hprocess r] at hend
    refine ⟨?_, hend⟩
    cases hended : ended r with
    | true => rfl
    | false =>
      obtain ⟨contribution, resume, hcall⟩ := hblocked.call r hended
      rw [hcall] at hend
      cases hend

end Blocked

end collective
