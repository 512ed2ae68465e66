import SpellChecker.BKTree.Heap
import SpellChecker.Candidates.Passes
import SpellChecker.Candidates.Save
import SpellChecker.Data.WorkSharing
import SpellChecker.Dictionary.Candidates

open comparator interleaving linked_tree work_sharing
open spellcheck.bk_tree spellcheck.dictionary spellcheck.edit_distance

namespace spellcheck.candidates

/-- A dictionary with the nodes of its tree in memory. -/
structure PlacedDictionary extends Dictionary where
  heap : Heap Int Word
  root : ℕ
  holds : Holds heap root bk_tree.root

/-- The dictionary as `BuildBKTree` leaves it, with the nodes its `AddNode` calls have put into memory. -/
theorem exists_placed {order : HashOrder} {root_len : ℕ} {before after : Dictionary}
    (hbuild : before.BuildBKTree order root_len = (.ok (), after)) (dp : Table) :
    ∃ (d : PlacedDictionary) (root_word : Word) (dp' : Table), d.toDictionary = after ∧
      ∀ fuel, (order.orig before.orig).length < fuel → runMemory fuel d.root [] [⟨root_word, []⟩] dp
        ((order.orig before.orig).map .AddNode) = .ok (some ([], d.heap, dp')) := by
  rw [Dictionary.BuildBKTree] at hbuild
  split at hbuild
  · cases hbuild
  · rename_i root_word len_to_words hroot
    have hafter := (Prod.mk.inj hbuild).2
    obtain ⟨heap, dp', hrun, hholds⟩ :=
      runMemory_eq (BKTree.holds_new root_word) dp ((order.orig before.orig).map .AddNode) []
    rw [runTree_map_AddNode] at hrun hholds
    subst hafter
    refine ⟨⟨_, heap, 0, hholds _ rfl⟩, root_word, dp', rfl, fun fuel hfuel => hrun fuel ?_⟩
    rw [List.length_map, BKTree.length_nodes_new]
    omega

/-- The words of the list can be looked up: the tree was built, and all words of
    the dictionary and of the list are short. -/
structure PlacedDictionary.Serves (d : PlacedDictionary) (word_list : WordList) : Prop where
  built : d.Built
  orig_short : ∀ w ∈ d.orig, Short w
  words_short : ∀ w ∈ word_list.words, Short w

/-- The built dictionary of `2` and `3`, for a list with a word that is one edit
    from both. -/
theorem exists_serves_small :
    ∃ d : PlacedDictionary, d.orig = {[50], [51]} ∧ d.Serves ⟨[[49], [50]], 1⟩ := by
  have hwords : (Dictionary.new [50, 10, 51, 10]).orig = {[50], [51]} := by
    rw [Dictionary.new_orig]
    decide
  obtain ⟨root, hroot, hbuild⟩ := Dictionary.BuildBKTree_ok (Dictionary.new_valid [50, 10, 51, 10])
    (hwords ▸ Finset.insert_nonempty _ _) default 1
  obtain ⟨d, -, -, hd, -⟩ := exists_placed hbuild []
  have horig : d.orig = {[50], [51]} := (congrArg Dictionary.orig hd).trans hwords
  exact ⟨d, horig, hd ▸ Dictionary.built_withTree hroot default, by rw [horig]; decide, by decide⟩

/-- `v[i]` in a loop body. An error is a fault, or `none` for a call that does not return. -/
def fetch {α : Type} (v : List α) (i : ℕ) : Except (Option Fault) α := (vecAt v (i : ℕ)).mapError some

/-- `v[i] = x`. -/
def store {α : Type} (v : List α) (i : ℕ) (x : α) : Except (Option Fault) (List α) :=
  if i < v.length then .ok (v.set i x) else .error (some .outOfBounds)

/-- `dict.Candidates(word, &cands)` for an empty `cands`, on the table of the
    calling thread. A walk over a tree that takes more rounds than there are
    nodes in memory has no end. -/
def CandidatesOn (d : PlacedDictionary) (dp : Table) (word : Word) : Except (Option Fault) (List Word × Table) :=
  match SearchNodeOn word 2 d.heap.length d.heap dp d.root [] with
  | .ok (some (cands, dp)) => .ok (cands, dp)
  | .ok none => .error none
  | .error fault => .error (some fault)

/-- The private variables of a thread in `GetMisspelled`. -/
structure Private where
  dp : Table
  misspelled_local : Misspelled

/-- The parallel region of `GetMisspelled`. -/
def GetMisspelled.region (word_list : WordList) (d : PlacedDictionary) : Region Private Misspelled (Option Fault) where
  body i own := do
    let word ← fetch word_list.words i
    if d.Contains word then return (own, .ok)
    let (candidates, dp) ← CandidatesOn d own.dp word
    return (⟨dp, own.misspelled_local ++ [⟨word, candidates⟩]⟩, .ok)
  leave own misspelled := misspelled ++ own.misspelled_local

/-- The parallel loop of `GetPresentLocal`. -/
def GetPresentLocal.region (word_list : WordList) (d : PlacedDictionary) : Region Table (List Byte) (Option Fault) where
  body i dp := do
    let w ← fetch word_list.words i
    if d.Contains w then return (dp, fun present => store present i 1)
    return (dp, .ok)
  leave _ present := present

/-- `out.present[i] = 1`. -/
def storePresent (i : ℕ) (out : LocalMisspelled) : Except (Option Fault) LocalMisspelled := do
  return { out with present := ← store out.present i 1 }

/-- `out.local_candidates[i].swap(cands)`. -/
def storeCandidates (i : ℕ) (cands : List Word) (out : LocalMisspelled) : Except (Option Fault) LocalMisspelled := do
  return { out with local_candidates := ← store out.local_candidates i cands }

/-- The parallel loop of `GetMisspelledLocal`. -/
def GetMisspelledLocal.region (sorter : Sorter) (word_list : WordList) (d : PlacedDictionary) :
    Region Table LocalMisspelled (Option Fault) where
  body i dp := do
    let w ← fetch word_list.words i
    if d.Contains w then return (dp, storePresent i)
    let (cands, dp) ← CandidatesOn d dp w
    return (dp, storeCandidates i (sortUnique sorter cands))
  leave _ out := out

/-- The parallel loop of `GetCandidatesLocalMasked`. -/
def GetCandidatesLocalMasked.region (sorter : Sorter) (word_list : WordList) (d : PlacedDictionary)
    (present_global : List Byte) : Region Table LocalMisspelled (Option Fault) where
  body i dp := do
    let present ← fetch present_global i
    if present ≠ 0 then return (dp, .ok)
    let w ← fetch word_list.words i
    let (cands, dp) ← CandidatesOn d dp w
    return (dp, storeCandidates i (sortUnique sorter cands))
  leave _ out := out

theorem fetch_of_getElem? {α : Type} {v : List α} {i : ℕ} {x : α} (h : v[i]? = some x) : fetch v i = .ok x := by
  rw [fetch, vecAt_of_getElem? h]
  rfl

theorem store_of_lt {α : Type} {v : List α} {i : ℕ} (h : i < v.length) (x : α) : store v i x = .ok (v.set i x) :=
  if_pos h

/-- The table of the thread and the places of the nodes do not show. -/
theorem CandidatesOn_eq {word_list : WordList} {d : PlacedDictionary} (h : d.Serves word_list) (dp : Table)
    {word : Word} (hword : word ∈ word_list.words) :
    ∃ dp', CandidatesOn d dp word = .ok (d.Candidates word [], dp') := by
  obtain ⟨dp', hsearch⟩ := SearchNodeOn_eq word 2 d.holds dp []
  have hfound := h.built.search h.orig_short (h.words_short word hword) []
  rw [hfound] at hsearch
  refine ⟨dp', ?_⟩
  rw [CandidatesOn, hsearch _ d.holds.length_le, Dictionary.Candidates, hfound]
  rfl

section Loops

variable (sorter : Sorter) (word_list : WordList) (d : PlacedDictionary)

/-- The line `GetMisspelled` pushes for an index, if any. -/
def lineAt (i : ℕ) : Option Line := word_list.words[i]?.bind (misspelledLine d.toDictionary)

variable {word_list d} (hserves : d.Serves word_list)

def GetMisspelled.contract : Contract (GetMisspelled.region word_list d) word_list.words.length Misspelled where
  good _ := True
  view own := own.misspelled_local
  extend lines i := lines ++ (lineAt word_list d i).toList
  commit misspelled _ := misspelled
  merge misspelled lines := misspelled ++ lines
  body i hi own := by
    obtain ⟨word, hword⟩ : ∃ word, word_list.words[i]? = some word := ⟨_, List.getElem?_eq_getElem hi⟩
    have hline : lineAt word_list d i = misspelledLine d.toDictionary word := by rw [lineAt, hword, Option.bind_some]
    simp only [GetMisspelled.region, fetch_of_getElem? hword, loop.bind_ok]
    by_cases hcontains : d.Contains word = true
    · exact ⟨own, .ok, if_pos hcontains, by simp [hline, misspelledLine, hcontains], fun _ _ => rfl⟩
    · obtain ⟨dp', hcandidates⟩ := CandidatesOn_eq hserves own.dp (List.mem_of_getElem? hword)
      refine ⟨⟨dp', own.misspelled_local ++ [⟨word, d.Candidates word []⟩]⟩, .ok, ?_, ?_, fun _ _ => rfl⟩
      · rw [if_neg hcontains, hcandidates]
        rfl
      · simp [hline, misspelledLine, hcontains]
  good_commit _ _ _ _ := trivial
  commit_comm _ _ _ := rfl
  leave _ _ := rfl

theorem foldl_extend (indices : List ℕ) (lines : Misspelled) :
    indices.foldl (GetMisspelled.contract hserves).extend lines =
      lines ++ indices.filterMap (lineAt word_list d) := by
  induction indices generalizing lines with
  | nil => simp
  | cons i indices ih =>
    have hstep : (GetMisspelled.contract hserves).extend lines i = lines ++ (lineAt word_list d i).toList := rfl
    rw [List.foldl_cons, ih, hstep, List.filterMap_cons, List.append_assoc]
    cases lineAt word_list d i with
    | none => rfl
    | some line => rfl

theorem foldl_merge (views : List Misspelled) (misspelled : Misspelled) :
    views.foldl (GetMisspelled.contract hserves).merge misspelled = misspelled ++ views.flatten := by
  induction views generalizing misspelled with
  | nil => simp
  | cons view views ih =>
    rw [List.foldl_cons, ih, List.flatten_cons, ← List.append_assoc]
    rfl

/-- The threads have merged the list of the schedule by which they took their words. -/
theorem exists_schedule {threads : ℕ} {tables : Fin threads → Table}
    {s : Team Private Misspelled (Option Fault) threads}
    (h : Finished (GetMisspelled.contract hserves) (fun r => ⟨tables r, []⟩) [] s) :
    ∃ schedule, s.shared = GetMisspelled word_list d.toDictionary schedule := by
  refine ⟨⟨s.gone.map fun r => (s.thread r).made, by rw [← List.flatMap_def]; exact h.made⟩, ?_⟩
  have hcommit : (List.range word_list.words.length).foldl (GetMisspelled.contract hserves).commit [] = [] :=
    List.foldl_fixed _
  rw [h.shared, hcommit, foldl_merge, List.nil_append, GetMisspelled, List.flatMap_map, List.flatMap_def]
  simp only [foldl_extend]
  rfl

/-- Every run of the parallel region of `GetMisspelled` for a built dictionary, with
    any number of threads, whatever tables earlier calls have left to them, and
    whichever thread takes which index when and enters the critical section when:
    no body faults or hangs, no two threads work on one word, the region ends, and
    then the threads have merged the list of some schedule. The words of the
    dictionary and of the list are to be shorter than `2^31` bytes. -/
theorem GetMisspelled_threads (hserves : d.Serves word_list) {threads : ℕ} (hthreads : 0 < threads)
    (tables : Fin threads → Table) (m : ℕ) (s : Team Private Misspelled (Option Fault) threads)
    (hsteps : Steps (Step (GetMisspelled.region word_list d)) m
      (start word_list.words.length (fun r => ⟨tables r, []⟩) []) s) :
    (∃ t rest, 3 * word_list.words.length + threads = m + rest ∧
        Steps (Step (GetMisspelled.region word_list d)) rest s t ∧
        Stuck (Step (GetMisspelled.region word_list d)) t) ∧
      (∀ r q i, i ∈ (s.thread r).taken → i ∈ (s.thread q).taken → r = q) ∧
      (Stuck (Step (GetMisspelled.region word_list d)) s →
        ∃ schedule, s.shared = GetMisspelled word_list d.toDictionary schedule) := by
  obtain ⟨hend, hfinished, hexclusive⟩ := (GetMisspelled.contract hserves).settles hthreads trivial hsteps
  exact ⟨hend, hexclusive, fun hstuck => exists_schedule hserves (hfinished hstuck)⟩

/-- Two threads, and a word of which they find two candidates. -/
theorem GetMisspelled_threads_small :
    ∃ d : PlacedDictionary, d.orig = {[50], [51]} ∧ ∃ m s,
      Steps (Step (GetMisspelled.region ⟨[[49], [50]], 1⟩ d)) m (start 2 (fun _ : Fin 2 => ⟨[], []⟩) []) s ∧
        ∃ schedule, s.shared = GetMisspelled ⟨[[49], [50]], 1⟩ d.toDictionary schedule := by
  obtain ⟨d, horig, hserves⟩ := exists_serves_small
  obtain ⟨⟨t, rest, -, hsteps, hstuck⟩, -⟩ :=
    GetMisspelled_threads hserves (by decide) (fun _ : Fin 2 => []) 0 _ (.refl _)
  exact ⟨d, horig, rest, t, hsteps, (GetMisspelled_threads hserves (by decide) _ rest t hsteps).2.2 hstuck⟩

/-- A run of the parallel region of `GetMisspelled`, on some number of threads,
    that can go no further has merged this list. -/
def ThreadsFind (word_list : WordList) (d : PlacedDictionary) (misspelled : Misspelled) : Prop :=
  ∃ threads > 0, ∃ (tables : Fin threads → Table) (m : ℕ) (s : Team Private Misspelled (Option Fault) threads),
    Steps (Step (GetMisspelled.region word_list d)) m (start word_list.words.length (fun r => ⟨tables r, []⟩) []) s ∧
      Stuck (Step (GetMisspelled.region word_list d)) s ∧ s.shared = misspelled

theorem ThreadsFind.perm (hserves : d.Serves word_list) {misspelled : Misspelled}
    (h : ThreadsFind word_list d misspelled) :
    misspelled.Perm (word_list.words.filterMap (misspelledLine d.toDictionary)) := by
  obtain ⟨threads, hthreads, tables, m, s, hsteps, hstuck, rfl⟩ := h
  obtain ⟨-, hfinished, -⟩ := (GetMisspelled.contract hserves).settles hthreads trivial hsteps
  obtain ⟨schedule, hshared⟩ := exists_schedule hserves (hfinished hstuck)
  rw [hshared]
  exact GetMisspelled_perm word_list d.toDictionary schedule

/-- Any number of threads can come to the end of the region. -/
theorem exists_threadsFind (hserves : d.Serves word_list) {threads : ℕ} (hthreads : 0 < threads) :
    ∃ misspelled, ThreadsFind word_list d misspelled := by
  have hbegin : Steps (Step (GetMisspelled.region word_list d)) 0 _
      (start word_list.words.length (fun _ : Fin threads => ⟨[], []⟩) []) := .refl _
  obtain ⟨⟨s, m, -, hsteps, hstuck⟩, -⟩ := (GetMisspelled.contract hserves).settles hthreads trivial hbegin
  exact ⟨_, threads, hthreads, fun _ => [], m, s, hsteps, hstuck, rfl⟩

/-- What an iteration writes to the entries of its index. -/
def setBoth (present : ℕ → Option Byte) (candidates : ℕ → Option (List Word)) (out : LocalMisspelled) (i : ℕ) :
    LocalMisspelled :=
  ⟨setSlot present out.present i, setSlot candidates out.local_candidates i⟩

theorem foldl_setBoth (present : ℕ → Option Byte) (candidates : ℕ → Option (List Word)) (indices : List ℕ)
    (out : LocalMisspelled) : indices.foldl (setBoth present candidates) out =
      ⟨indices.foldl (setSlot present) out.present, indices.foldl (setSlot candidates) out.local_candidates⟩ := by
  induction indices generalizing out with
  | nil => rfl
  | cons i indices ih => rw [List.foldl_cons, ih, List.foldl_cons, List.foldl_cons, setBoth]

/-- A loop over `n` words that fills the entries of a `LocalMisspelled`. -/
def slotContract {region : Region Table LocalMisspelled (Option Fault)} {n : ℕ} (present : ℕ → Option Byte)
    (candidates : ℕ → Option (List Word)) (hleave : ∀ dp out, region.leave dp out = out)
    (hbody : ∀ i < n, ∀ dp, ∃ dp' store, region.body i dp = .ok (dp', store) ∧
      ∀ out, out.present.length = n ∧ out.local_candidates.length = n →
        store out = .ok (setBoth present candidates out i)) : Contract region n Unit where
  good out := out.present.length = n ∧ out.local_candidates.length = n
  view _ := ()
  extend _ _ := ()
  commit := setBoth present candidates
  merge out _ := out
  body i hi dp := by
    obtain ⟨dp', store, hdp', hstore⟩ := hbody i hi dp
    exact ⟨dp', store, hdp', rfl, hstore⟩
  good_commit i _ out hgood := by simpa [setBoth] using hgood
  commit_comm out i j := by simp only [setBoth, setSlot_comm _ _ i j]
  leave := hleave

/-- What a loop that fills the entries of a `LocalMisspelled` leaves behind. -/
theorem slotContract_shared {region : Region Table LocalMisspelled (Option Fault)} {n threads : ℕ}
    {present : ℕ → Option Byte} {candidates : ℕ → Option (List Word)} {hleave : ∀ dp out, region.leave dp out = out}
    {hbody : ∀ i < n, ∀ dp, ∃ dp' store, region.body i dp = .ok (dp', store) ∧
      ∀ out, out.present.length = n ∧ out.local_candidates.length = n →
        store out = .ok (setBoth present candidates out i)} {own : Fin threads → Table}
    {start : List Byte} {s : Team Table LocalMisspelled (Option Fault) threads}
    (h : Finished (slotContract present candidates hleave hbody) own ⟨start, List.replicate n []⟩ s) :
    s.shared = ⟨(List.range n).foldl (setSlot present) start, (List.range n).map fun i => (candidates i).getD []⟩ := by
  have hviews (views : List Unit) (out : LocalMisspelled) : views.foldl (fun out _ => out) out = out :=
    List.foldl_fixed _
  rw [h.shared]
  refine (hviews _ _).trans ((foldl_setBoth _ _ _ _).trans ?_)
  rw [foldl_setSlot]

theorem map_range_getElem? {α β : Type} (l : List α) (f : Option α → β) :
    (List.range l.length).map (fun i => f l[i]?) = l.map fun a => f (some a) := by
  apply List.ext_getElem
  · simp
  · intro i h _
    have hi : i < l.length := by simpa using h
    simp [List.getElem?_eq_getElem hi]

theorem storePresent_eq {i n : ℕ} (hi : i < n) {present : ℕ → Option Byte} {candidates : ℕ → Option (List Word)}
    (hpresent : present i = some 1) (hcandidates : candidates i = none) (out : LocalMisspelled)
    (hlengths : out.present.length = n ∧ out.local_candidates.length = n) :
    storePresent i out = .ok (setBoth present candidates out i) := by
  rw [storePresent, store_of_lt (hlengths.1.symm ▸ hi), loop.bind_ok, setBoth, setSlot, setSlot, hpresent, hcandidates]
  rfl

theorem storeCandidates_eq {i n : ℕ} (hi : i < n) {present : ℕ → Option Byte} {candidates : ℕ → Option (List Word)}
    (hpresent : present i = none) {cands : List Word} (hcandidates : candidates i = some cands) (out : LocalMisspelled)
    (hlengths : out.present.length = n ∧ out.local_candidates.length = n) :
    storeCandidates i cands out = .ok (setBoth present candidates out i) := by
  rw [storeCandidates, store_of_lt (hlengths.2.symm ▸ hi), loop.bind_ok, setBoth, setSlot, setSlot, hpresent,
    hcandidates]
  rfl

theorem GetMisspelledLocal_body (hserves : d.Serves word_list) (i : ℕ) (hi : i < word_list.words.length) (dp : Table) :
    ∃ dp' store, (GetMisspelledLocal.region sorter word_list d).body i dp = .ok (dp', store) ∧
      ∀ out, out.present.length = word_list.words.length ∧ out.local_candidates.length = word_list.words.length →
        store out = .ok (setBoth
          (fun i => word_list.words[i]?.bind fun w => if d.Contains w then some 1 else none)
          (fun i => word_list.words[i]?.bind fun w =>
            if d.Contains w then none else some (sortUnique sorter (d.Candidates w []))) out i) := by
  obtain ⟨w, hw⟩ : ∃ w, word_list.words[i]? = some w := ⟨_, List.getElem?_eq_getElem hi⟩
  simp only [GetMisspelledLocal.region, fetch_of_getElem? hw, loop.bind_ok]
  by_cases hcontains : d.Contains w = true
  · refine ⟨dp, storePresent i, if_pos hcontains, storePresent_eq hi ?_ ?_⟩
    · simp [hw, hcontains]
    · simp [hw, hcontains]
  · obtain ⟨dp', hsearch⟩ := CandidatesOn_eq hserves dp (List.mem_of_getElem? hw)
    refine ⟨dp', storeCandidates i (sortUnique sorter (d.Candidates w [])), ?_, storeCandidates_eq hi ?_ ?_⟩
    · rw [if_neg hcontains, hsearch]
      rfl
    · simp [hw, hcontains]
    · simp [hw, hcontains]

/-- Every run of the parallel loop of `GetMisspelledLocal` for a built dictionary
    ends, and leaves the entries that the iterations compute one by one. The words
    of the dictionary and of the list are to be shorter than `2^31` bytes. -/
theorem GetMisspelledLocal_threads (hserves : d.Serves word_list) {threads : ℕ} (hthreads : 0 < threads)
    (tables : Fin threads → Table) (m : ℕ) (s : Team Table LocalMisspelled (Option Fault) threads)
    (hsteps : Steps (Step (GetMisspelledLocal.region sorter word_list d)) m
      (start word_list.words.length tables
        ⟨List.replicate word_list.words.length 0, List.replicate word_list.words.length []⟩) s) :
    (∃ t rest, 3 * word_list.words.length + threads = m + rest ∧
        Steps (Step (GetMisspelledLocal.region sorter word_list d)) rest s t ∧
        Stuck (Step (GetMisspelledLocal.region sorter word_list d)) t) ∧
      (∀ r q i, i ∈ (s.thread r).taken → i ∈ (s.thread q).taken → r = q) ∧
      (Stuck (Step (GetMisspelledLocal.region sorter word_list d)) s →
        s.shared = GetMisspelledLocal sorter word_list d.toDictionary) := by
  obtain ⟨hend, hfinished, hexclusive⟩ := (slotContract _ _ (fun _ _ => rfl)
    (GetMisspelledLocal_body sorter hserves)).settles hthreads ⟨List.length_replicate, List.length_replicate⟩ hsteps
  refine ⟨hend, hexclusive, fun hstuck => ?_⟩
  rw [slotContract_shared (hfinished hstuck), foldl_setSlot, GetMisspelledLocal,
    map_range_getElem? word_list.words fun w => (w.bind fun w => if d.Contains w then some 1 else none).getD 0,
    map_range_getElem? word_list.words fun w => (w.bind fun w =>
      if d.Contains w then none else some (sortUnique sorter (d.Candidates w []))).getD []]
  rw [LocalMisspelled.mk.injEq]
  constructor
  · apply List.map_congr_left
    intro w _
    rw [Option.bind_some]
    split
    · rfl
    · rfl
  · apply List.map_congr_left
    intro w _
    rw [Option.bind_some]
    split
    · rfl
    · rfl

theorem GetCandidatesLocalMasked_body (hserves : d.Serves word_list) {present_global : List Byte}
    (hlength : present_global.length = word_list.words.length) (i : ℕ) (hi : i < word_list.words.length) (dp : Table) :
    ∃ dp' store, (GetCandidatesLocalMasked.region sorter word_list d present_global).body i dp = .ok (dp', store) ∧
      ∀ out, out.present.length = word_list.words.length ∧ out.local_candidates.length = word_list.words.length →
        store out = .ok (setBoth (fun _ => none)
          (fun i => if present_global[i]? = some 0 then
            word_list.words[i]?.map fun w => sortUnique sorter (d.Candidates w []) else none) out i) := by
  obtain ⟨w, hw⟩ : ∃ w, word_list.words[i]? = some w := ⟨_, List.getElem?_eq_getElem hi⟩
  obtain ⟨present, hpresent⟩ : ∃ present, present_global[i]? = some present :=
    ⟨_, List.getElem?_eq_getElem (by omega)⟩
  simp only [GetCandidatesLocalMasked.region, fetch_of_getElem? hw, fetch_of_getElem? hpresent, loop.bind_ok]
  by_cases hzero : present = 0
  · obtain ⟨dp', hsearch⟩ := CandidatesOn_eq hserves dp (List.mem_of_getElem? hw)
    refine ⟨dp', storeCandidates i (sortUnique sorter (d.Candidates w [])), ?_, storeCandidates_eq hi rfl ?_⟩
    · rw [if_neg (not_not.mpr hzero), hsearch]
      rfl
    · simp [hw, hpresent, hzero]
  · refine ⟨dp, .ok, if_pos hzero, fun out _ => ?_⟩
    simp [setBoth, setSlot, hpresent, hzero]

/-- Every run of the parallel loop of `GetCandidatesLocalMasked` for a built
    dictionary and a mask with one entry for each word ends, and leaves what the
    iterations compute one by one. The words of the dictionary and of the list are
    to be shorter than `2^31` bytes. -/
theorem GetCandidatesLocalMasked_threads (hserves : d.Serves word_list) {present_global : List Byte}
    (hlength : present_global.length = word_list.words.length) {threads : ℕ} (hthreads : 0 < threads)
    (tables : Fin threads → Table) (m : ℕ) (s : Team Table LocalMisspelled (Option Fault) threads)
    (hsteps : Steps (Step (GetCandidatesLocalMasked.region sorter word_list d present_global)) m
      (start word_list.words.length tables ⟨present_global, List.replicate word_list.words.length []⟩) s) :
    (∃ t rest, 3 * word_list.words.length + threads = m + rest ∧
        Steps (Step (GetCandidatesLocalMasked.region sorter word_list d present_global)) rest s t ∧
        Stuck (Step (GetCandidatesLocalMasked.region sorter word_list d present_global)) t) ∧
      (∀ r q i, i ∈ (s.thread r).taken → i ∈ (s.thread q).taken → r = q) ∧
      (Stuck (Step (GetCandidatesLocalMasked.region sorter word_list d present_global)) s →
        GetCandidatesLocalMasked sorter word_list d.toDictionary present_global = .ok s.shared) := by
  obtain ⟨hend, hfinished, hexclusive⟩ := (slotContract _ _ (fun _ _ => rfl)
    (GetCandidatesLocalMasked_body sorter hserves hlength)).settles hthreads ⟨hlength, List.length_replicate⟩ hsteps
  refine ⟨hend, hexclusive, fun hstuck => ?_⟩
  have hkeep : (List.range word_list.words.length).foldl (setSlot fun _ => none) present_global = present_global :=
    List.foldl_fixed _
  rw [slotContract_shared (hfinished hstuck), hkeep, GetCandidatesLocalMasked_eq sorter _ hlength, Except.ok.injEq,
    LocalMisspelled.mk.injEq]
  refine ⟨rfl, ?_⟩
  apply List.ext_getElem
  · simp
  · intro i h _
    have hi : i < word_list.words.length := by simpa using h
    simp only [List.getElem_map, List.getElem_zipIdx, List.getElem_range, maskedCandidates, Nat.zero_add,
      List.getElem?_eq_getElem hi, Option.map_some]
    split
    · rfl
    · rfl

/-- Two threads, and a mask that leaves one of the words to look up. -/
theorem GetCandidatesLocalMasked_threads_small :
    ∃ d : PlacedDictionary, d.orig = {[50], [51]} ∧ ∃ m s,
      Steps (Step (GetCandidatesLocalMasked.region default ⟨[[49], [50]], 1⟩ d [0, 1])) m
        (start 2 (fun _ : Fin 2 => []) ⟨[0, 1], [[], []]⟩) s ∧
      GetCandidatesLocalMasked default ⟨[[49], [50]], 1⟩ d.toDictionary [0, 1] = .ok s.shared := by
  obtain ⟨d, horig, hserves⟩ := exists_serves_small
  have hlength : ([0, 1] : List Byte).length = 2 := rfl
  obtain ⟨⟨t, rest, -, hsteps, hstuck⟩, -⟩ :=
    GetCandidatesLocalMasked_threads default hserves hlength (by decide) (fun _ : Fin 2 => []) 0 _ (.refl _)
  exact ⟨d, horig, rest, t, hsteps,
    (GetCandidatesLocalMasked_threads default hserves hlength (by decide) _ rest t hsteps).2.2 hstuck⟩

variable (word_list d)

/-- What `GetPresentLocal` writes for an index. -/
def presentAt (i : ℕ) : Option Byte := word_list.words[i]?.bind fun w => if d.Contains w then some 1 else none

def GetPresentLocal.contract : Contract (GetPresentLocal.region word_list d) word_list.words.length Unit where
  good present := present.length = word_list.words.length
  view _ := ()
  extend _ _ := ()
  commit := setSlot (presentAt word_list d)
  merge present _ := present
  body i hi dp := by
    obtain ⟨w, hw⟩ : ∃ w, word_list.words[i]? = some w := ⟨_, List.getElem?_eq_getElem hi⟩
    simp only [GetPresentLocal.region, fetch_of_getElem? hw, loop.bind_ok]
    by_cases hcontains : d.Contains w = true
    · refine ⟨dp, fun present => store present i 1, if_pos hcontains, trivial, fun present hgood => ?_⟩
      simp [store_of_lt (hgood.symm ▸ hi), setSlot, presentAt, hw, hcontains]
    · refine ⟨dp, .ok, if_neg hcontains, trivial, fun present _ => ?_⟩
      simp [setSlot, presentAt, hw, hcontains]
  good_commit _ _ present hgood := (length_setSlot _ _ _).trans hgood
  commit_comm := setSlot_comm _
  leave _ _ := rfl

/-- Every run of the parallel loop of `GetPresentLocal` ends, and leaves the entries
    that the iterations compute one by one. -/
theorem GetPresentLocal_threads {threads : ℕ} (hthreads : 0 < threads) (tables : Fin threads → Table) (m : ℕ)
    (s : Team Table (List Byte) (Option Fault) threads)
    (hsteps : Steps (Step (GetPresentLocal.region word_list d)) m
      (start word_list.words.length tables (List.replicate word_list.words.length 0)) s) :
    (∃ t rest, 3 * word_list.words.length + threads = m + rest ∧
        Steps (Step (GetPresentLocal.region word_list d)) rest s t ∧
        Stuck (Step (GetPresentLocal.region word_list d)) t) ∧
      (∀ r q i, i ∈ (s.thread r).taken → i ∈ (s.thread q).taken → r = q) ∧
      (Stuck (Step (GetPresentLocal.region word_list d)) s →
        s.shared = GetPresentLocal word_list d.toDictionary) := by
  obtain ⟨hend, hfinished, hexclusive⟩ :=
    (GetPresentLocal.contract word_list d).settles hthreads List.length_replicate hsteps
  refine ⟨hend, hexclusive, fun hstuck => ?_⟩
  have hmerge (views : List Unit) (present : List Byte) : views.foldl (fun present _ => present) present = present :=
    List.foldl_fixed _
  have hslots := foldl_setSlot (presentAt word_list d) word_list.words.length 0
  rw [(hfinished hstuck).shared]
  refine (hmerge _ _).trans (hslots.trans ?_)
  rw [GetPresentLocal]
  refine (map_range_getElem? word_list.words fun w =>
    (w.bind fun w => if d.Contains w then some 1 else none).getD 0).trans ?_
  apply List.map_congr_left
  intro w _
  rw [Option.bind_some]
  split
  · rfl
  · rfl

end Loops

end spellcheck.candidates
