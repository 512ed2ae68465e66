import SpellChecker.BKTree.Search
import SpellChecker.Data.LinkedTree
import SpellChecker.Data.Loop

open keyed_tree linked_tree
open spellcheck.edit_distance

namespace spellcheck.bk_tree

/-- The `while (true)` loop of `BKTree::AddNode` on the nodes in memory, from the
    address `node` on, with the table `dp` of the thread: the memory and the
    table as the call leaves them, or `none` when it takes more than `fuel`
    rounds. -/
def AddNodeOn (word : Word) : ℕ → Heap Int Word → Table → ℕ → Except Fault (Option (Heap Int Word × Table))
  | 0, _, _, _ => .ok none
  | fuel + 1, heap, dp, node => do
    let cell ← vecAt heap (node : ℕ)
    let (distance, dp) ← EditDistanceOn dp cell.label word
    let dist := toInt distance
    if dist = 0 then return some (heap, dp)
    match findKey dist cell.children with
    | none =>
      -- `node->children[dist] = new BKNode(word)`
      return some (heap.set node ⟨cell.label, insertKey dist heap.length cell.children⟩ ++ [⟨word, []⟩], dp)
    | some child => AddNodeOn word fuel heap dp child

/-- The `while` loop of `BKTree::SearchNode` on the queue `nodes` and `tmp_res`. -/
def SearchNodeOn.collect (word : Word) (tol : Int) (heap : Heap Int Word) :
    ℕ → Table → List ℕ → List Word → Except Fault (Option (List Word × Table))
  | _, dp, [], tmp_res => .ok (some (tmp_res, dp))
  | 0, _, _ :: _, _ => .ok none
  | fuel + 1, dp, node :: nodes, tmp_res => do
    let cell ← vecAt heap (node : ℕ)
    let (distance, dp) ← EditDistanceOn dp cell.label word
    let dist := toInt distance
    let tmp_res := if dist ≤ tol then tmp_res ++ [cell.label] else tmp_res
    let nodes ← SearchNode.push tol dist cell.children nodes
    collect word tol heap fuel dp nodes tmp_res

/-- The last loop of `BKTree::SearchNode`, over `tmp_res`. -/
def SearchNodeOn.filter (word : Word) (dp : Table) (tmp_res result : List Word) : Except Fault (List Word × Table) :=
  tmp_res.foldlM (fun (state : List Word × Table) res_word => do
    let (dist, dp) ← EditDistanceOn state.2 word res_word
    return (if dist = 1 then state.1 ++ [res_word] else state.1, dp)) (result, dp)

/-- `BKTree::SearchNode` on the nodes in memory. -/
def SearchNodeOn (word : Word) (tol : Int) (fuel : ℕ) (heap : Heap Int Word) (dp : Table) (root : ℕ)
    (result : List Word) : Except Fault (Option (List Word × Table)) := do
  match ← SearchNodeOn.collect word tol heap fuel dp [root] [] with
  | none => return none
  | some (tmp_res, dp) => return some (← SearchNodeOn.filter word dp tmp_res result)

section Insert

/-- What the loop of `AddNode` makes of the child map of a node it comes to. -/
def below (word : Word) (node : BKNode) : Children Int Word :=
  if BKTree.Distance node.label word = 0 then node.children
  else AddNode.descend word (BKTree.Distance node.label word) node.children

theorem AddNode_eq_below (label : Word) (children : Children Int Word) (word : Word) :
    (BKTree.mk ⟨label, children⟩).AddNode word = ⟨⟨label, below word ⟨label, children⟩⟩⟩ := by
  rw [BKTree.AddNode, below]
  by_cases h : BKTree.Distance label word = 0
  · rw [if_pos h, if_pos h]
  · rw [if_neg h, if_neg h]

/-- Where the keys increase, the walk along a child map is a search for the key. -/
theorem descend_eq_lookup (word : Word) (dist : Int) {children : Children Int Word}
    (hsorted : children.entries.Pairwise fun a b => a.1 < b.1) :
    AddNode.descend word dist children =
      match lookup dist children with
      | none => insertLeaf dist word children
      | some node => replace dist (below word node) children := by
  induction children with
  | nil => rfl
  | cons key label children rest _ ih =>
    rw [Children.entries_cons, List.pairwise_cons] at hsorted
    obtain ⟨hfirst, hrest⟩ := hsorted
    rw [AddNode.descend, lookup]
    by_cases hless : dist < key
    · have hnone : lookup dist rest = none := lookup_eq_none fun entry hentry => (hless.trans (hfirst entry hentry)).ne'
      rw [if_pos hless, if_neg hless.ne', hnone]
      exact (if_pos hless).symm
    · rw [if_neg hless]
      by_cases hequal : dist = key
      · subst hequal
        rw [if_pos rfl, if_pos rfl]
        simp only [replace, below, if_true]
        split
        · rfl
        · rfl
      · rw [if_neg hequal, if_neg (Ne.symm hequal), ih hrest]
        cases lookup dist rest with
        | none => exact (if_neg hless).symm
        | some node => exact (if_neg (Ne.symm hequal)).symm

/-- One round of the loop: a stop, a new leaf, or a node further down. -/
theorem AddNodeOn_succ {word : Word} {heap : Heap Int Word} {node : ℕ} {label : Word} {entries : List (Int × ℕ)}
    (hcell : heap[node]? = some ⟨label, entries⟩) (dp : Table) :
    ∃ mid, ∀ fuel, AddNodeOn word (fuel + 1) heap dp node =
      if BKTree.Distance label word = 0 then .ok (some (heap, mid))
      else match findKey (BKTree.Distance label word) entries with
        | none => .ok (some (heap.set node
            ⟨label, insertKey (BKTree.Distance label word) heap.length entries⟩ ++ [⟨word, []⟩], mid))
        | some child => AddNodeOn word fuel heap mid child := by
  obtain ⟨mid, hdistance⟩ := EditDistanceOn_eq dp label word
  refine ⟨mid, fun fuel => ?_⟩
  rw [AddNodeOn, vecAt_of_getElem? hcell, loop.bind_ok, hdistance, loop.bind_ok]
  rfl

/-- The loop of `AddNode` at a node in memory does to the tree there what
    `AddNode` does, in at most one round for each level, and no pointer it
    follows dangles. -/
theorem AddNodeOn_spec (word : Word) {heap : Heap Int Word} {node : ℕ} {label : Word} {entries : List (Int × ℕ)}
    {children : Children Int Word} {places : List ℕ} (hcell : heap[node]? = some ⟨label, entries⟩)
    (hlinked : Linked heap entries children places) (hnodup : (node :: places).Nodup) (dp : Table) :
    ∃ heap' dp', (∀ fuel, children.height < fuel → AddNodeOn word fuel heap dp node = .ok (some (heap', dp'))) ∧
      Grown heap heap' node places label (below word ⟨label, children⟩) := by
  induction hheight : children.height using Nat.strong_induction_on
    generalizing node label entries children places dp with
  | h height ih =>
    obtain ⟨mid, hround⟩ := @AddNodeOn_succ word _ _ _ _ hcell dp
    have hfuel {fuel : ℕ} (h : height < fuel) : ∃ rest, fuel = rest + 1 ∧ height ≤ rest :=
      ⟨fuel - 1, by omega, by omega⟩
    by_cases hzero : BKTree.Distance label word = 0
    · rw [below, if_pos hzero]
      refine ⟨heap, mid, fun fuel h => ?_, .same hcell hlinked⟩
      obtain ⟨rest, rfl, -⟩ := hfuel h
      rw [hround, if_pos hzero]
    · rw [below, if_neg hzero, descend_eq_lookup word _ hlinked.pairwise]
      generalize BKTree.Distance label word = dist at hround hzero
      cases hfind : findKey dist entries with
      | none =>
        rw [hlinked.lookup_eq_none hfind]
        refine ⟨_, mid, fun fuel h => ?_, .leaf hcell hlinked hnodup hfind word⟩
        obtain ⟨rest, rfl, -⟩ := hfuel h
        rw [hround, if_neg hzero, hfind]
      | some child =>
        obtain ⟨t, inner, under, hlookup, hcell', hlinked', hunder, hgrow⟩ :=
          hlinked.grown_found hcell hnodup hfind
        rw [hlookup]
        have hlower := height_lt_of_lookup hlookup
        obtain ⟨heap', dp', hloop, hgrown⟩ := ih t.children.height (by omega) hcell' hlinked' hunder mid rfl
        refine ⟨heap', dp', fun fuel h => ?_, hgrow heap' _ hgrown⟩
        obtain ⟨rest, rfl, hrest⟩ := hfuel h
        rw [hround, if_neg hzero, hfind]
        exact hloop rest (by omega)

/-- `AddNode` on the tree at an address. -/
theorem AddNodeOn_holds (word : Word) {heap : Heap Int Word} {root : ℕ} {tree : BKTree} (h : Holds heap root tree.root)
    (dp : Table) : ∃ heap' dp',
      (∀ fuel, tree.root.children.height < fuel → AddNodeOn word fuel heap dp root = .ok (some (heap', dp'))) ∧
      Holds heap' root (tree.AddNode word).root ∧
      (tree.AddNode word).root.nodes.length ≤ tree.root.nodes.length + 1 := by
  obtain ⟨⟨label, children⟩⟩ := tree
  obtain ⟨entries, places, hcell, hlinked, hnodup⟩ := h
  obtain ⟨heap', dp', hloop, hgrown⟩ := AddNodeOn_spec word hcell hlinked hnodup dp
  rw [AddNode_eq_below]
  obtain ⟨hholds, hlength⟩ := hlinked.holds_grown hcell hnodup hgrown
  exact ⟨heap', dp', hloop, hholds, hlength⟩

end Insert

section Search

variable {heap : Heap Int Word} (word : Word) (tol : Int)

/-- The children in memory are under the keys of the children of the tree: they
    overflow an `int` together, or the same of them are pushed. -/
theorem SearchNode.push_linked (dist : Int) {entries : List (Int × ℕ)} {children : Children Int Word}
    {places : List ℕ} (hlinked : Linked heap entries children places) (hnodup : places.Nodup) {queue : List ℕ}
    {nodes : List BKNode} (h : List.Forall₂ (Holds heap) queue nodes) :
    (SearchNode.push tol dist entries queue = .error .overflow ∧
        SearchNode.push tol dist children.entries nodes = .error .overflow) ∨
      ∃ queue' nodes', SearchNode.push tol dist entries queue = .ok queue' ∧
        SearchNode.push tol dist children.entries nodes = .ok nodes' ∧ List.Forall₂ (Holds heap) queue' nodes' := by
  have hkeys : (∀ entry ∈ entries, IsInt |entry.1 - dist|) ↔ ∀ child ∈ children.entries, IsInt |child.1 - dist| := by
    rw [← List.forall_mem_map (f := Prod.fst) (P := fun key => IsInt |key - dist|), hlinked.keys, List.forall_mem_map]
  rw [SearchNode.push_eq, SearchNode.push_eq]
  by_cases hfits : ∀ entry ∈ entries, IsInt |entry.1 - dist|
  · rw [if_pos hfits, if_pos (hkeys.mp hfits)]
    exact .inr ⟨_, _, rfl, rfl, List.rel_append h (hlinked.forall_admitted hnodup _)⟩
  · rw [if_neg hfits, if_neg (mt hkeys.mpr hfits)]
    exact .inl ⟨rfl, rfl⟩

/-- The queue of addresses follows the queue of nodes, up to an overflow. -/
theorem SearchNodeOn.collect_eq {queue : List ℕ} {nodes : List BKNode} (h : List.Forall₂ (Holds heap) queue nodes)
    (dp : Table) (tmp_res : List Word) : ∃ dp', ∀ fuel, queueSize nodes ≤ fuel →
      SearchNodeOn.collect word tol heap fuel dp queue tmp_res =
        (SearchNode.collect word tol nodes tmp_res).map fun tmp_res => some (tmp_res, dp') := by
  induction hsize : queueSize nodes using Nat.strong_induction_on generalizing queue nodes dp tmp_res with
  | h size ih =>
    cases h with
    | nil =>
      refine ⟨dp, fun fuel _ => ?_⟩
      rw [SearchNodeOn.collect, SearchNode.collect]
      rfl
    | @cons address node queue nodes hnode hnodes =>
      obtain ⟨entries, places, hcell, hlinked, hnodup⟩ := hnode
      obtain ⟨mid, hdistance⟩ := EditDistanceOn_eq dp node.label word
      have hround (fuel : ℕ) : SearchNodeOn.collect word tol heap (fuel + 1) dp (address :: queue) tmp_res = (do
          let pushed ← SearchNode.push tol (BKTree.Distance node.label word) entries queue
          SearchNodeOn.collect word tol heap fuel mid pushed
            (if BKTree.Distance node.label word ≤ tol then tmp_res ++ [node.label] else tmp_res)) := by
        rw [SearchNodeOn.collect, vecAt_of_getElem? hcell, loop.bind_ok, hdistance, loop.bind_ok]
        rfl
      have hfuel {fuel : ℕ} (h : size ≤ fuel) : ∃ rest, fuel = rest + 1 ∧ size ≤ rest + 1 := by
        rw [queueSize_cons, Tree.nodes, List.length_cons] at hsize
        exact ⟨fuel - 1, by omega, by omega⟩
      rw [SearchNode.collect_cons]
      rcases SearchNode.push_linked tol (BKTree.Distance node.label word) hlinked (List.nodup_cons.mp hnodup).2 hnodes
        with ⟨hheap, htree⟩ | ⟨queue', nodes', hheap, htree, hpushed⟩
      · refine ⟨mid, fun fuel h => ?_⟩
        obtain ⟨rest, rfl, -⟩ := hfuel h
        rw [hround, hheap, htree]
        rfl
      · have hless := SearchNode.queueSize_push_lt htree
        obtain ⟨dp', hrest⟩ := ih _ (by omega) hpushed mid
          (if BKTree.Distance node.label word ≤ tol then tmp_res ++ [node.label] else tmp_res) rfl
        refine ⟨dp', fun fuel h => ?_⟩
        obtain ⟨rest, rfl, hle⟩ := hfuel h
        rw [hround, hheap, htree, loop.bind_ok, loop.bind_ok]
        exact hrest rest (by omega)

theorem SearchNodeOn.filter_eq (dp : Table) (tmp_res result : List Word) : ∃ dp',
    SearchNodeOn.filter word dp tmp_res result = .ok (tmp_res.foldl (fun result res_word =>
      if EditDistance word res_word = 1 then result ++ [res_word] else result) result, dp') := by
  induction tmp_res generalizing dp result with
  | nil => exact ⟨dp, rfl⟩
  | cons res_word tmp_res ih =>
    obtain ⟨mid, hdistance⟩ := EditDistanceOn_eq dp word res_word
    obtain ⟨dp', hrest⟩ := ih mid (if EditDistance word res_word = 1 then result ++ [res_word] else result)
    refine ⟨dp', ?_⟩
    rw [SearchNodeOn.filter, List.foldlM_cons, hdistance, loop.bind_ok, List.foldl_cons]
    exact hrest

/-- `SearchNode` on the tree at an address takes at most one round for each node
    and finds what `SearchNode` finds, up to an overflow. -/
theorem SearchNodeOn_eq {root : ℕ} {tree : BKTree} (h : Holds heap root tree.root) (dp : Table) (result : List Word) :
    ∃ dp', ∀ fuel, tree.root.nodes.length ≤ fuel →
      SearchNodeOn word tol fuel heap dp root result =
        (tree.SearchNode word tol result).map fun result => some (result, dp') := by
  obtain ⟨mid, hcollect⟩ := SearchNodeOn.collect_eq word tol (.cons h .nil) dp []
  have hsize : queueSize [tree.root] = tree.root.nodes.length := by simp
  rw [hsize] at hcollect
  rw [BKTree.SearchNode]
  cases hphase : SearchNode.collect word tol [tree.root] [] with
  | error fault =>
    refine ⟨mid, fun fuel hfuel => ?_⟩
    rw [SearchNodeOn, hcollect fuel hfuel, hphase]
    rfl
  | ok tmp_res =>
    obtain ⟨dp', hfilter⟩ := SearchNodeOn.filter_eq word mid tmp_res result
    refine ⟨dp', fun fuel hfuel => ?_⟩
    rw [SearchNodeOn, hcollect fuel hfuel, hphase, Except.map, loop.bind_ok]
    simp only [hfilter, loop.bind_ok, loop.pure_eq_ok]
    rfl

end Search

section Runs

/-- A call on a `BKTree`. -/
inductive Operation where
  | AddNode (word : Word)
  | SearchNode (word : Word) (tol : Int)

/-- The word of a call. -/
def Operation.word : Operation → Word
  | .AddNode word => word
  | .SearchNode word _ => word

/-- A call on the tree, behind what the searches before it have found. -/
def callTree (state : List (List Word) × BKTree) : Operation → Except Fault (List (List Word) × BKTree)
  | .AddNode word => .ok (state.1, state.2.AddNode word)
  | .SearchNode word tol => do
    let result ← state.2.SearchNode word tol []
    return (state.1 ++ [result], state.2)

/-- Calls one after the other on the tree. -/
def runTree (state : List (List Word) × BKTree) (calls : List Operation) : Except Fault (List (List Word) × BKTree) :=
  calls.foldlM callTree state

/-- Calls one after the other on the tree at an address in memory. -/
def runMemory (fuel root : ℕ) :
    List (List Word) → Heap Int Word → Table → List Operation →
      Except Fault (Option (List (List Word) × Heap Int Word × Table))
  | found, heap, dp, [] => .ok (some (found, heap, dp))
  | found, heap, dp, .AddNode word :: calls => do
    match ← AddNodeOn word fuel heap dp root with
    | none => return none
    | some (heap, dp) => runMemory fuel root found heap dp calls
  | found, heap, dp, .SearchNode word tol :: calls => do
    match ← SearchNodeOn word tol fuel heap dp root [] with
    | none => return none
    | some (result, dp) => runMemory fuel root (found ++ [result]) heap dp calls

theorem runTree_map_AddNode (found : List (List Word)) (tree : BKTree) (words : List Word) :
    runTree (found, tree) (words.map .AddNode) = .ok (found, words.foldl BKTree.AddNode tree) := by
  induction words generalizing tree with
  | nil => rfl
  | cons word words ih =>
    rw [runTree, List.map_cons, List.foldlM_cons, callTree, loop.bind_ok, List.foldl_cons]
    exact ih _

theorem height_lt_nodes (children : Children Int Word) : children.height < children.nodes.length + 1 := by
  induction children with
  | nil => simp [Children.height]
  | cons key label children rest ihchildren ihrest =>
    simp only [Children.height, Children.nodes_cons, List.length_cons, List.length_append]
    omega

/-- A new tree is one node in memory. -/
theorem BKTree.holds_new (root : Word) : Holds [⟨root, []⟩] 0 (BKTree.new root).root :=
  ⟨[], [], rfl, .nil, List.nodup_singleton 0⟩

theorem BKTree.length_nodes_new (root : Word) : (BKTree.new root).root.nodes.length = 1 := rfl

/-- Calls on a tree in memory do what they do on the tree. -/
theorem runMemory_eq {root : ℕ} {heap : Heap Int Word} {tree : BKTree} (h : Holds heap root tree.root) (dp : Table)
    (calls : List Operation) (found : List (List Word)) : ∃ heap' dp',
      (∀ fuel, tree.root.nodes.length + calls.length ≤ fuel →
        runMemory fuel root found heap dp calls =
          (runTree (found, tree) calls).map fun state => some (state.1, heap', dp')) ∧
      ∀ state, runTree (found, tree) calls = .ok state → Holds heap' root state.2.root := by
  induction calls generalizing heap tree dp found with
  | nil => exact ⟨heap, dp, fun _ _ => rfl, fun state hstate => Except.ok.inj hstate ▸ h⟩
  | cons call calls ih =>
    rw [runTree, List.foldlM_cons]
    cases call with
    | AddNode word =>
      obtain ⟨mid, dpMid, hadd, hholds, hlength⟩ := AddNodeOn_holds word h dp
      rw [callTree, loop.bind_ok]
      generalize tree.AddNode word = next at hholds hlength ⊢
      obtain ⟨heap', dp', hrest, hend⟩ := ih hholds dpMid found
      refine ⟨heap', dp', fun fuel hfuel => ?_, hend⟩
      rw [List.length_cons] at hfuel
      have hheight : tree.root.children.height < tree.root.nodes.length := height_lt_nodes _
      rw [runMemory, hadd fuel (by omega), loop.bind_ok]
      exact hrest fuel (by omega)
    | SearchNode word tol =>
      obtain ⟨dpMid, hsearch⟩ := SearchNodeOn_eq word tol h dp []
      rw [callTree]
      cases hresult : tree.SearchNode word tol [] with
      | error fault =>
        rw [hresult] at hsearch
        refine ⟨heap, dpMid, fun fuel hfuel => ?_, fun state hstate => by cases hstate⟩
        rw [runMemory, hsearch fuel (by omega)]
        rfl
      | ok result =>
        rw [hresult] at hsearch
        obtain ⟨heap', dp', hrest, hend⟩ := ih h dpMid (found ++ [result])
        refine ⟨heap', dp', fun fuel hfuel => ?_, hend⟩
        rw [List.length_cons] at hfuel
        rw [runMemory, hsearch fuel (by omega), Except.map, loop.bind_ok]
        exact hrest fuel (by omega)

/-- If the first phase of a search faults, an `int` has overflowed. -/
theorem SearchNode.collect_fault {word : Word} {tol : Int} {nodes : List BKNode} {tmp_res : List Word} {fault : Fault}
    (h : SearchNode.collect word tol nodes tmp_res = .error fault) : fault = .overflow := by
  induction hsize : queueSize nodes using Nat.strong_induction_on generalizing nodes tmp_res with
  | h size ih =>
    cases nodes with
    | nil =>
      rw [SearchNode.collect] at h
      cases h
    | cons node nodes =>
      rw [SearchNode.collect_cons] at h
      cases hpush : SearchNode.push tol (BKTree.Distance node.label word) node.children.entries nodes with
      | ok pushed =>
        rw [hpush, loop.bind_ok] at h
        have hless := SearchNode.queueSize_push_lt hpush
        exact ih _ (hsize ▸ hless) h rfl
      | error other =>
        rw [hpush] at h
        obtain rfl := Except.error.inj h
        rw [SearchNode.push_eq] at hpush
        split at hpush
        · cases hpush
        · exact (Except.error.inj hpush).symm

theorem BKTree.SearchNode_fault {tree : BKTree} {word : Word} {tol : Int} {result : List Word} {fault : Fault}
    (h : tree.SearchNode word tol result = .error fault) : fault = .overflow := by
  rw [BKTree.SearchNode] at h
  cases hphase : SearchNode.collect word tol [tree.root] [] with
  | ok tmp_res =>
    rw [hphase] at h
    cases h
  | error other =>
    rw [hphase] at h
    exact Except.error.inj h ▸ SearchNode.collect_fault hphase

/-- The only fault of a run is an overflow in a search. -/
theorem runTree_fault {state : List (List Word) × BKTree} {calls : List Operation} {fault : Fault}
    (h : runTree state calls = .error fault) : fault = .overflow := by
  induction calls generalizing state with
  | nil => cases h
  | cons call calls ih =>
    rw [runTree, List.foldlM_cons] at h
    cases call with
    | AddNode word => exact ih h
    | SearchNode word tol =>
      rw [callTree] at h
      cases hresult : state.2.SearchNode word tol [] with
      | ok result =>
        rw [hresult] at h
        exact ih h
      | error other =>
        rw [hresult] at h
        exact Except.error.inj h ▸ BKTree.SearchNode_fault hresult

/-- Calls with short words on a valid tree run without a fault. -/
theorem runTree_ok {tree : BKTree} (hvalid : tree.Valid) {calls : List Operation}
    (hcalls : ∀ call ∈ calls, Short call.word) (found : List (List Word)) :
    ∃ state, runTree (found, tree) calls = .ok state := by
  induction calls generalizing tree found with
  | nil => exact ⟨_, rfl⟩
  | cons call calls ih =>
    rw [List.forall_mem_cons] at hcalls
    obtain ⟨hword, hcalls⟩ := hcalls
    rw [runTree, List.foldlM_cons]
    cases call with
    | AddNode word => exact ih (tree.AddNode_valid hvalid hword) hcalls found
    | SearchNode word tol =>
      have hsearch := tree.SearchNode_spec hvalid hword tol []
      simp only [callTree, Operation.word] at hsearch ⊢
      rw [hsearch]
      exact ih hvalid hcalls _

/-- Any sequence of insertions and searches on a new tree, on its nodes in memory
    and on whatever table the thread has, follows no dangling pointer, ends, and
    finds what the same calls find on the tree; in the end the nodes in memory
    form that tree. No loop takes more rounds than there are calls, and one. Only
    a search can fault, where an `int` overflows, and it does so in memory where it
    does so on the tree, and never among words shorter than `2^31` bytes. -/
theorem runMemory_eq_runTree (root : Word) (dp : Table) (calls : List Operation) :
    ∃ heap dp', (∀ fuel, calls.length < fuel → runMemory fuel 0 [] [⟨root, []⟩] dp calls =
        (runTree ([], .new root) calls).map fun state => some (state.1, heap, dp')) ∧
      (∀ state, runTree ([], .new root) calls = .ok state → Holds heap 0 state.2.root) ∧
      (∀ fault, runTree ([], .new root) calls = .error fault → fault = .overflow) ∧
      (Short root → (∀ call ∈ calls, Short call.word) → ∃ state, runTree ([], .new root) calls = .ok state) := by
  obtain ⟨heap, dp', hrun, hend⟩ := runMemory_eq (BKTree.holds_new root) dp calls []
  rw [BKTree.length_nodes_new] at hrun
  exact ⟨heap, dp', fun fuel hfuel => hrun fuel (by omega), hend, fun fault => runTree_fault,
    fun hroot hcalls => runTree_ok (BKTree.valid_new hroot) hcalls []⟩

/-- A word of `2^31` bytes below an empty root has the key `-2^31`, from which a
    search for a letter subtracts the distance one. -/
theorem runTree_overflows : runTree ([], .new []) [.AddNode (List.replicate 2147483648 97), .SearchNode [98] 2] =
    .error .overflow := by
  have hdist := Distance_nil_of_length (List.length_replicate (n := 2147483648) (a := (97 : Byte)))
  generalize List.replicate 2147483648 (97 : Byte) = word at hdist ⊢
  have hadd : (BKTree.new []).AddNode word = ⟨⟨[], .cons (-2147483648) word .nil .nil⟩⟩ := by
    rw [BKTree.new, BKNode.new, BKTree.AddNode, hdist, if_neg (by decide)]
    rfl
  have hquery : BKTree.Distance [] [98] = 1 := by decide +kernel
  have hpush : SearchNode.push 2 1 [(-2147483648, (⟨word, .nil⟩ : BKNode))] [] = .error .overflow := rfl
  rw [runTree, List.foldlM_cons, callTree, loop.bind_ok, hadd, List.foldlM_cons, callTree, BKTree.SearchNode,
    SearchNode.collect_cons, hquery, Children.entries_cons, Children.entries_nil, hpush]
  rfl

end Runs

end spellcheck.bk_tree
