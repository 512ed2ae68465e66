import SpellChecker.BKTree.Heap
import SpellChecker.Data.Lines
import SpellChecker.Data.Numeral
import SpellChecker.Data.Outline

open keyed_tree linked_tree lines numeral outline
open spellcheck.edit_distance

namespace spellcheck.bk_tree

/-- The line `PrintTree` writes for a node. -/
def printRow (row : Row Int Word) : Word :=
  List.replicate row.depth 32 ++ integer row.key ++ [58, 32] ++ row.label

/-- The `while` loop of `BKTree::PrintTree` on the stack `nodes`, the top first,
    behind what is already in `cout`. -/
def PrintTreeOn.loop (heap : Heap Int Word) : ℕ → List (ℕ × ℕ × Int) → Word → Except Fault (Option Word)
  | _, [], cout => .ok (some cout)
  | 0, _ :: _, _ => .ok none
  | fuel + 1, (current, current_depth, current_distance) :: nodes, cout => do
    let cell ← vecAt heap (current : ℕ)
    let cout := cout ++ (printRow ⟨current_depth, current_distance, cell.label⟩ ++ [newline])
    -- from `rbegin()` to `rend()`, so that the first child comes to the top
    let nodes := cell.children.foldr (fun child nodes => (child.2, current_depth + 1, child.1) :: nodes) nodes
    loop heap fuel nodes cout

/-- `BKTree::PrintTree` on the nodes in memory. -/
def PrintTreeOn (fuel : ℕ) (heap : Heap Int Word) (root : ℕ) : Except Fault (Option Word) :=
  PrintTreeOn.loop heap fuel [(root, 0, 0)] []

/-- What a line of `PrintTree` says. -/
def readRow (line : Word) : Row Int Word :=
  let depth := (line.takeWhile (· = 32)).length
  let number := (line.drop depth).takeWhile (· ≠ 58)
  ⟨depth, readInteger number, line.drop (depth + number.length + 2)⟩

/-- The tree that what `PrintTree` has written shows. -/
def readDump (text : Word) : Option BKTree := (readTree ((segments newline text).map readRow)).map BKTree.mk

section Loop

variable {heap : Heap Int Word}

theorem foldr_push (entries : List (Int × ℕ)) (depth : ℕ) (nodes : List (ℕ × ℕ × Int)) :
    entries.foldr (fun child nodes => (child.2, depth + 1, child.1) :: nodes) nodes =
      entries.map (fun child => (child.2, depth + 1, child.1)) ++ nodes := by
  induction entries with
  | nil => rfl
  | cons child entries ih => rw [List.foldr_cons, ih, List.map_cons, List.cons_append]

/-- The stack of addresses follows a stack of subtrees, of which the loop writes the rows. -/
theorem PrintTreeOn.loop_eq {nodes : List (ℕ × ℕ × Int)} {stack : List (BKNode × ℕ × Int)}
    (h : List.Forall₂ (fun node frame => Holds heap node.1 frame.1 ∧ node.2 = frame.2) nodes stack) (cout : Word)
    {fuel : ℕ} (hfuel : queueSize (stack.map Prod.fst) ≤ fuel) :
    PrintTreeOn.loop heap fuel nodes cout = .ok (some (cout ++
      unlines newline ((stack.flatMap fun frame => treeRows frame.2.1 frame.2.2 frame.1).map printRow))) := by
  induction fuel generalizing nodes stack cout with
  | zero =>
    cases h with
    | nil => simp [PrintTreeOn.loop]
    | cons => simp [Tree.nodes] at hfuel
  | succ fuel ih =>
    cases h with
    | nil => simp [PrintTreeOn.loop]
    | @cons node frame nodes stack hnode hnodes =>
      obtain ⟨address, depth, distance⟩ := node
      obtain ⟨⟨label, children⟩, row⟩ := frame
      obtain ⟨⟨entries, places, hcell, hlinked, hnodup⟩, hrow⟩ := hnode
      obtain rfl : row = (depth, distance) := hrow.symm
      have hchildren : List.Forall₂ (fun node frame => Holds heap node.1 frame.1 ∧ node.2 = frame.2)
          (entries.map fun child => (child.2, depth + 1, child.1))
          (children.entries.map fun child => (child.2, depth + 1, child.1)) := by
        rw [List.forall₂_map_left_iff, List.forall₂_map_right_iff]
        refine (hlinked.forall_entries (List.nodup_cons.mp hnodup).2).imp fun entry child hsame => ?_
        exact ⟨hsame.2, by rw [hsame.1]⟩
      have hless := queueSize_subtrees_lt ⟨label, children⟩ (stack.map Prod.fst)
      rw [PrintTreeOn.loop, vecAt_of_getElem? hcell, loop.bind_ok]
      simp only
      rw [foldr_push, ih (List.rel_append hchildren hnodes)]
      · rw [List.flatMap_cons, treeRows, rows_eq_flatMap, List.flatMap_append, List.flatMap_map]
        simp
      · simp only [Tree.subtrees, List.map_cons, List.map_append, List.map_map, queueSize_append] at hless hfuel ⊢
        have hpushed : (children.entries.map ((Prod.fst : BKNode × ℕ × Int → BKNode) ∘
            fun child => (child.2, depth + 1, child.1))) = children.entries.map Prod.snd := rfl
        rw [hpushed]
        omega

/-- `PrintTree` on the tree at an address follows no dangling pointer and ends
    after one round for each node. -/
theorem PrintTreeOn_eq {root : ℕ} {tree : BKTree} (h : Holds heap root tree.root) {fuel : ℕ}
    (hfuel : tree.root.nodes.length ≤ fuel) :
    PrintTreeOn fuel heap root = .ok (some (unlines newline ((treeRows 0 0 tree.root).map printRow))) := by
  have hstack : List.Forall₂ (fun (node : ℕ × ℕ × Int) (frame : BKNode × ℕ × Int) =>
      Holds heap node.1 frame.1 ∧ node.2 = frame.2) [(root, 0, 0)] [(tree.root, 0, 0)] := .cons ⟨h, rfl⟩ .nil
  rw [PrintTreeOn, PrintTreeOn.loop_eq hstack [] (by simpa using hfuel)]
  simp

end Loop

section Read

/-- The line of a row says what is in the row. -/
theorem readRow_printRow (row : Row Int Word) : readRow (printRow row) = row := by
  obtain ⟨c, digits, hinteger⟩ := List.exists_cons_of_ne_nil (integer_ne_nil row.key)
  have hcolon : (58 : Byte) ∉ integer row.key := fun h => absurd (mem_integer h) (by decide)
  have hblank : c ≠ 32 := by
    rintro rfl
    exact absurd (mem_integer (n := row.key) (c := 32) (by simp [hinteger])) (by decide)
  have hline : printRow row = List.replicate row.depth 32 ++ (integer row.key ++ 58 :: 32 :: row.label) := by
    simp [printRow]
  have hdepth : ((printRow row).takeWhile (· = 32)).length = row.depth := by
    rw [hline, List.takeWhile_append_of_pos (by simp), hinteger, List.cons_append,
      List.takeWhile_cons_of_neg (by simpa using hblank), List.append_nil, List.length_replicate]
  have hrest : (printRow row).drop row.depth = integer row.key ++ 58 :: 32 :: row.label := by
    rw [hline, List.drop_left' List.length_replicate]
  have hlabel : (printRow row).drop (row.depth + (integer row.key).length + 2) = row.label := by
    rw [Nat.add_assoc, ← List.drop_drop, hrest, ← List.drop_drop, List.drop_left]
    rfl
  rw [readRow]
  simp only [hdepth, hrest, takeWhile_line hcolon, readInteger_integer, hlabel]

theorem newline_notMem_printRow {row : Row Int Word} (h : newline ∉ row.label) : newline ∉ printRow row := by
  have hinteger : newline ∉ integer row.key := fun h => absurd (mem_integer h) (by decide)
  have hblank : newline ≠ 32 := by decide
  have hcolon : newline ≠ 58 := by decide
  simp [printRow, hinteger, h, hblank, hcolon]

/-- What `PrintTree` writes shows the tree, if no word has a line break. -/
theorem readDump_unlines {tree : BKTree} (h : ∀ label ∈ tree.root.labels, newline ∉ label) :
    readDump (unlines newline ((treeRows 0 0 tree.root).map printRow)) = some tree := by
  have hlabels : ∀ row ∈ treeRows 0 0 tree.root, newline ∉ row.label := by
    intro row hrow
    have hmem := List.mem_map_of_mem (f := Row.label) hrow
    rw [treeRows, List.map_cons, map_label_rows] at hmem
    exact h row.label hmem
  have hlines : ∀ line ∈ (treeRows 0 0 tree.root).map printRow, newline ∉ line :=
    List.forall_mem_map.mpr fun row hrow => newline_notMem_printRow (hlabels row hrow)
  have hkeep : ((treeRows 0 0 tree.root).map printRow).filter (· ≠ []) = (treeRows 0 0 tree.root).map printRow :=
    List.filter_eq_self.mpr fun line hline => by
      obtain ⟨row, -, rfl⟩ := List.mem_map.mp hline
      simp [printRow]
  have hrows : ((treeRows 0 0 tree.root).map printRow).map readRow = treeRows 0 0 tree.root := by
    rw [List.map_map]
    exact (List.map_congr_left fun row _ => readRow_printRow row).trans (List.map_id _)
  rw [readDump, segments_unlines hlines, hkeep, hrows, readTree_treeRows]
  rfl

end Read

section Runs

/-- The descent stops at a stored node, or adds a leaf. -/
theorem descend_cases (word : Word) (dist : Int) (children : Children Int Word) :
    AddNode.descend word dist children = children ∨
      AddsLeaf word children (AddNode.descend word dist children) := by
  induction children generalizing dist with
  | nil => exact .inr (.here dist .nil)
  | cons key label children rest ihchildren ihrest =>
    rw [AddNode.descend]
    split
    · exact .inr (.here dist _)
    · split
      · simp only
        split
        · exact .inl rfl
        · exact (ihchildren _).imp (fun hsame => by rw [hsame]) (.inside key label rest)
      · exact (ihrest dist).imp (fun hsame => by rw [hsame]) (.later key label children)

/-- `AddNode` adds its word to what is stored, or nothing. -/
theorem AddNode_labels (tree : BKTree) (word : Word) :
    tree.AddNode word = tree ∨ (tree.AddNode word).root.labels.Perm (word :: tree.root.labels) := by
  obtain ⟨⟨label, children⟩⟩ := tree
  rw [BKTree.AddNode]
  split
  · exact .inl rfl
  · refine (descend_cases word _ children).imp (fun hsame => by rw [hsame]) fun hleaf => ?_
    simp only [Tree.labels_eq]
    exact (hleaf.labels_perm.cons label).trans (List.Perm.swap _ _ _)

/-- The words that a sequence of calls adds. -/
def added (calls : List Operation) : List Word := calls.filterMap fun
  | .AddNode word => some word
  | .SearchNode _ _ => none

/-- A run stores at most what it adds. -/
theorem runTree_labels {tree : BKTree} {calls : List Operation} {found : List (List Word)}
    {state : List (List Word) × BKTree} (h : runTree (found, tree) calls = .ok state) :
    state.2.root.nodes.length ≤ tree.root.nodes.length + calls.length ∧
      ∀ label ∈ state.2.root.labels, label ∈ tree.root.labels ∨ label ∈ added calls := by
  induction calls generalizing tree found with
  | nil =>
    obtain rfl := Except.ok.inj h
    exact ⟨Nat.le_add_right _ _, fun label h => .inl h⟩
  | cons call calls ih =>
    rw [runTree, List.foldlM_cons, loop.bind_eq_ok_iff] at h
    obtain ⟨next, hnext, hrest⟩ := h
    cases call with
    | SearchNode word tol =>
      rw [callTree, loop.bind_eq_ok_iff] at hnext
      obtain ⟨result, -, hnext⟩ := hnext
      obtain rfl := Except.ok.inj hnext
      obtain ⟨hlength, hlabels⟩ := ih hrest
      exact ⟨hlength.trans (by simp), hlabels⟩
    | AddNode word =>
      obtain rfl := Except.ok.inj hnext
      have hstep := AddNode_labels tree word
      generalize tree.AddNode word = next at hstep hrest
      obtain ⟨hlength, hlabels⟩ := ih hrest
      have hnext : next.root.nodes.length ≤ tree.root.nodes.length + 1 ∧
          ∀ label ∈ next.root.labels, label ∈ tree.root.labels ∨ label = word := by
        rcases hstep with rfl | hperm
        · exact ⟨Nat.le_succ _, fun label h => .inl h⟩
        · refine ⟨?_, fun label h => ?_⟩
          · have := hperm.length_eq
            simp only [Tree.labels, List.length_map, List.length_cons] at this
            omega
          · exact (List.mem_cons.mp (hperm.mem_iff.mp h)).symm
      refine ⟨hlength.trans (by simp only [List.length_cons]; omega), fun label h => ?_⟩
      rcases hlabels label h with h | h
      · exact (hnext.2 label h).imp_right fun heq => by simp [added, heq]
      · exact .inr (List.mem_cons_of_mem _ h)

/-- After any sequence of insertions and searches in which no search overflows an
    `int`, `PrintTree` on the nodes in memory follows no dangling pointer and ends,
    and from what it writes the tree can be read back, with every key and the place
    of every node, if the words have no line breaks. -/
theorem PrintTreeOn_readDump (root : Word) (dp : Table) (calls : List Operation)
    {state : List (List Word) × BKTree} (hstate : runTree ([], .new root) calls = .ok state)
    (hwords : ∀ word ∈ root :: added calls, newline ∉ word) :
    ∃ heap dp' text, (∀ fuel, calls.length < fuel →
        runMemory fuel 0 [] [⟨root, []⟩] dp calls = .ok (some (state.1, heap, dp')) ∧
        PrintTreeOn fuel heap 0 = .ok (some text)) ∧
      readDump text = some state.2 := by
  obtain ⟨heap, dp', hrun, hholds⟩ := runMemory_eq (BKTree.holds_new root) dp calls []
  obtain ⟨hlength, hlabels⟩ := runTree_labels hstate
  rw [BKTree.length_nodes_new] at hrun hlength
  rw [hstate] at hrun
  refine ⟨heap, dp', _, fun fuel hfuel =>
    ⟨hrun fuel (by omega), PrintTreeOn_eq (hholds state hstate) (by omega)⟩, ?_⟩
  refine readDump_unlines fun label hlabel => hwords label ?_
  rcases hlabels label hlabel with h | h
  · exact List.mem_cons.mpr (.inl (List.mem_singleton.mp h))
  · exact List.mem_cons_of_mem _ h

/-- A root, one more word, and a search that finds both. -/
theorem PrintTreeOn_readDump_small :
    ∃ heap dp' text, (∀ fuel, 2 < fuel →
        runMemory fuel 0 [] [⟨[97], []⟩] [] [.AddNode [98], .SearchNode [99] 2] =
          .ok (some ([[[97], [98]]], heap, dp')) ∧
        PrintTreeOn fuel heap 0 = .ok (some text)) ∧
      readDump text = some ⟨⟨[97], .cons 1 [98] .nil .nil⟩⟩ := by
  have hstate : runTree ([], .new [97]) [.AddNode [98], .SearchNode [99] 2] =
      .ok ([[[97], [98]]], ⟨⟨[97], .cons 1 [98] .nil .nil⟩⟩) := by decide +kernel
  exact PrintTreeOn_readDump [97] [] _ hstate (by decide)

/-- The dump of a root and two words of which one stands below the other. -/
example : unlines newline ((treeRows 0 0 ⟨[97], .cons 1 [98] (.cons 2 [99, 100] .nil .nil) .nil⟩).map printRow) =
    [48, 58, 32, 97, 10, 32, 49, 58, 32, 98, 10, 32, 32, 50, 58, 32, 99, 100, 10] := by decide

end Runs

end spellcheck.bk_tree
