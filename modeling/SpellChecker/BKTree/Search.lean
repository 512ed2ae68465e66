import SpellChecker.BKTree.Reachable

open keyed_tree
open spellcheck.edit_distance

namespace spellcheck.bk_tree

/-- No difference of a key of the node and its distance from the word overflows. -/
def SearchNode.Fits (word : Word) (u : BKNode) : Prop :=
  ∀ child ∈ u.children.entries, IsInt |child.1 - BKTree.Distance u.label word|

theorem SearchNode.push_of_fits {word : Word} {node : BKNode} (h : SearchNode.Fits word node) (tol : Int)
    (nodes : List BKNode) :
    SearchNode.push tol (BKTree.Distance node.label word) node.children.entries nodes =
      .ok (nodes ++ (node.children.entries.filter fun child =>
        SearchNode.admits tol (BKTree.Distance node.label word) child.1).map Prod.snd) := by
  rw [SearchNode.push_eq]
  exact if_pos h

/-- The first loop of `SearchNode` is a queue walk that records the words
    within the tolerance. -/
theorem SearchNode.collect_eq_walk (word : Word) (tol : Int) {nodes : List BKNode}
    (hfits : ∀ node ∈ nodes, ∀ u ∈ node.nodes, SearchNode.Fits word u) (tmp_res : List Word) :
    SearchNode.collect word tol nodes tmp_res =
      .ok (tmp_res ++ (walk (fun label key => SearchNode.admits tol (BKTree.Distance label word) key) nodes).filter
        fun label => BKTree.Distance label word ≤ tol) := by
  generalize hsize : queueSize nodes = size
  induction size using Nat.strong_induction_on generalizing nodes tmp_res with
  | h size ih =>
    cases nodes with
    | nil => simp [SearchNode.collect]
    | cons node nodes =>
      have hlt : queueSize (nodes ++ (node.children.entries.filter fun child =>
          SearchNode.admits tol (BKTree.Distance node.label word) child.1).map Prod.snd) < size := by
        rw [← hsize]
        exact queueSize_round_lt node nodes _
      have hnext : ∀ next ∈ nodes ++ (node.children.entries.filter fun child =>
          SearchNode.admits tol (BKTree.Distance node.label word) child.1).map Prod.snd,
            ∀ u ∈ next.nodes, SearchNode.Fits word u := by
        intro next hmem u hu
        cases List.mem_append.mp hmem with
        | inl hmem => exact hfits next (List.mem_cons_of_mem _ hmem) u hu
        | inr hmem =>
          obtain ⟨⟨key, child⟩, hentry, rfl⟩ := List.mem_map.mp hmem
          refine hfits node List.mem_cons_self u ?_
          exact List.mem_cons_of_mem _ (Children.nodes_of_entry (List.mem_of_mem_filter hentry) hu)
      rw [SearchNode.collect_cons, SearchNode.push_of_fits (hfits node List.mem_cons_self node (by simp [Tree.nodes])),
        loop.bind_ok, ih _ hlt hnext _ rfl, walk, List.filter_cons]
      by_cases hdist : BKTree.Distance node.label word ≤ tol
      · simp [hdist]
      · simp [hdist]

section Exact

variable {u : BKNode} (hok : ChildrenOk u.label u.children) {word : Word} (hword : Short word)
  (hshort : ∀ w ∈ u.labels, Short w)

include hok hword hshort

/-- Keys and distances of short words are both less than `2^31`, and not negative. -/
theorem SearchNode.fits_of_childrenOk : SearchNode.Fits word u := by
  rintro ⟨key, child⟩ hentry
  obtain ⟨hpositive, hexact⟩ := hok.exact key child hentry
  have hlabel : Short u.label := hshort u.label (by simp)
  have hchild : child.label ∈ u.labels :=
    List.mem_map.mpr ⟨child, List.mem_cons_of_mem _ (Children.nodes_of_entry hentry (by simp [Tree.nodes])), rfl⟩
  have hkey := hexact child.label (by simp)
  have hkeyLt := EditDistance_lt hlabel (hshort _ hchild)
  have hdistLt := EditDistance_lt hlabel hword
  have hgap : |key - (EditDistance u.label word : Int)| < 2147483648 := by
    rw [abs_lt]
    omega
  have hnonneg := abs_nonneg (key - (EditDistance u.label word : Int))
  simp only [Distance_eq hlabel hword]
  exact ⟨by omega, hgap⟩

/-- A skipped subtree holds no word within the tolerance: all its words are at
    distance `key` from the node, and the distance is a metric. -/
theorem safeAt_of_childrenOk (tol : Int) :
    SafeAt (fun label key => SearchNode.admits tol (BKTree.Distance label word) key)
      (fun label => BKTree.Distance label word ≤ tol) u := by
  rintro ⟨key, child⟩ hentry hskip w hw
  obtain ⟨-, hexact⟩ := hok.exact key child hentry
  have hlabel : Short u.label := hshort u.label (by simp)
  have hwShort : Short w := by
    obtain ⟨v, hv, rfl⟩ := List.mem_map.mp hw
    exact hshort _ (List.mem_map.mpr ⟨v, List.mem_cons_of_mem _ (Children.nodes_of_entry hentry hv), rfl⟩)
  have hkey := hexact w hw
  have htriangle := edit_script.lev_triangle u.label w word
  have htriangle' := edit_script.lev_triangle u.label word w
  rw [edit_script.lev_comm word w] at htriangle'
  simp only [← EditDistance_eq_lev] at htriangle htriangle'
  simp only [Distance_eq hlabel hword, SearchNode.admits, decide_eq_false_iff_not] at hskip
  simp only [Distance_eq hwShort hword, decide_eq_false_iff_not]
  have hgap := abs_choice (key - (EditDistance u.label word : Int))
  omega

end Exact

section Valid

variable {tree : BKTree} (hvalid : tree.Valid) {word : Word} (hword : Short word)

include hvalid hword

/-- On a valid tree no difference overflows. -/
theorem BKTree.Valid.fits : ∀ u ∈ tree.root.nodes, SearchNode.Fits word u :=
  fun u hu => SearchNode.fits_of_childrenOk (hvalid.invariant u hu) hword (hvalid.short_of_mem_nodes hu)

/-- On a valid tree the first phase finds exactly the words within the
    tolerance, in level order. -/
theorem SearchNode.collect_spec (tol : Int) : SearchNode.collect word tol [tree.root] [] =
    .ok (tree.root.levelOrder.filter fun w => (EditDistance w word : Int) ≤ tol) := by
  have hsafe : ∀ u ∈ tree.root.nodes, SafeAt
      (fun label key => SearchNode.admits tol (BKTree.Distance label word) key)
      (fun label => BKTree.Distance label word ≤ tol) u :=
    fun u hu => safeAt_of_childrenOk (hvalid.invariant u hu) hword (hvalid.short_of_mem_nodes hu) tol
  rw [SearchNode.collect_eq_walk word tol (by simpa using hvalid.fits hword), List.nil_append,
    walk_filter_eq_levelOrder tree.root hsafe]
  refine congrArg Except.ok (List.filter_congr fun w hw => ?_)
  rw [Distance_eq (hvalid.short w ((levelOrder_perm _).mem_iff.mp hw)) hword]

end Valid

/-- The second loop of `SearchNode` appends the words at distance one. -/
theorem SearchNode.foldl_append (word : Word) (tmp_res result : List Word) :
    tmp_res.foldl (fun result res_word =>
      if EditDistance word res_word = 1 then result ++ [res_word] else result) result =
      result ++ tmp_res.filter fun w => EditDistance word w = 1 := by
  induction tmp_res generalizing result with
  | nil => simp
  | cons w tmp_res ih =>
    rw [List.foldl_cons, ih, List.filter_cons]
    by_cases h : EditDistance word w = 1 <;> simp [h]

/-- The words of a tree at distance one from a query, in level order. -/
def BKTree.matches (tree : BKTree) (word : Word) : List Word :=
  tree.root.levelOrder.filter fun w => EditDistance word w = 1

theorem BKTree.SearchNode_spec {tree : BKTree} (hvalid : tree.Valid) {word : Word} (hword : Short word)
    (tol : Int) (result : List Word) :
    tree.SearchNode word tol result = .ok (result ++ if 1 ≤ tol then tree.matches word else []) := by
  rw [BKTree.SearchNode, SearchNode.collect_spec hvalid hword, loop.bind_ok, SearchNode.foldl_append,
    List.filter_filter, loop.pure_eq_ok]
  congr 2
  split
  · rename_i htol
    apply List.filter_congr
    intro w _
    rw [EditDistance_comm w word]
    by_cases h : EditDistance word w = 1 <;> simp [h]
    omega
  · rename_i htol
    rw [List.filter_eq_nil_iff]
    intro w _
    rw [EditDistance_comm w word]
    by_cases h : EditDistance word w = 1 <;> simp [h]
    omega

theorem BKTree.Valid.matches_nodup {tree : BKTree} (hvalid : tree.Valid) (word : Word) :
    (tree.matches word).Nodup :=
  ((levelOrder_perm tree.root).nodup_iff.mpr hvalid.nodup).filter _

theorem BKTree.mem_matches {tree : BKTree} {word w : Word} :
    w ∈ tree.matches word ↔ w ∈ tree.root.labels ∧ edit_script.OneEdit word w := by
  simp [BKTree.matches, (levelOrder_perm tree.root).mem_iff, EditDistance_eq_one_iff, -Tree.labels_eq]

/-- On every tree that insertions reach, with words shorter than `2^31` bytes
    throughout, the pruned search appends the stored words at distance one, each
    once and in the level order of the whole tree, for every tolerance of at
    least one, and nothing otherwise; its first phase finds the stored words
    within the tolerance. -/
theorem BKTree.SearchNode_eq_level_order (root : Word) (words : List Word) (hroot : Short root)
    (hwords : ∀ w ∈ words, Short w) (word : Word) (hword : Short word) (tol : Int) (result : List Word) :
    let tree := words.foldl BKTree.AddNode (.new root)
    let found := tree.root.levelOrder.filter fun w => EditDistance word w = 1
    (∀ u ∈ tree.root.nodes, u.children.entries.Pairwise fun a b => a.1 < b.1) ∧
      tree.SearchNode word tol result = .ok (result ++ (if 1 ≤ tol then found else [])) ∧
      found.Nodup ∧ (∀ w, w ∈ found ↔ w ∈ tree.root.labels ∧ EditDistance word w = 1) ∧
      ∃ tmp_res, SearchNode.collect word tol [tree.root] [] = .ok tmp_res ∧
        tmp_res = tree.root.levelOrder.filter (fun w => (EditDistance w word : Int) ≤ tol) ∧
        ∀ w, w ∈ tmp_res ↔ w ∈ tree.root.labels ∧ (EditDistance w word : Int) ≤ tol := by
  intro tree found
  obtain ⟨hvalid, _⟩ := BKTree.foldl_AddNode_new hroot hwords
  have hmem (w : Word) : w ∈ tree.root.levelOrder ↔ w ∈ tree.root.labels := (levelOrder_perm _).mem_iff
  refine ⟨fun u hu => (hvalid.invariant u hu).ordered, BKTree.SearchNode_spec hvalid hword tol result,
    hvalid.matches_nodup word, fun w => ?_, _, SearchNode.collect_spec hvalid hword tol, rfl, fun w => ?_⟩
  · rw [List.mem_filter, hmem, decide_eq_true_eq]
  · rw [List.mem_filter, hmem, decide_eq_true_eq]

/-- Searching `cat` in a small tree keeps the previous content of the result. -/
theorem BKTree.SearchNode_eq_level_order_small :
    ([[98, 97, 116], [99, 97]].foldl BKTree.AddNode (.new [99, 97, 116])).SearchNode [99, 97, 116] 2 [[120]] =
      .ok ([[120]] ++ ([[98, 97, 116], [99, 97]].foldl BKTree.AddNode
        (.new [99, 97, 116])).root.levelOrder.filter fun w => EditDistance [99, 97, 116] w = 1) :=
  (BKTree.SearchNode_eq_level_order [99, 97, 116] [[98, 97, 116], [99, 97]] (by decide) (by decide)
    [99, 97, 116] (by decide) 2 [[120]]).2.1

/-- A query of `2^31` bytes is at the distance `2^31` from an empty root, which
    the first phase takes for `-2^31` and collects. -/
theorem BKTree.SearchNode_collects_far_word :
    EditDistance [] (List.replicate 2147483648 97) = 2147483648 ∧
      SearchNode.collect (List.replicate 2147483648 97) 0 [(BKTree.new []).root] [] = .ok [[]] := by
  have hlength := List.length_replicate (n := 2147483648) (a := (97 : Byte))
  have hdist := Distance_nil_of_length hlength
  generalize List.replicate 2147483648 (97 : Byte) = word at hlength hdist ⊢
  have hroot : (BKTree.new []).root = ⟨[], .nil⟩ := rfl
  refine ⟨by rw [EditDistance_eq_lev, edit_script.lev_nil_left, hlength], ?_⟩
  rw [hroot, SearchNode.collect_cons, hdist, SearchNode.push_eq]
  simp [SearchNode.collect]

end spellcheck.bk_tree
