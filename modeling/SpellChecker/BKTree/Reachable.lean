import SpellChecker.BKTree.Insert

open keyed_tree
open spellcheck.edit_distance

namespace spellcheck.bk_tree

/-- A tree as any sequence of insertions of short words leaves it. -/
structure BKTree.Valid (tree : BKTree) : Prop where
  invariant : Invariant tree.root
  nodup : tree.root.labels.Nodup
  short : ∀ w ∈ tree.root.labels, Short w

theorem BKTree.Valid.short_of_mem_nodes {tree : BKTree} (h : tree.Valid) {u : BKNode} (hu : u ∈ tree.root.nodes) :
    ∀ w ∈ u.labels, Short w := by
  intro w hw
  obtain ⟨v, hv, rfl⟩ := List.mem_map.mp hw
  exact h.short v.label (List.mem_map.mpr ⟨v, Tree.nodes_trans hu hv, rfl⟩)

theorem BKTree.valid_new {word : Word} (h : Short word) : (BKTree.new word).Valid :=
  ⟨invariant_new word, by simp [BKTree.new, BKNode.new], by simpa [BKTree.new, BKNode.new] using h⟩

/-- `AddNode` leaves the tree alone when the word is stored anywhere in it, and
    otherwise adds one leaf and changes nothing else. -/
theorem BKTree.AddNode_step {tree : BKTree} (hvalid : tree.Valid) {word : Word} (hword : Short word) :
    if word ∈ tree.root.labels then tree.AddNode word = tree
    else (tree.AddNode word).root.label = tree.root.label ∧
      AddsLeaf word tree.root.children (tree.AddNode word).root.children := by
  obtain ⟨⟨label, children⟩⟩ := tree
  have hlabel : Short label := hvalid.short label (by simp)
  simp only [Tree.labels_eq, List.mem_cons]
  by_cases hroot : BKTree.Distance label word = 0
  · have hsame := (Distance_eq_zero_iff hlabel hword).mp hroot
    rw [if_pos (.inl hsame.symm), BKTree.AddNode, if_pos hroot]
  · have hne : word ≠ label := fun h => hroot ((Distance_eq_zero_iff hlabel hword).mpr h.symm)
    have hbelow := descend_spec hword hvalid.invariant
      (fun w hw => hvalid.short w (List.mem_cons_of_mem _ hw)) (Distance_eq hlabel hword).symm
    rw [BKTree.AddNode, if_neg hroot]
    by_cases hin : word ∈ stored children
    · rw [if_pos hin] at hbelow
      rw [if_pos (.inr hin)]
      simp only [hbelow]
    · rw [if_neg hin] at hbelow
      rw [if_neg (by rintro (h | h); exacts [hne h, hin h])]
      exact ⟨rfl, hbelow⟩

theorem BKTree.mem_labels_AddNode {tree : BKTree} (hvalid : tree.Valid) {word : Word} (hword : Short word)
    (w : Word) : w ∈ (tree.AddNode word).root.labels ↔ w = word ∨ w ∈ tree.root.labels := by
  have hstep := tree.AddNode_step hvalid hword
  generalize tree.AddNode word = after at hstep ⊢
  split at hstep
  · rename_i hin
    rw [hstep]
    constructor
    · exact .inr
    · rintro (rfl | h)
      · exact hin
      · exact h
  · have hbelow := hstep.2.labels_perm.mem_iff (a := w)
    simp only [Tree.labels_eq, List.mem_cons, hstep.1] at hbelow ⊢
    rw [hbelow, or_left_comm]

theorem BKTree.AddNode_invariant {tree : BKTree} (hvalid : tree.Valid) {word : Word} (hword : Short word) :
    Invariant (tree.AddNode word).root := by
  obtain ⟨⟨label, children⟩⟩ := tree
  have hlabel : Short label := hvalid.short label (by simp)
  have hdist := Distance_eq hlabel hword
  rw [BKTree.AddNode]
  generalize BKTree.Distance label word = dist at hdist ⊢
  by_cases hroot : dist = 0
  · simpa [hroot] using hvalid.invariant
  · rw [if_neg hroot]
    exact descend_preserves_invariant hword hvalid.invariant
      (fun w hw => hvalid.short w (List.mem_cons_of_mem _ hw)) hdist.symm (by omega)

/-- `AddNode` keeps a tree valid. -/
theorem BKTree.AddNode_valid {tree : BKTree} (hvalid : tree.Valid) {word : Word} (hword : Short word) :
    (tree.AddNode word).Valid := by
  have hstep := tree.AddNode_step hvalid hword
  have hinvariant := tree.AddNode_invariant hvalid hword
  have hmem := tree.mem_labels_AddNode hvalid hword
  generalize tree.AddNode word = after at hstep hinvariant hmem ⊢
  split at hstep
  · rwa [hstep]
  · rename_i hin
    have hperm : after.root.labels.Perm (word :: tree.root.labels) := by
      simp only [Tree.labels_eq, hstep.1]
      exact (hstep.2.labels_perm.cons _).trans (List.Perm.swap _ _ _)
    refine ⟨hinvariant, hperm.nodup_iff.mpr (List.nodup_cons.mpr ⟨hin, hvalid.nodup⟩), ?_⟩
    intro w hw
    cases (hmem w).mp hw with
    | inl heq =>
      subst heq
      exact hword
    | inr hw => exact hvalid.short w hw

/-- Any sequence of insertions keeps a tree valid and stores exactly the words
    that were there and the words inserted. -/
theorem BKTree.foldl_AddNode {tree : BKTree} (hvalid : tree.Valid) {words : List Word}
    (hwords : ∀ w ∈ words, Short w) :
    (words.foldl BKTree.AddNode tree).Valid ∧
      ∀ w, w ∈ (words.foldl BKTree.AddNode tree).root.labels ↔ w ∈ words ∨ w ∈ tree.root.labels := by
  induction words generalizing tree with
  | nil => simpa using hvalid
  | cons word words ih =>
    have hword := hwords word (by simp)
    obtain ⟨hnext, hmem⟩ := ih (tree.AddNode_valid hvalid hword) fun w hw => hwords w (by simp [hw])
    rw [List.foldl_cons]
    refine ⟨hnext, fun w => ?_⟩
    rw [hmem, tree.mem_labels_AddNode hvalid hword, List.mem_cons, or_left_comm, or_assoc]

theorem BKTree.foldl_AddNode_new {root : Word} (hroot : Short root) {words : List Word}
    (hwords : ∀ w ∈ words, Short w) :
    (words.foldl BKTree.AddNode (.new root)).Valid ∧
      ∀ w, w ∈ (words.foldl BKTree.AddNode (.new root)).root.labels ↔ w = root ∨ w ∈ words := by
  obtain ⟨hvalid, hmem⟩ := BKTree.foldl_AddNode (BKTree.valid_new hroot) hwords
  refine ⟨hvalid, fun w => ?_⟩
  rw [hmem, or_comm]
  simp [BKTree.new, BKNode.new]

/-- The representation invariant of every tree built from words shorter than
    `2^31` bytes, for any root and any sequence of `AddNode` calls, and what one
    more call does to it. -/
theorem BKTree.AddNode_representation (root : Word) (words : List Word) (hroot : Short root)
    (hwords : ∀ w ∈ words, Short w) :
    (∀ u ∈ (words.foldl BKTree.AddNode (.new root)).root.nodes, ∀ key child,
      (key, child) ∈ u.children.entries →
        1 ≤ key ∧ ∀ w ∈ child.labels, (EditDistance u.label w : Int) = key) ∧
    (words.foldl BKTree.AddNode (.new root)).root.labels.Nodup ∧
    (∀ w, w ∈ (words.foldl BKTree.AddNode (.new root)).root.labels ↔ w = root ∨ w ∈ words) ∧
    ∀ word, Short word →
      ((words.foldl BKTree.AddNode (.new root)).AddNode word = words.foldl BKTree.AddNode (.new root) ↔
        word ∈ (words.foldl BKTree.AddNode (.new root)).root.labels) ∧
      (word ∉ (words.foldl BKTree.AddNode (.new root)).root.labels →
        ((words.foldl BKTree.AddNode (.new root)).AddNode word).root.label =
          (words.foldl BKTree.AddNode (.new root)).root.label ∧
        AddsLeaf word (words.foldl BKTree.AddNode (.new root)).root.children
          ((words.foldl BKTree.AddNode (.new root)).AddNode word).root.children) := by
  obtain ⟨hvalid, hmem⟩ := BKTree.foldl_AddNode_new hroot hwords
  generalize words.foldl BKTree.AddNode (.new root) = tree at hvalid hmem ⊢
  refine ⟨fun u hu key child h => (hvalid.invariant u hu).exact key child h, hvalid.nodup, hmem, ?_⟩
  intro word hword
  have hstep := tree.AddNode_step hvalid hword
  by_cases hin : word ∈ tree.root.labels
  · rw [if_pos hin] at hstep
    exact ⟨⟨fun _ => hin, fun _ => hstep⟩, fun hout => absurd hin hout⟩
  · rw [if_neg hin] at hstep
    refine ⟨⟨fun hsame => ?_, fun h => absurd h hin⟩, fun _ => hstep⟩
    rw [hsame] at hstep
    exact absurd rfl hstep.2.ne

/-- A small tree: `ab` and `b` under `a`, both at distance one. -/
theorem BKTree.AddNode_representation_small :
    (∀ w, w ∈ ([[97, 98], [98]].foldl BKTree.AddNode (.new [97])).root.labels ↔
      w = [97] ∨ w ∈ [[97, 98], [98]]) ∧
    ([[97, 98], [98]].foldl BKTree.AddNode (.new [97])).AddNode [98] =
      [[97, 98], [98]].foldl BKTree.AddNode (.new [97]) := by
  have h := BKTree.AddNode_representation [97] [[97, 98], [98]] (by decide)
    (by decide)
  exact ⟨h.2.2.1, (h.2.2.2 [98] (by decide)).1.mpr ((h.2.2.1 [98]).mpr (by simp))⟩

/-- The distance from the empty word to a word of `2^31` bytes is no `int`. -/
theorem Distance_nil_of_length {word : Word} (h : word.length = 2147483648) :
    BKTree.Distance [] word = -2147483648 := by
  rw [BKTree.Distance, EditDistance_eq_lev, edit_script.lev_nil_left, h]
  decide

/-- Without a bound on the words a child key can be negative: the cast of the
    distance to `int` wraps. -/
theorem BKTree.AddNode_negative_key :
    ¬ ∀ u ∈ ((BKTree.new []).AddNode (List.replicate 2147483648 97)).root.nodes, ∀ key child,
      (key, child) ∈ u.children.entries → 1 ≤ key := by
  have hdist := Distance_nil_of_length (List.length_replicate (n := 2147483648) (a := (97 : Byte)))
  generalize List.replicate 2147483648 (97 : Byte) = word at hdist ⊢
  have hadd : ((BKTree.new []).AddNode word).root = ⟨[], .cons (-2147483648) word .nil .nil⟩ := by
    simp [BKTree.AddNode, BKTree.new, BKNode.new, hdist, AddNode.descend]
  intro h
  have := h ⟨[], .cons (-2147483648) word .nil .nil⟩ (by simp [hadd, Tree.nodes]) (-2147483648)
    ⟨word, .nil⟩ (by simp)
  omega

end spellcheck.bk_tree
