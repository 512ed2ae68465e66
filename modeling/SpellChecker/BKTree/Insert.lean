import SpellChecker.BKTree.Basic

open keyed_tree
open spellcheck.edit_distance

namespace spellcheck.bk_tree

/-- What the child map of a node with word `parent` satisfies: keys increase,
    and each key is the positive distance of `parent` to every word stored
    under it. -/
structure ChildrenOk (parent : Word) (children : Children Int Word) : Prop where
  ordered : children.entries.Pairwise fun a b => a.1 < b.1
  exact : ∀ key child, (key, child) ∈ children.entries →
    1 ≤ key ∧ ∀ w ∈ child.labels, (EditDistance parent w : Int) = key

/-- The representation invariant: it holds at every node of the tree. -/
def Invariant (node : BKNode) : Prop := ∀ u ∈ node.nodes, ChildrenOk u.label u.children

theorem ChildrenOk.cons_iff {parent label : Word} {key : Int} {children rest : Children Int Word} :
    ChildrenOk parent (.cons key label children rest) ↔
      (∀ entry ∈ rest.entries, key < entry.1) ∧ 1 ≤ key ∧
        (∀ w ∈ (⟨label, children⟩ : BKNode).labels, (EditDistance parent w : Int) = key) ∧
        ChildrenOk parent rest := by
  constructor
  · rintro ⟨hordered, hexact⟩
    rw [Children.entries_cons, List.pairwise_cons] at hordered
    have hhead := hexact key ⟨label, children⟩ (by simp)
    exact ⟨hordered.1, hhead.1, hhead.2, hordered.2, fun k c h => hexact k c (by simp [h])⟩
  · rintro ⟨hlt, hpos, hhead, hrest⟩
    refine ⟨?_, ?_⟩
    · rw [Children.entries_cons, List.pairwise_cons]
      exact ⟨hlt, hrest.ordered⟩
    · intro k c h
      rw [Children.entries_cons, List.mem_cons] at h
      cases h with
      | inl h =>
        obtain ⟨rfl, rfl⟩ := Prod.mk.injEq .. ▸ h
        exact ⟨hpos, hhead⟩
      | inr h => exact hrest.exact k c h

/-- The words stored below a child map. -/
abbrev stored (children : Children Int Word) : List Word := children.nodes.map Tree.label

/-- Every word stored below a node is at the distance one of its keys names. -/
theorem ChildrenOk.exists_key {parent w : Word} {children : Children Int Word} (hok : ChildrenOk parent children)
    (hw : w ∈ stored children) : ∃ entry ∈ children.entries, (EditDistance parent w : Int) = entry.1 := by
  obtain ⟨u, hu, hlabel⟩ := List.mem_map.mp hw
  rw [Children.nodes_eq_flatMap] at hu
  obtain ⟨entry, hentry, hu⟩ := List.mem_flatMap.mp hu
  exact ⟨entry, hentry, (hok.exact entry.1 entry.2 hentry).2 w (List.mem_map.mpr ⟨u, hu, hlabel⟩)⟩

theorem invariant_iff {parent : Word} {children : Children Int Word} :
    Invariant ⟨parent, children⟩ ↔
      ChildrenOk parent children ∧ ∀ u ∈ children.nodes, ChildrenOk u.label u.children := by
  rw [Invariant, Tree.nodes, List.forall_mem_cons]

theorem invariant_leaf (word : Word) : Invariant ⟨word, .nil⟩ :=
  invariant_iff.mpr ⟨⟨by simp, by simp⟩, by simp⟩

theorem invariant_new (word : Word) : Invariant (BKNode.new word) := invariant_leaf word

/-- The invariant, read off the first child and the rest of the child map. -/
theorem invariant_cons_iff {parent label : Word} {key : Int} {children rest : Children Int Word} :
    Invariant ⟨parent, .cons key label children rest⟩ ↔
      (∀ entry ∈ rest.entries, key < entry.1) ∧ 1 ≤ key ∧
        (∀ w ∈ (⟨label, children⟩ : BKNode).labels, (EditDistance parent w : Int) = key) ∧
        Invariant ⟨label, children⟩ ∧ Invariant ⟨parent, rest⟩ := by
  rw [invariant_iff, invariant_iff, invariant_iff, ChildrenOk.cons_iff, Children.nodes_cons,
    List.forall_mem_cons, List.forall_mem_append]
  constructor
  · rintro ⟨⟨hlt, hpos, hhead, hrest⟩, hchild, hchildren, hnodes⟩
    exact ⟨hlt, hpos, hhead, ⟨hchild, hchildren⟩, hrest, hnodes⟩
  · rintro ⟨hlt, hpos, hhead, ⟨hchild, hchildren⟩, hrest, hnodes⟩
    exact ⟨⟨hlt, hpos, hhead, hrest⟩, hchild, hchildren, hnodes⟩

/-- The only key a descent can add is the one it looks for. -/
theorem lt_descend_entries {word : Word} {bound dist : Int} {children : Children Int Word}
    (h : ∀ entry ∈ children.entries, bound < entry.1) (hdist : bound < dist) :
    ∀ entry ∈ (AddNode.descend word dist children).entries, bound < entry.1 := by
  induction children with
  | nil => simpa [AddNode.descend] using hdist
  | cons key label children rest _ ih =>
    rw [Children.entries_cons, List.forall_mem_cons] at h
    rw [AddNode.descend]
    by_cases hless : dist < key
    · rw [if_pos hless, Children.entries_cons, Children.entries_cons, List.forall_mem_cons, List.forall_mem_cons]
      exact ⟨hdist, h⟩
    · rw [if_neg hless]
      by_cases hequal : dist = key
      · -- The key stays, whatever happens below it.
        simp only [if_pos hequal]
        split
        · rw [Children.entries_cons, List.forall_mem_cons]
          exact h
        · rw [Children.entries_cons, List.forall_mem_cons]
          exact h
      · rw [if_neg hequal, Children.entries_cons, List.forall_mem_cons]
        exact ⟨h.1, ih h.2⟩

/-- A word that is not stored, and that no stored word takes for itself, is
    added as one leaf, whatever the keys are. -/
theorem descend_addsLeaf {word : Word} {dist : Int} {children : Children Int Word}
    (hdiffer : ∀ label ∈ stored children, BKTree.Distance label word ≠ 0) :
    AddsLeaf word children (AddNode.descend word dist children) := by
  induction children generalizing dist with
  | nil => exact .here dist .nil
  | cons key label children rest ihchildren ihrest =>
    simp only [stored, Children.nodes_cons, List.map_cons, List.map_append, List.mem_cons, List.mem_append] at hdiffer
    rw [AddNode.descend]
    split
    · exact .here dist _
    · split
      · rw [if_neg (hdiffer label (.inl rfl))]
        exact .inside key label rest (ihchildren fun w hw => hdiffer w (.inr (.inl hw)))
      · exact .later key label children (ihrest fun w hw => hdiffer w (.inr (.inr hw)))

/-- The descent for a stored word follows the path to its copy, because every
    word under a key has that very distance from the node. -/
theorem descend_stored {word parent : Word} {dist : Int} {children : Children Int Word}
    (hword : Short word) (hok : Invariant ⟨parent, children⟩)
    (hshort : ∀ w ∈ stored children, Short w) (hdist : (EditDistance parent word : Int) = dist)
    (hin : word ∈ stored children) : AddNode.descend word dist children = children := by
  induction children generalizing parent dist with
  | nil => simp at hin
  | cons key label children rest ihchildren ihrest =>
    obtain ⟨hlt, -, hhead, hchildren, hrest⟩ := invariant_cons_iff.mp hok
    simp only [stored, Children.nodes_cons, List.map_cons, List.map_append, List.mem_cons,
      List.mem_append] at hshort hin
    rw [AddNode.descend]
    by_cases hlater : word ∈ stored rest
    · obtain ⟨entry, hentry, hkey⟩ := (invariant_iff.mp hrest).1.exists_key hlater
      have hbehind := hlt entry hentry
      rw [if_neg (by omega), if_neg (by omega), ihrest hrest (fun w hw => hshort w (by simp [hw])) hdist hlater]
    · have hunder : word = label ∨ word ∈ stored children := by tauto
      have hkey := hhead word (by simpa [stored] using hunder)
      have hlabelShort : Short label := hshort label (by simp)
      rw [if_neg (by omega), if_pos (by omega)]
      by_cases hfound : BKTree.Distance label word = 0
      · exact if_pos hfound
      · have hbelow : word ∈ stored children := by
          refine hunder.resolve_left ?_
          rintro rfl
          exact hfound (Distance_self word)
        have hnext := (Distance_eq hlabelShort hword).symm
        exact (if_neg hfound).trans
          (by rw [ihchildren hchildren (fun w hw => hshort w (by simp [hw])) hnext hbelow])

/-- What the loop of `AddNode` does below a node: nothing when the word is
    stored there, otherwise it adds one leaf. -/
theorem descend_spec {word parent : Word} {dist : Int} {children : Children Int Word}
    (hword : Short word) (hok : Invariant ⟨parent, children⟩)
    (hshort : ∀ w ∈ stored children, Short w) (hdist : (EditDistance parent word : Int) = dist) :
    if word ∈ stored children then AddNode.descend word dist children = children
    else AddsLeaf word children (AddNode.descend word dist children) := by
  split
  · rename_i hin
    exact descend_stored hword hok hshort hdist hin
  · rename_i hnew
    apply descend_addsLeaf
    intro label hlabel hzero
    obtain rfl := (Distance_eq_zero_iff (hshort label hlabel) hword).mp hzero
    exact hnew hlabel

/-- The words below a child map after a descent are the old ones and the word. -/
theorem mem_stored_descend {word parent w : Word} {dist : Int} {children : Children Int Word}
    (hword : Short word) (hok : Invariant ⟨parent, children⟩)
    (hshort : ∀ w ∈ stored children, Short w) (hdist : (EditDistance parent word : Int) = dist) :
    w ∈ stored (AddNode.descend word dist children) ↔ w = word ∨ w ∈ stored children := by
  have hspec := descend_spec hword hok hshort hdist
  split at hspec
  · rename_i hin
    rw [hspec]
    constructor
    · exact .inr
    · rintro (rfl | h)
      · exact hin
      · exact h
  · simpa using hspec.labels_perm.mem_iff (a := w)

/-- The descent keeps the invariant at the node it starts from and at every
    node below. -/
theorem descend_preserves_invariant {word parent : Word} {dist : Int} {children : Children Int Word}
    (hword : Short word) (hok : Invariant ⟨parent, children⟩)
    (hshort : ∀ w ∈ stored children, Short w) (hdist : (EditDistance parent word : Int) = dist)
    (hpositive : 1 ≤ dist) : Invariant ⟨parent, AddNode.descend word dist children⟩ := by
  have hleaf : ∀ w ∈ (⟨word, .nil⟩ : BKNode).labels, (EditDistance parent w : Int) = dist := by
    simpa using hdist
  induction children generalizing parent dist with
  | nil =>
    rw [AddNode.descend, invariant_cons_iff]
    exact ⟨by simp, hpositive, hleaf, invariant_leaf word, hok⟩
  | cons key label children rest ihchildren ihrest =>
    obtain ⟨hlt, hpos, hhead, hchildren, hrest⟩ := invariant_cons_iff.mp hok
    simp only [stored, Children.nodes_cons, List.map_cons, List.map_append, List.mem_cons,
      List.mem_append] at hshort
    have hlabelShort : Short label := hshort label (.inl rfl)
    have hshortChildren : ∀ w ∈ stored children, Short w := fun w hw => hshort w (.inr (.inl hw))
    have hshortRest : ∀ w ∈ stored rest, Short w := fun w hw => hshort w (.inr (.inr hw))
    rw [AddNode.descend]
    by_cases hless : dist < key
    · rw [if_pos hless, invariant_cons_iff]
      refine ⟨?_, hpositive, hleaf, invariant_leaf word, hok⟩
      rw [Children.entries_cons, List.forall_mem_cons]
      exact ⟨hless, fun entry hentry => hless.trans (hlt entry hentry)⟩
    · rw [if_neg hless]
      by_cases hequal : dist = key
      · simp only [if_pos hequal]
        by_cases hfound : BKTree.Distance label word = 0
        · rw [if_pos hfound]
          exact hok
        · rw [if_neg hfound, invariant_cons_iff]
          have hnext : (EditDistance label word : Int) = BKTree.Distance label word :=
            (Distance_eq hlabelShort hword).symm
          have hinner := ihchildren hchildren hshortChildren hnext (by omega) (by simpa using hnext)
          refine ⟨hlt, hpos, ?_, hinner, hrest⟩
          intro w hw
          rw [Tree.labels_eq, List.mem_cons, mem_stored_descend hword hchildren hshortChildren hnext] at hw
          obtain rfl | rfl | hw := hw
          · exact hhead w (by simp)
          · omega
          · exact hhead w (by simpa using .inr (by simpa [stored] using hw))
      · rw [if_neg hequal, invariant_cons_iff]
        have hlater := ihrest hrest hshortRest hdist hpositive hleaf
        exact ⟨lt_descend_entries hlt (by omega), hpos, hhead, hchildren, hlater⟩

end spellcheck.bk_tree
