import Mathlib.Algebra.Ring.Nat
import Mathlib.Data.List.Basic
import Mathlib.Data.List.Flatten
import Mathlib.Data.List.Iterate
import Mathlib.Tactic.Cases

namespace keyed_tree

/-- The children of a node: an ordered map from keys to nodes, as the list of
    its entries. An entry holds the key and the child node (its label and the
    child's own children). -/
inductive Children (κ α : Type*) where
  | nil
  | cons (key : κ) (label : α) (children rest : Children κ α)
  deriving DecidableEq

/-- A tree whose edges carry keys. -/
structure Tree (κ α : Type*) where
  label : α
  children : Children κ α
  deriving DecidableEq

variable {κ α : Type*}

/-- The entries of a child map, in order. -/
def Children.entries : Children κ α → List (κ × Tree κ α)
  | .nil => []
  | .cons key label children rest => (key, ⟨label, children⟩) :: rest.entries

/-- All nodes below a child map, each as the subtree it roots. -/
def Children.nodes : Children κ α → List (Tree κ α)
  | .nil => []
  | .cons _ label children rest => ⟨label, children⟩ :: (children.nodes ++ rest.nodes)

/-- The longest chain of nodes below a child map. -/
def Children.height : Children κ α → ℕ
  | .nil => 0
  | .cons _ _ children rest => max (children.height + 1) rest.height

/-- All nodes of a tree, each as the subtree it roots. -/
def Tree.nodes (t : Tree κ α) : List (Tree κ α) := t :: t.children.nodes

/-- Every label stored in a tree. -/
def Tree.labels (t : Tree κ α) : List α := t.nodes.map Tree.label

/-- The child subtrees of a node, by their position in the child map. -/
def Tree.subtrees (t : Tree κ α) : List (Tree κ α) := t.children.entries.map Prod.snd

/-- One level down: the children of a row of nodes, from left to right. -/
def nextRow (row : List (Tree κ α)) : List (Tree κ α) := row.flatMap Tree.subtrees

/-- The labels of a tree level by level, from the root, each level from left
    to right. -/
def Tree.levelOrder (t : Tree κ α) : List α :=
  (List.range (t.children.height + 1)).flatMap fun depth => (nextRow^[depth] [t]).map Tree.label

@[simp] theorem Children.entries_nil : (Children.nil : Children κ α).entries = [] := rfl

@[simp] theorem Children.entries_cons (key : κ) (label : α) (children rest : Children κ α) :
    (Children.cons key label children rest).entries = (key, ⟨label, children⟩) :: rest.entries := rfl

@[simp] theorem Children.nodes_nil : (Children.nil : Children κ α).nodes = [] := rfl

@[simp] theorem Children.nodes_cons (key : κ) (label : α) (children rest : Children κ α) :
    (Children.cons key label children rest).nodes =
      ⟨label, children⟩ :: (children.nodes ++ rest.nodes) := rfl

@[simp] theorem Tree.labels_eq (t : Tree κ α) :
    t.labels = t.label :: t.children.nodes.map Tree.label := by
  rw [Tree.labels, Tree.nodes, List.map_cons]

/-- The nodes below a child map are the nodes of its subtrees. -/
theorem Children.nodes_eq_flatMap (children : Children κ α) :
    children.nodes = children.entries.flatMap fun entry => entry.2.nodes := by
  induction children with
  | nil => rfl
  | cons key label children rest _ ih => simp [Tree.nodes, ih]

theorem Children.nodes_of_entry {children : Children κ α} {key : κ} {child u : Tree κ α}
    (hentry : (key, child) ∈ children.entries) (hu : u ∈ child.nodes) : u ∈ children.nodes := by
  rw [Children.nodes_eq_flatMap]
  exact List.mem_flatMap.mpr ⟨(key, child), hentry, hu⟩

/-- Being a node is transitive. -/
theorem Tree.nodes_trans {t u v : Tree κ α} (hu : u ∈ t.nodes) (hv : v ∈ u.nodes) : v ∈ t.nodes := by
  have below (children : Children κ α) : u ∈ children.nodes → v ∈ children.nodes := by
    induction children with
    | nil => simp
    | cons key label children rest ihchildren ihrest =>
      simp only [Children.nodes_cons, List.mem_cons, List.mem_append]
      rintro (rfl | hchild | hrest)
      · cases List.mem_cons.mp hv with
        | inl heq =>
          subst heq
          exact .inl rfl
        | inr hv => exact .inr (.inl hv)
      · exact .inr (.inl (ihchildren hchild))
      · exact .inr (.inr (ihrest hrest))
  cases List.mem_cons.mp hu with
  | inl heq =>
    subst heq
    exact hv
  | inr hu => exact List.mem_cons_of_mem _ (below _ hu)

theorem Tree.height_lt_of_mem_subtrees {t child : Tree κ α} (h : child ∈ t.subtrees) :
    child.children.height < t.children.height := by
  obtain ⟨label, children⟩ := t
  simp only [Tree.subtrees] at h ⊢
  induction children with
  | nil => simp at h
  | cons key label children rest _ ih =>
    simp only [Children.entries_cons, List.map_cons, List.mem_cons] at h
    cases h with
    | inl heq =>
      subst heq
      simp [Children.height]
    | inr h =>
      have := ih h
      simp only [Children.height]
      omega

/-- The number of nodes waiting in a queue of trees, counting whole subtrees. -/
def queueSize (queue : List (Tree κ α)) : ℕ := (queue.map fun t => t.nodes.length).sum

@[simp] theorem queueSize_nil : queueSize ([] : List (Tree κ α)) = 0 := rfl

@[simp] theorem queueSize_cons (t : Tree κ α) (queue : List (Tree κ α)) :
    queueSize (t :: queue) = t.nodes.length + queueSize queue := by
  simp [queueSize]

@[simp] theorem queueSize_append (front back : List (Tree κ α)) :
    queueSize (front ++ back) = queueSize front + queueSize back := by
  simp [queueSize]

/-- Enqueueing some of a node's children in place of the node shrinks the queue. -/
theorem queueSize_selected_lt (t : Tree κ α) (select : κ × Tree κ α → Bool) :
    queueSize ((t.children.entries.filter select).map Prod.snd) < t.nodes.length := by
  have below (children : Children κ α) :
      queueSize ((children.entries.filter select).map Prod.snd) ≤ children.nodes.length := by
    induction children with
    | nil => simp
    | cons key label children rest _ ih =>
      simp only [Children.entries_cons, List.filter_cons, Children.nodes_cons, List.length_cons,
        List.length_append]
      split
      · simp only [List.map_cons, queueSize_cons, Tree.nodes, List.length_cons]
        omega
      · omega
  have := below t.children
  simp only [Tree.nodes, List.length_cons]
  omega

/-- One round of a queue-driven walk, which takes the front node and enqueues
    some of its children, leaves fewer nodes waiting. -/
theorem queueSize_round_lt (t : Tree κ α) (queue : List (Tree κ α)) (select : κ × Tree κ α → Bool) :
    queueSize (queue ++ (t.children.entries.filter select).map Prod.snd) < queueSize (t :: queue) := by
  have := queueSize_selected_lt t select
  rw [queueSize_append, queueSize_cons]
  omega

theorem queueSize_subtrees_lt (t : Tree κ α) (queue : List (Tree κ α)) :
    queueSize (queue ++ t.subtrees) < queueSize (t :: queue) := by
  have h := queueSize_round_lt t queue fun _ => true
  rwa [List.filter_true] at h

/-- The queue-driven walk: take the front node, record it, and enqueue those of
    its children that `keep` admits. -/
def walk (keep : α → κ → Bool) : List (Tree κ α) → List α
  | [] => []
  | t :: queue =>
    t.label :: walk keep (queue ++ (t.children.entries.filter fun entry => keep t.label entry.1).map Prod.snd)
termination_by queue => queueSize queue
decreasing_by exact queueSize_round_lt t queue fun entry => keep t.label entry.1

@[simp] theorem walk_nil (keep : α → κ → Bool) : walk keep [] = [] := by
  rw [walk]

/-- The walk that skips nothing. -/
def walkAll : List (Tree κ α) → List α := walk fun _ _ => true

@[simp] theorem walkAll_nil : walkAll ([] : List (Tree κ α)) = [] := walk_nil _

theorem walkAll_cons (t : Tree κ α) (queue : List (Tree κ α)) :
    walkAll (t :: queue) = t.label :: walkAll (queue ++ t.subtrees) := by
  rw [walkAll, walk]
  simp [Tree.subtrees]

/-- The walk empties the front part of its queue before it reaches any child. -/
theorem walkAll_append (row rest : List (Tree κ α)) :
    walkAll (row ++ rest) = row.map Tree.label ++ walkAll (rest ++ nextRow row) := by
  induction row generalizing rest with
  | nil => simp [nextRow]
  | cons t row ih =>
    rw [List.cons_append, walkAll_cons, List.append_assoc, ih]
    simp [nextRow]

/-- Rows go down to the height of the tree and no further. -/
theorem nextRow_iterate_height {row : List (Tree κ α)} {depth : ℕ}
    (hbound : ∀ t ∈ row, t.children.height < depth) : nextRow^[depth] row = [] := by
  induction depth generalizing row with
  | zero =>
    cases row with
    | nil => rfl
    | cons t row => exact absurd (hbound t (by simp)) (by omega)
  | succ depth ih =>
    rw [Function.iterate_succ_apply]
    apply ih
    intro child hchild
    obtain ⟨t, ht, hchild⟩ := List.mem_flatMap.mp hchild
    have hlt := Tree.height_lt_of_mem_subtrees hchild
    have := hbound t ht
    omega

/-- The unpruned queue walk of a row lists it level by level. -/
theorem walkAll_eq_rows {row : List (Tree κ α)} {depth : ℕ}
    (hbound : ∀ t ∈ row, t.children.height < depth) :
    walkAll row = (List.range depth).flatMap fun level => (nextRow^[level] row).map Tree.label := by
  have rows (depth : ℕ) : walkAll row =
      ((List.range depth).flatMap fun level => (nextRow^[level] row).map Tree.label) ++
        walkAll (nextRow^[depth] row) := by
    induction depth with
    | zero => simp
    | succ depth ih =>
      have hrow := walkAll_append (nextRow^[depth] row) []
      simp only [List.append_nil, List.nil_append] at hrow
      rw [ih, hrow, List.range_succ, List.flatMap_append, Function.iterate_succ_apply']
      simp
  rw [rows depth, nextRow_iterate_height hbound]
  simp

/-- The unpruned queue walk from the root is the level order of the tree. -/
theorem walkAll_eq_levelOrder (t : Tree κ α) : walkAll [t] = t.levelOrder :=
  walkAll_eq_rows (by simp)

/-- The unpruned walk visits each node of its queue exactly once. -/
theorem walkAll_perm (queue : List (Tree κ α)) : (walkAll queue).Perm (queue.flatMap Tree.labels) := by
  generalize hsize : queueSize queue = size
  induction size using Nat.strong_induction_on generalizing queue with
  | h size ih =>
    cases queue with
    | nil => simp
    | cons t queue =>
      have hlt : queueSize (queue ++ t.subtrees) < size := hsize ▸ queueSize_subtrees_lt t queue
      have hbelow : t.subtrees.flatMap Tree.labels = t.children.nodes.map Tree.label := by
        rw [Children.nodes_eq_flatMap, List.map_flatMap, Tree.subtrees, List.flatMap_map]
        rfl
      rw [walkAll_cons, List.flatMap_cons, Tree.labels_eq, List.cons_append]
      refine List.Perm.cons _ ((ih _ hlt _ rfl).trans ?_)
      rw [List.flatMap_append, hbelow]
      exact List.perm_append_comm

theorem levelOrder_perm (t : Tree κ α) : t.levelOrder.Perm t.labels := by
  rw [← walkAll_eq_levelOrder]
  simpa using walkAll_perm [t]

/-- `Pruned p full pruned`: the queue `pruned` is `full` less some trees in
    which no label satisfies `p`. -/
inductive Pruned (p : α → Bool) : List (Tree κ α) → List (Tree κ α) → Prop where
  | nil : Pruned p [] []
  | keep (t : Tree κ α) {full pruned : List (Tree κ α)} (tail : Pruned p full pruned) :
      Pruned p (t :: full) (t :: pruned)
  | drop (t : Tree κ α) {full pruned : List (Tree κ α)} (hnone : ∀ w ∈ t.labels, p w = false)
      (tail : Pruned p full pruned) : Pruned p (t :: full) pruned

theorem Pruned.append {p : α → Bool} {full pruned full' pruned' : List (Tree κ α)}
    (h : Pruned p full pruned) (h' : Pruned p full' pruned') :
    Pruned p (full ++ full') (pruned ++ pruned') := by
  induction h with
  | nil => exact h'
  | keep t _ ih => exact .keep t ih
  | drop t hnone _ ih => exact .drop t hnone ih

theorem Pruned.none {p : α → Bool} {full : List (Tree κ α)}
    (hnone : ∀ t ∈ full, ∀ w ∈ t.labels, p w = false) : Pruned p full [] := by
  induction full with
  | nil => exact .nil
  | cons t full ih =>
    exact .drop t (hnone t (by simp)) (ih fun u hu => hnone u (by simp [hu]))

/-- A pruning rule is safe at a node when the subtrees it skips hold no label
    satisfying `p`. -/
def SafeAt (keep : α → κ → Bool) (p : α → Bool) (t : Tree κ α) : Prop :=
  ∀ entry ∈ t.children.entries, keep t.label entry.1 = false → ∀ w ∈ entry.2.labels, p w = false

theorem SafeAt.pruned {keep : α → κ → Bool} {p : α → Bool} {t : Tree κ α} (h : SafeAt keep p t) :
    Pruned p t.subtrees ((t.children.entries.filter fun entry => keep t.label entry.1).map Prod.snd) := by
  unfold SafeAt at h
  unfold Tree.subtrees
  generalize t.children.entries = entries at h
  induction entries with
  | nil => exact .nil
  | cons entry entries ih =>
    have htail := ih fun e he => h e (by simp [he])
    cases hkeep : keep t.label entry.1 with
    | true => simpa [hkeep] using Pruned.keep entry.2 htail
    | false => simpa [hkeep] using Pruned.drop entry.2 (h entry (by simp) hkeep) htail

/-- Safety at all nodes of a queue carries over to the queue of the next round. -/
theorem safeAt_round {keep : α → κ → Bool} {p : α → Bool} {t : Tree κ α} {rest : List (Tree κ α)}
    (hsafe : ∀ s ∈ t :: rest, ∀ u ∈ s.nodes, SafeAt keep p u) :
    ∀ s ∈ rest ++ t.subtrees, ∀ u ∈ s.nodes, SafeAt keep p u := by
  intro s hs u hu
  cases List.mem_append.mp hs with
  | inl hs => exact hsafe s (List.mem_cons_of_mem t hs) u hu
  | inr hs =>
    obtain ⟨⟨key, child⟩, hentry, rfl⟩ := List.mem_map.mp hs
    exact hsafe t (by simp) u (List.mem_cons_of_mem _ (Children.nodes_of_entry hentry hu))

/-- Safe pruning changes neither which labels satisfying `p` are visited nor
    their order: skipped subtrees hold none, and the queue keeps the relative
    order of everything else. -/
theorem Pruned.walk_filter {keep : α → κ → Bool} {p : α → Bool} {full pruned : List (Tree κ α)}
    (h : Pruned p full pruned) (hsafe : ∀ t ∈ full, ∀ u ∈ t.nodes, SafeAt keep p u) :
    (walk keep pruned).filter p = (walkAll full).filter p := by
  generalize hsize : queueSize full = size
  induction size using Nat.strong_induction_on generalizing full pruned with
  | h size ih =>
    cases h with
    | nil => simp
    | @keep t full pruned tail =>
      have hnext := tail.append (hsafe t (by simp) t (by simp [Tree.nodes])).pruned
      have hih := ih _ (hsize ▸ queueSize_subtrees_lt t full) hnext (safeAt_round hsafe) rfl
      rw [walk, walkAll_cons, List.filter_cons, List.filter_cons, hih]
    | @drop t full pruned hnone tail =>
      have hbelow : ∀ s ∈ t.subtrees, ∀ w ∈ s.labels, p w = false := by
        intro s hs w hw
        obtain ⟨⟨key, child⟩, hentry, rfl⟩ := List.mem_map.mp hs
        obtain ⟨u, hu, rfl⟩ := List.mem_map.mp hw
        exact hnone _ (List.mem_map.mpr ⟨u, List.mem_cons_of_mem _ (Children.nodes_of_entry hentry hu), rfl⟩)
      have hnext := tail.append (Pruned.none hbelow)
      rw [List.append_nil] at hnext
      have hih := ih _ (hsize ▸ queueSize_subtrees_lt t full) hnext (safeAt_round hsafe) rfl
      rw [walkAll_cons, List.filter_cons, hih, hnone t.label (by simp)]
      simp

/-- Searching a whole tree with safe pruning finds the labels satisfying `p`
    in level order. -/
theorem walk_filter_eq_levelOrder {keep : α → κ → Bool} {p : α → Bool} (t : Tree κ α)
    (hsafe : ∀ u ∈ t.nodes, SafeAt keep p u) :
    (walk keep [t]).filter p = t.levelOrder.filter p := by
  rw [← walkAll_eq_levelOrder]
  exact (Pruned.keep t .nil).walk_filter (by simpa using hsafe)

/-- `AddsLeaf label before after`: the child map `after` is `before` with one
    new entry somewhere in it or below it, a leaf with this label, and with
    nothing else changed. -/
inductive AddsLeaf (label : α) : Children κ α → Children κ α → Prop where
  | here (key : κ) (rest : Children κ α) : AddsLeaf label rest (.cons key label .nil rest)
  | inside (key : κ) (other : α) {children children' : Children κ α} (rest : Children κ α)
      (h : AddsLeaf label children children') :
      AddsLeaf label (.cons key other children rest) (.cons key other children' rest)
  | later (key : κ) (other : α) (children : Children κ α) {rest rest' : Children κ α}
      (h : AddsLeaf label rest rest') :
      AddsLeaf label (.cons key other children rest) (.cons key other children rest')

/-- Adding a leaf adds its label once to the stored labels. -/
theorem AddsLeaf.labels_perm {label : α} {before after : Children κ α} (h : AddsLeaf label before after) :
    (after.nodes.map Tree.label).Perm (label :: before.nodes.map Tree.label) := by
  induction h with
  | here key rest => simp
  | inside key other rest _ ih =>
    simp only [Children.nodes_cons, List.map_cons, List.map_append]
    exact ((ih.append_right _).cons other).trans (List.Perm.swap _ _ _)
  | later key other children _ ih =>
    simp only [Children.nodes_cons, List.map_cons, List.map_append]
    exact (((ih.append_left _).trans List.perm_middle).cons other).trans (List.Perm.swap _ _ _)

theorem AddsLeaf.ne {label : α} {before after : Children κ α} (h : AddsLeaf label before after) :
    after ≠ before := by
  rintro rfl
  have := h.labels_perm.length_eq
  simp at this

end keyed_tree
