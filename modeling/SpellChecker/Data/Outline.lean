import SpellChecker.Data.KeyedTree

open keyed_tree

namespace outline

variable {κ α : Type*}

/-- One row of an outline: how deep a node is, the key it stands under, and its label. -/
structure Row (κ α : Type*) where
  depth : ℕ
  key : κ
  label : α

/-- The rows of a child map whose nodes are `depth` deep: every node stands
    before what is below it, and this before its later siblings. -/
def rows (depth : ℕ) : Children κ α → List (Row κ α)
  | .nil => []
  | .cons key label children rest => ⟨depth, key, label⟩ :: (rows (depth + 1) children ++ rows depth rest)

/-- The rows of a tree under a key. -/
def treeRows (depth : ℕ) (key : κ) (t : Tree κ α) : List (Row κ α) :=
  ⟨depth, key, t.label⟩ :: rows (depth + 1) t.children

/-- The child map `depth` deep that the rows begin with, up to the first row that is less deep. -/
def regrow : List (Row κ α) → ℕ → Children κ α
  | [], _ => .nil
  | row :: later, depth =>
    if depth < row.depth then regrow later depth
    else if depth = row.depth then .cons row.key row.label (regrow later (depth + 1)) (regrow later depth)
    else .nil

/-- The tree that an outline shows. -/
def readTree : List (Row κ α) → Option (Tree κ α)
  | [] => none
  | row :: later => some ⟨row.label, regrow later (row.depth + 1)⟩

theorem rows_eq_flatMap (depth : ℕ) (children : Children κ α) :
    rows depth children = children.entries.flatMap fun entry => treeRows depth entry.1 entry.2 := by
  induction children with
  | nil => rfl
  | cons key label children rest _ ih => simp [rows, treeRows, ih]

/-- Rows that start less than `depth` deep show nothing from there on. -/
def Above (depth : ℕ) (later : List (Row κ α)) : Prop := ∀ d, depth ≤ d → regrow later d = .nil

/-- Behind the rows of a child map `depth` deep, the rows of shallower nodes are still there. -/
theorem regrow_rows {depth : ℕ} (children : Children κ α) {later : List (Row κ α)} (h : Above depth later) (d : ℕ) :
    regrow (rows depth children ++ later) d =
      if d < depth then regrow later d else if d = depth then children else .nil := by
  induction children generalizing depth later d with
  | nil =>
    rw [rows, List.nil_append]
    split
    · rfl
    · rename_i hdeep
      rw [h d (by omega), ite_self]
  | cons key label children rest ihchildren ihrest =>
    have hbehind : Above (depth + 1) (rows depth rest ++ later) := fun d hd => by
      rw [ihrest h, if_neg (by omega), if_neg (by omega)]
    rw [rows, List.cons_append, List.append_assoc, regrow]
    simp only
    split
    · rw [ihchildren hbehind, if_pos (by omega), ihrest h, if_pos (by assumption)]
    · split
      · rename_i heq
        subst heq
        rw [ihchildren hbehind, if_neg (by omega), if_pos rfl, ihchildren hbehind, if_pos (by omega), ihrest h,
          if_neg (by omega), if_pos rfl]
      · rfl

/-- An outline shows the tree it was made from. -/
theorem readTree_treeRows (depth : ℕ) (key : κ) (t : Tree κ α) : readTree (treeRows depth key t) = some t := by
  have hrows := @regrow_rows κ α (depth + 1) t.children [] (fun _ _ => rfl) (depth + 1)
  rw [List.append_nil, if_neg (lt_irrefl _), if_pos rfl] at hrows
  rw [treeRows, readTree, hrows]

/-- The labels of the rows are the labels below the child map. -/
theorem map_label_rows (depth : ℕ) (children : Children κ α) :
    (rows depth children).map Row.label = children.nodes.map Tree.label := by
  induction children generalizing depth with
  | nil => rfl
  | cons key label children rest ihchildren ihrest => simp [rows, ihchildren, ihrest]

end outline
