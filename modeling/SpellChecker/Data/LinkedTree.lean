import Mathlib.Data.List.Perm.Basic
import Mathlib.Order.Defs.LinearOrder
import SpellChecker.Data.KeyedTree

open keyed_tree

namespace linked_tree

variable {κ α : Type*}

/-- A node in memory: its label, and an ordered map from keys to addresses. -/
structure Cell (κ α : Type*) where
  label : α
  children : List (κ × ℕ)
  deriving DecidableEq

/-- The nodes in memory. An address is a place in the list. -/
abbrev Heap (κ α : Type*) := List (Cell κ α)

section Maps

variable [LinearOrder κ]

/-- The node under a key. -/
def lookup (key : κ) : Children κ α → Option (Tree κ α)
  | .nil => none
  | .cons other label children rest => if other = key then some ⟨label, children⟩ else lookup key rest

/-- Another child map for the node under a key. -/
def replace (key : κ) (new : Children κ α) : Children κ α → Children κ α
  | .nil => .nil
  | .cons other label children rest =>
    if other = key then .cons other label new rest else .cons other label children (replace key new rest)

/-- A leaf under a new key, in its place. -/
def insertLeaf (key : κ) (leaf : α) : Children κ α → Children κ α
  | .nil => .cons key leaf .nil .nil
  | .cons other label children rest =>
    if key < other then .cons key leaf .nil (.cons other label children rest)
    else .cons other label children (insertLeaf key leaf rest)

/-- `find(key)` on a map in memory. -/
def findKey (key : κ) : List (κ × ℕ) → Option ℕ
  | [] => none
  | (other, address) :: entries => if other = key then some address else findKey key entries

/-- `map[key] = address` for a new key. -/
def insertKey (key : κ) (address : ℕ) : List (κ × ℕ) → List (κ × ℕ)
  | [] => [(key, address)]
  | (other, place) :: entries =>
    if key < other then (key, address) :: (other, place) :: entries
    else (other, place) :: insertKey key address entries

theorem height_lt_of_lookup {key : κ} {children : Children κ α} {t : Tree κ α} (h : lookup key children = some t) :
    t.children.height < children.height := by
  induction children with
  | nil => cases h
  | cons other label children rest _ ih =>
    rw [lookup] at h
    simp only [Children.height]
    split at h
    · obtain rfl := Option.some.inj h
      simp only
      omega
    · have := ih h
      omega

theorem lookup_eq_none {key : κ} {children : Children κ α} (h : ∀ entry ∈ children.entries, entry.1 ≠ key) :
    lookup key children = none := by
  induction children with
  | nil => rfl
  | cons other label children rest _ ih =>
    rw [Children.entries_cons, List.forall_mem_cons] at h
    rw [lookup, if_neg h.1, ih h.2]

end Maps

section Linked

variable [LinearOrder κ]

/-- The entries of a map in memory, with increasing keys, lead to nodes that
    represent a child map. `places` are the addresses of all these nodes. -/
inductive Linked (heap : Heap κ α) : List (κ × ℕ) → Children κ α → List ℕ → Prop where
  | nil : Linked heap [] .nil []
  | cons {key : κ} {address : ℕ} {label : α} {inner entries : List (κ × ℕ)} {children rest : Children κ α}
      {below behind : List ℕ} (hcell : heap[address]? = some ⟨label, inner⟩) (hbelow : Linked heap inner children below)
      (hbehind : Linked heap entries rest behind) (hkey : ∀ entry ∈ entries, key < entry.1) :
      Linked heap ((key, address) :: entries) (.cons key label children rest) (address :: (below ++ behind))

variable {heap heap' : Heap κ α} {entries : List (κ × ℕ)} {children : Children κ α} {places : List ℕ}

/-- All places are in the heap. -/
theorem Linked.lt_length (h : Linked heap entries children places) : ∀ p ∈ places, p < heap.length := by
  induction h with
  | nil => simp
  | cons hcell _ _ _ ihbelow ihbehind =>
    rw [List.forall_mem_cons, List.forall_mem_append]
    exact ⟨(List.getElem?_eq_some_iff.mp hcell).1, ihbelow, ihbehind⟩

/-- The map depends on the cells at its places only. -/
theorem Linked.frame (h : Linked heap entries children places) (hsame : ∀ p ∈ places, heap'[p]? = heap[p]?) :
    Linked heap' entries children places := by
  induction h with
  | nil => exact .nil
  | cons hcell _ _ hkey ihbelow ihbehind =>
    rw [List.forall_mem_cons, List.forall_mem_append] at hsame
    exact .cons (hsame.1.trans hcell) (ihbelow hsame.2.1) (ihbehind hsame.2.2) hkey

theorem mem_insertKey {key : κ} {address : ℕ} {entry : κ × ℕ} :
    entry ∈ insertKey key address entries ↔ entry = (key, address) ∨ entry ∈ entries := by
  induction entries with
  | nil => simp [insertKey]
  | cons first entries ih =>
    rw [insertKey]
    split
    · simp
    · simp only [List.mem_cons, ih]
      tauto

/-- A key that is not found can be given a new leaf. -/
theorem Linked.insert (h : Linked heap entries children places) {key : κ} (hnone : findKey key entries = none)
    {leaf : α} {address : ℕ} (hleaf : heap'[address]? = some ⟨leaf, []⟩) (hsame : ∀ p ∈ places, heap'[p]? = heap[p]?) :
    ∃ grown, grown.Perm (address :: places) ∧
      Linked heap' (insertKey key address entries) (insertLeaf key leaf children) grown := by
  induction h with
  | nil => exact ⟨[address], .refl _, .cons hleaf .nil .nil (by simp)⟩
  | @cons other place label inner entries children rest below behind hcell hbelow hbehind hkey _ ih =>
    have hwhole : Linked heap' ((other, place) :: entries) (.cons other label children rest)
        (place :: (below ++ behind)) := (Linked.cons hcell hbelow hbehind hkey).frame hsame
    rw [List.forall_mem_cons, List.forall_mem_append] at hsame
    rw [findKey] at hnone
    have hne : other ≠ key := fun heq => by simp [heq] at hnone
    rw [if_neg hne] at hnone
    rw [insertKey, insertLeaf]
    split
    · rename_i hlt
      refine ⟨_, .refl _, .cons hleaf .nil hwhole ?_⟩
      rw [List.forall_mem_cons]
      exact ⟨hlt, fun entry hentry => hlt.trans (hkey entry hentry)⟩
    · rename_i hnlt
      obtain ⟨grown, hperm, hgrown⟩ := ih hnone hsame.2.2
      refine ⟨place :: (below ++ grown), ?_, .cons (hsame.1.trans hcell) (hbelow.frame hsame.2.1) hgrown ?_⟩
      · exact (((hperm.append_left below).trans List.perm_middle).cons place).trans (List.Perm.swap _ _ _)
      · intro entry hentry
        rcases mem_insertKey.mp hentry with rfl | hentry
        · exact lt_of_le_of_ne (not_lt.mp hnlt) hne
        · exact hkey entry hentry

theorem Linked.lookup_eq_none (h : Linked heap entries children places) {key : κ} (hnone : findKey key entries = none) :
    lookup key children = none := by
  induction h with
  | nil => rfl
  | @cons other place label inner entries children rest below behind _ _ _ _ _ ih =>
    rw [findKey] at hnone
    rw [lookup]
    by_cases heq : other = key
    · simp [heq] at hnone
    · rw [if_neg heq] at hnone
      rw [if_neg heq, ih hnone]

theorem perm_found {address place : ℕ} {below inside others grown : List ℕ}
    (h : grown.Perm (address :: (inside ++ others))) :
    (place :: (below ++ grown)).Perm (address :: (inside ++ (place :: (below ++ others)))) := by
  have hout : (below ++ grown).Perm (address :: (inside ++ (below ++ others))) :=
    ((h.append_left below).trans List.perm_middle).trans
      ((List.perm_append_comm_assoc below inside others).cons address)
  exact ((hout.cons place).trans (List.Perm.swap _ _ _)).trans (List.perm_middle.symm.cons address)

/-- What is found under a key can be given another child map. -/
theorem Linked.found (h : Linked heap entries children places) {key : κ} {address : ℕ}
    (hfound : findKey key entries = some address) :
    ∃ t inner below others, lookup key children = some t ∧ heap[address]? = some ⟨t.label, inner⟩ ∧
      Linked heap inner t.children below ∧ places.Perm (address :: (below ++ others)) ∧
      ∀ (heap' : Heap κ α) (inner' : List (κ × ℕ)) (new : Children κ α) (below' : List ℕ),
        heap'[address]? = some ⟨t.label, inner'⟩ → Linked heap' inner' new below' →
        (∀ p ∈ others, heap'[p]? = heap[p]?) →
        ∃ grown, grown.Perm (address :: (below' ++ others)) ∧
          Linked heap' entries (replace key new children) grown := by
  induction h with
  | nil => cases hfound
  | @cons other place label inner entries children rest below behind hcell hbelow hbehind hkey _ ih =>
    rw [findKey] at hfound
    rw [lookup]
    split at hfound
    · rename_i heq
      obtain rfl := Option.some.inj hfound
      rw [if_pos heq]
      refine ⟨_, inner, below, behind, rfl, hcell, hbelow, .refl _,
        fun heap' inner' new below' hcell' hbelow' hsame => ?_⟩
      rw [replace, if_pos heq]
      exact ⟨_, .refl _, .cons hcell' hbelow' (hbehind.frame hsame) hkey⟩
    · rename_i hne
      obtain ⟨t, inner', below', others, hlookup, hcell', hbelow', hperm, hreplace⟩ := ih hfound
      rw [if_neg hne]
      refine ⟨t, inner', below', place :: (below ++ others), hlookup, hcell', hbelow', perm_found hperm,
        fun heap' inner'' new below'' hcell'' hbelow'' hsame => ?_⟩
      rw [List.forall_mem_cons, List.forall_mem_append] at hsame
      obtain ⟨grown, hgrown, hlinked⟩ := hreplace heap' inner'' new below'' hcell'' hbelow'' hsame.2.2
      rw [replace, if_neg hne]
      exact ⟨_, perm_found hgrown, .cons (hsame.1.trans hcell) (hbelow.frame hsame.2.1) hlinked hkey⟩

/-- The node at an address is the root of a tree, of which no two nodes share
    an address. -/
def Holds (heap : Heap κ α) (address : ℕ) (t : Tree κ α) : Prop :=
  ∃ entries places, heap[address]? = some ⟨t.label, entries⟩ ∧ Linked heap entries t.children places ∧
    (address :: places).Nodup

/-- A child map in memory has one place for every node. -/
theorem Linked.length_eq (h : Linked heap entries children places) : places.length = children.nodes.length := by
  induction h with
  | nil => rfl
  | cons _ _ _ _ ihbelow ihbehind => simp [ihbelow, ihbehind]

/-- A tree in memory has no more nodes than there are in memory. -/
theorem Holds.length_le {address : ℕ} {t : Tree κ α} (h : Holds heap address t) : t.nodes.length ≤ heap.length := by
  obtain ⟨entries, places, hcell, hlinked, hnodup⟩ := h
  have hsubset : (address :: places) ⊆ List.range heap.length := by
    intro p hp
    rw [List.mem_range]
    rcases List.mem_cons.mp hp with rfl | hp
    · exact (List.getElem?_eq_some_iff.mp hcell).1
    · exact hlinked.lt_length p hp
  have hle := (List.subperm_of_subset hnodup hsubset).length_le
  rwa [List.length_cons, hlinked.length_eq, List.length_range] at hle

/-- The entries in memory lead to the subtrees under the same keys. -/
theorem Linked.forall_entries (h : Linked heap entries children places) (hnodup : places.Nodup) :
    List.Forall₂ (fun entry child => entry.1 = child.1 ∧ Holds heap entry.2 child.2) entries children.entries := by
  induction h with
  | nil => exact .nil
  | @cons key address label inner entries children rest below behind hcell hbelow _ _ _ ih =>
    rw [← List.cons_append, List.nodup_append] at hnodup
    exact .cons ⟨rfl, inner, below, hcell, hbelow, hnodup.1⟩ (ih hnodup.2.1)

/-- The admitted entries in memory lead to the admitted subtrees. -/
theorem Linked.forall_admitted (h : Linked heap entries children places) (hnodup : places.Nodup) (chosen : κ → Bool) :
    List.Forall₂ (Holds heap) ((entries.filter fun entry => chosen entry.1).map Prod.snd)
      ((children.entries.filter fun child => chosen child.1).map Prod.snd) := by
  rw [List.forall₂_map_left_iff, List.forall₂_map_right_iff]
  refine (List.rel_filter ?_ (h.forall_entries hnodup)).imp fun _ _ hsame => hsame.2
  rintro entry child ⟨hkey, -⟩
  simp only [hkey]

theorem Linked.keys (h : Linked heap entries children places) :
    entries.map Prod.fst = children.entries.map Prod.fst := by
  induction h with
  | nil => rfl
  | cons _ _ _ _ _ ih => simp [ih]

/-- The keys of the child map increase. -/
theorem Linked.pairwise (h : Linked heap entries children places) :
    children.entries.Pairwise fun a b => a.1 < b.1 := by
  induction h with
  | nil => exact .nil
  | cons hcell hbelow hbehind hkey _ ih =>
    refine .cons (fun child hchild => ?_) ih
    have hmem := List.mem_map_of_mem (f := Prod.fst) hchild
    rw [← hbehind.keys] at hmem
    obtain ⟨entry, hentry, heq⟩ := List.mem_map.mp hmem
    exact heq ▸ hkey entry hentry

/-- What an insertion may make of a node in memory and the `places` below it:
    the node keeps its label, it has the child map `grown` afterwards, at most one
    new node has come, behind the old memory, and no other cell has changed. -/
def Grown (heap heap' : Heap κ α) (node : ℕ) (places : List ℕ) (label : α) (grown : Children κ α) : Prop :=
  ∃ entries' places', heap'[node]? = some ⟨label, entries'⟩ ∧ Linked heap' entries' grown places' ∧
    (places'.Perm places ∨ places'.Perm (heap.length :: places)) ∧
    ∀ p < heap.length, p ∉ node :: places → heap'[p]? = heap[p]?

variable {node : ℕ} {label : α}

theorem Grown.same (hcell : heap[node]? = some ⟨label, entries⟩) (h : Linked heap entries children places) :
    Grown heap heap node places label children :=
  ⟨entries, places, hcell, h, .inl (.refl _), fun _ _ _ => rfl⟩

/-- A new leaf in the child map of the node. -/
theorem Grown.leaf (hcell : heap[node]? = some ⟨label, entries⟩) (h : Linked heap entries children places)
    (hnodup : (node :: places).Nodup) {key : κ} (hnone : findKey key entries = none) (leaf : α) :
    Grown heap (heap.set node ⟨label, insertKey key heap.length entries⟩ ++ [⟨leaf, []⟩]) node places label
      (insertLeaf key leaf children) := by
  have hlt : node < heap.length := (List.getElem?_eq_some_iff.mp hcell).1
  have hold : ∀ p < heap.length, p ≠ node →
      (heap.set node ⟨label, insertKey key heap.length entries⟩ ++ [⟨leaf, []⟩])[p]? = heap[p]? := by
    intro p hp hne
    rw [List.getElem?_append_left (by rwa [List.length_set]), List.getElem?_set_ne hne.symm]
  have hleaf : (heap.set node ⟨label, insertKey key heap.length entries⟩ ++ [⟨leaf, []⟩])[heap.length]? =
      some ⟨leaf, []⟩ := by simp
  have hsame := fun p hp => hold p (h.lt_length p hp) (ne_of_mem_of_not_mem hp (List.nodup_cons.mp hnodup).1)
  obtain ⟨grown, hperm, hgrown⟩ := h.insert hnone hleaf hsame
  refine ⟨_, grown, ?_, hgrown, .inr hperm, fun p hp hout => hold p hp (List.ne_of_not_mem_cons hout)⟩
  rw [List.getElem?_append_left (by rwa [List.length_set]), List.getElem?_set_self hlt]

/-- The node grows with the one that is found under a key. -/
theorem Linked.grown_found (hcell : heap[node]? = some ⟨label, entries⟩) (h : Linked heap entries children places)
    (hnodup : (node :: places).Nodup) {key : κ} {address : ℕ} (hfound : findKey key entries = some address) :
    ∃ t inner below, lookup key children = some t ∧ heap[address]? = some ⟨t.label, inner⟩ ∧
      Linked heap inner t.children below ∧ (address :: below).Nodup ∧
      ∀ heap' new, Grown heap heap' address below t.label new →
        Grown heap heap' node places label (replace key new children) := by
  obtain ⟨t, inner, below, others, hlookup, hinner, hbelow, hperm, hreplace⟩ := h.found hfound
  obtain ⟨hnode, hplaces⟩ := List.nodup_cons.mp ((hperm.cons node).nodup_iff.mp hnodup)
  rw [← List.cons_append] at hnode hplaces
  obtain ⟨hunder, -, hdisjoint⟩ := List.nodup_append.mp hplaces
  refine ⟨t, inner, below, hlookup, hinner, hbelow, hunder, ?_⟩
  rintro heap' new ⟨inner', below', hinner', hbelow', hperm', hframe⟩
  have hsame : ∀ p ∈ others, heap'[p]? = heap[p]? := fun p hp =>
    hframe p (h.lt_length p (hperm.mem_iff.mpr (by simp [hp]))) fun hin => hdisjoint p hin p hp rfl
  obtain ⟨grown, hgrown, hlinked⟩ := hreplace heap' inner' new below' hinner' hbelow' hsame
  refine ⟨entries, grown, ?_, hlinked, ?_, fun p hp hout => hframe p hp fun hin => hout ?_⟩
  · rw [hframe node (List.getElem?_eq_some_iff.mp hcell).1 fun hin => hnode (List.mem_append_left _ hin), hcell]
  · rcases hperm' with hperm' | hperm'
    · exact .inl (hgrown.trans (((hperm'.append_right _).cons _).trans hperm.symm))
    · refine .inr (hgrown.trans ?_)
      exact (((hperm'.append_right _).cons _).trans (List.Perm.swap _ _ _)).trans (hperm.symm.cons _)
  · exact List.mem_cons_of_mem _ (hperm.mem_iff.mpr (List.mem_append_left _ hin))

/-- The tree at the node has grown by at most one node. -/
theorem Linked.holds_grown (h : Linked heap entries children places) (hcell : heap[node]? = some ⟨label, entries⟩)
    (hnodup : (node :: places).Nodup) {grown : Children κ α} (hgrown : Grown heap heap' node places label grown) :
    Holds heap' node ⟨label, grown⟩ ∧
      (Tree.mk label grown).nodes.length ≤ (Tree.mk label children).nodes.length + 1 := by
  obtain ⟨entries', places', hcell', hlinked, hperm, -⟩ := hgrown
  simp only [Tree.nodes, List.length_cons, ← h.length_eq, ← hlinked.length_eq]
  rcases hperm with hperm | hperm
  · refine ⟨⟨entries', places', hcell', hlinked, (hperm.cons node).nodup_iff.mpr hnodup⟩, ?_⟩
    rw [hperm.length_eq]
    omega
  · have hfresh : ∀ p ∈ node :: places, p ≠ heap.length := by
      rw [List.forall_mem_cons]
      exact ⟨(List.getElem?_eq_some_iff.mp hcell).1.ne, fun p hp => (h.lt_length p hp).ne⟩
    refine ⟨⟨entries', places', hcell', hlinked, ?_⟩, by rw [hperm.length_eq, List.length_cons]⟩
    refine ((hperm.cons node).trans (List.Perm.swap _ _ _)).nodup_iff.mpr (List.nodup_cons.mpr ⟨?_, hnodup⟩)
    exact fun hin => hfresh _ hin rfl

end Linked

end linked_tree
