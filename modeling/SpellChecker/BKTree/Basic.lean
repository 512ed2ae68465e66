import SpellChecker.Data.KeyedTree
import SpellChecker.Data.Loop
import SpellChecker.EditDistance.Correct

open keyed_tree
open spellcheck.edit_distance

namespace spellcheck.bk_tree

/-- `BKNode`: a word, and a `std::map<int, BKNode*>` of children in key order. -/
abbrev BKNode := Tree Int Word

/-- `explicit BKNode(const std::string& word)`: a node without children. -/
def BKNode.new (word : Word) : BKNode := ⟨word, .nil⟩

/-- `BKTree`. -/
structure BKTree where
  root : BKNode
  deriving DecidableEq

/-- `explicit BKTree(const std::string& word)`. -/
def BKTree.new (word : Word) : BKTree := ⟨BKNode.new word⟩

/-- `static int Abs(int x)`. -/
def Abs (x : Int) : Except Fault Int := if x < 0 then checkInt (-x) else .ok x

/-- `static_cast<int>(EditDistance(s1, s2))`. -/
def BKTree.Distance (s1 s2 : Word) : Int := toInt (EditDistance s1 s2)

/-- The loop of `AddNode` below a node at distance `dist` from the word, as a
    walk along that node's child map: `children.find(dist)` looks for the key,
    and the descent goes on from the node found there. -/
def AddNode.descend (word : Word) (dist : Int) : Children Int Word → Children Int Word
  | .nil => .cons dist word .nil .nil
  | .cons key label children rest =>
    if dist < key then
      -- past the place of `dist`: `node->children[dist] = new BKNode(word)`
      .cons dist word .nil (.cons key label children rest)
    else if dist = key then
      -- found: `node = node->children[dist]`, and the loop starts again there
      let next := BKTree.Distance label word
      if next = 0 then .cons key label children rest
      else .cons key label (descend word next children) rest
    else .cons key label children (descend word dist rest)

/-- `BKTree::AddNode`. -/
def BKTree.AddNode (tree : BKTree) (word : Word) : BKTree :=
  let dist := BKTree.Distance tree.root.label word
  if dist = 0 then tree
  else ⟨⟨tree.root.label, AddNode.descend word dist tree.root.children⟩⟩

/-- `Abs(child.first - dist)` for the child under `key` of a node at distance `dist`. -/
def SearchNode.gap (dist key : Int) : Except Fault Int := do
  let difference ← checkInt (key - dist)
  Abs difference

/-- The loop of `SearchNode` over the children of a node at distance `dist`: a
    child is pushed on `nodes` unless its gap is larger than `tol`. -/
def SearchNode.push {β : Type} (tol dist : Int) (children : List (Int × β)) (nodes : List β) :
    Except Fault (List β) :=
  children.foldlM (fun nodes child => do
    let gap ← gap dist child.1
    return if gap > tol then nodes else nodes ++ [child.2]) nodes

/-- Whether a child is pushed, if no `int` overflows. -/
def SearchNode.admits (tol dist key : Int) : Bool := |key - dist| ≤ tol

/-- The gap is the absolute difference, if that is an `int`. -/
theorem SearchNode.gap_eq (dist key : Int) : SearchNode.gap dist key = checkInt |key - dist| := by
  unfold SearchNode.gap Abs
  by_cases hdifference : IsInt (key - dist)
  · rw [checkInt_of_isInt hdifference, loop.bind_ok]
    split
    · rename_i hneg
      rw [abs_of_neg hneg]
    · rename_i hpos
      rw [abs_of_nonneg (not_lt.mp hpos), checkInt_of_isInt hdifference]
  · have habs : ¬ IsInt |key - dist| := by
      have hle := le_abs_self (key - dist)
      have hneg := neg_le_abs (key - dist)
      unfold IsInt at hdifference ⊢
      omega
    rw [checkInt, if_neg hdifference, checkInt, if_neg habs]
    rfl

theorem SearchNode.push_eq {β : Type} (tol dist : Int) (children : List (Int × β)) (nodes : List β) :
    SearchNode.push tol dist children nodes =
      if ∀ child ∈ children, IsInt |child.1 - dist| then
        .ok (nodes ++ (children.filter fun child => SearchNode.admits tol dist child.1).map Prod.snd)
      else .error .overflow := by
  induction children generalizing nodes with
  | nil => simp [SearchNode.push]
  | cons child children ih =>
    unfold SearchNode.push at ih ⊢
    rw [List.foldlM_cons, SearchNode.gap_eq]
    by_cases hfirst : IsInt |child.1 - dist|
    · rw [checkInt_of_isInt hfirst, loop.bind_ok, loop.pure_eq_ok, loop.bind_ok, ih, List.filter_cons]
      simp only [List.forall_mem_cons, hfirst, true_and]
      by_cases hfar : |child.1 - dist| > tol
      · simp [SearchNode.admits, hfar, not_le.mpr hfar]
      · simp [SearchNode.admits, hfar, not_lt.mp hfar]
    · rw [checkInt, if_neg hfirst, if_neg fun h => hfirst (h child (by simp))]
      rfl

theorem SearchNode.queueSize_push_lt {tol dist : Int} {node : BKNode} {nodes pushed : List BKNode}
    (h : SearchNode.push tol dist node.children.entries nodes = .ok pushed) :
    queueSize pushed < queueSize (node :: nodes) := by
  rw [SearchNode.push_eq] at h
  split at h
  · rw [← Except.ok.inj h]
    exact queueSize_round_lt node _ _
  · cases h

/-- The `while` loop of `SearchNode` on the queue `nodes` and `tmp_res`. -/
def SearchNode.collect (word : Word) (tol : Int) : List BKNode → List Word → Except Fault (List Word)
  | [], tmp_res => .ok tmp_res
  | node :: nodes, tmp_res =>
    let dist := BKTree.Distance node.label word
    let tmp_res := if dist ≤ tol then tmp_res ++ [node.label] else tmp_res
    match _ : push tol dist node.children.entries nodes with
    | .error fault => .error fault
    | .ok nodes => collect word tol nodes tmp_res
termination_by nodes _ => queueSize nodes
decreasing_by exact SearchNode.queueSize_push_lt ‹_›

theorem SearchNode.collect_cons (word : Word) (tol : Int) (node : BKNode) (nodes : List BKNode) (tmp_res : List Word) :
    SearchNode.collect word tol (node :: nodes) tmp_res = (do
      let pushed ← SearchNode.push tol (BKTree.Distance node.label word) node.children.entries nodes
      SearchNode.collect word tol pushed
        (if BKTree.Distance node.label word ≤ tol then tmp_res ++ [node.label] else tmp_res)) := by
  rw [SearchNode.collect]
  split
  · rename_i h
    rw [h]
    rfl
  · rename_i h
    rw [h, loop.bind_ok]

/-- `BKTree::SearchNode`: `*result` as the call leaves it. -/
def BKTree.SearchNode (tree : BKTree) (word : Word) (tol : Int) (result : List Word) : Except Fault (List Word) := do
  let tmp_res ← SearchNode.collect word tol [tree.root] []
  return tmp_res.foldl (fun result res_word =>
    if EditDistance word res_word = 1 then result ++ [res_word] else result) result

/-- A word shorter than `2^31` bytes: distances between such words are exact
    as `int`. -/
structure Short (w : Word) : Prop where
  length_lt : w.length < 2147483648

instance (w : Word) : Decidable (Short w) := decidable_of_iff _ ⟨Short.mk, Short.length_lt⟩

theorem EditDistance_lt {a b : Word} (ha : Short a) (hb : Short b) : EditDistance a b < 2147483648 := by
  have hmax := edit_script.lev_le_max a b
  have hlengthA := ha.length_lt
  have hlengthB := hb.length_lt
  rw [EditDistance_eq_lev]
  omega

theorem Distance_eq {a b : Word} (ha : Short a) (hb : Short b) : BKTree.Distance a b = EditDistance a b :=
  toInt_of_isInt (isInt_natCast (EditDistance_lt ha hb))

@[simp] theorem Distance_self (w : Word) : BKTree.Distance w w = 0 := by
  rw [BKTree.Distance, EditDistance_eq_lev, edit_script.lev_self]
  decide

/-- Below `2^32` bytes a distance may not fit, but it wraps to zero only for
    equal words. -/
theorem Distance_eq_zero_iff_of_length {a b : Word} (ha : a.length < 4294967296) (hb : b.length < 4294967296) :
    BKTree.Distance a b = 0 ↔ a = b := by
  constructor
  · intro h
    have hmax := edit_script.lev_le_max a b
    have hwrap := Int.bmod_emod (x := EditDistance a b) (m := 4294967296)
    rw [show Int.bmod (EditDistance a b) 4294967296 = 0 from h, EditDistance_eq_lev] at hwrap
    rw [← edit_script.lev_eq_zero_iff]
    omega
  · rintro rfl
    exact Distance_self a

theorem Distance_eq_zero_iff {a b : Word} (ha : Short a) (hb : Short b) :
    BKTree.Distance a b = 0 ↔ a = b :=
  Distance_eq_zero_iff_of_length (ha.length_lt.trans (by omega)) (hb.length_lt.trans (by omega))

/-- `EditDistance` is one exactly for one insertion, deletion or substitution. -/
theorem EditDistance_eq_one_iff (a b : Word) : EditDistance a b = 1 ↔ edit_script.OneEdit a b := by
  rw [EditDistance_eq_lev, edit_script.lev_eq_one_iff]

end spellcheck.bk_tree
