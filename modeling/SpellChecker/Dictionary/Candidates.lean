import SpellChecker.Dictionary.Build

open lines edit_script
open spellcheck.bk_tree spellcheck.edit_distance

namespace spellcheck.dictionary

/-- A text has a word exactly when one of its lines is not empty. -/
theorem dictionaryWords_nonempty_iff (text : Word) :
    (dictionaryWords text).Nonempty ↔ segments newline text ≠ [] := by
  constructor
  · rintro ⟨w, hw⟩ hnil
    obtain ⟨l, hl, _⟩ := mem_dictionaryWords.mp hw
    simp [hnil] at hl
  · intro hne
    obtain ⟨l, rest, hl⟩ := List.exists_cons_of_ne_nil hne
    have hmem : l ∈ segments newline text := by simp [hl]
    exact ⟨l, mem_dictionaryWords.mpr ⟨l, hmem, mem_variants_self (mem_segments hmem).1⟩⟩

/-- Capitalising keeps the length. -/
theorem length_dictionaryWords {text : Word} {bound : ℕ} (h : ∀ l ∈ segments newline text, l.length < bound) :
    ∀ w ∈ dictionaryWords text, w.length < bound :=
  forall_dictionaryWords h fun _ _ _ hline => hline

theorem short_dictionaryWords {text : Word} (h : ∀ l ∈ segments newline text, Short l) :
    ∀ w ∈ dictionaryWords text, Short w :=
  fun w hw => ⟨length_dictionaryWords (fun l hl => (h l hl).length_lt) w hw⟩

/-- Some iteration order of the containers. -/
noncomputable instance : Inhabited HashOrder where
  default :=
    { orig := Finset.toList
      orig_nodup := Finset.nodup_toList
      mem_orig := by simp
      len_to_words := AList.entries
      len_to_words_perm := fun _ => .refl _ }

/-- For lines shorter than `2^31` bytes: after any non-empty sequence of
    `BuildBKTree` calls, all of which return normally, `Candidates` keeps the
    result and appends the words of the dictionary that are exactly one edit
    from the query, each once. -/
theorem Dictionary.Candidates_one_edit (text : Word) (hlines : segments newline text ≠ [])
    (hshort : ∀ l ∈ segments newline text, Short l) (calls : List (HashOrder × ℕ)) (hcalls : calls ≠ [])
    (word : Word) (hword : Short word) (result : List Word) :
    ∃ d, (Dictionary.new text).builds calls = .ok d ∧
      ∃ found, d.Candidates word result = result ++ found ∧ found.Nodup ∧
        ∀ w, w ∈ found ↔ w ∈ dictionaryWords text ∧ OneEdit word w := by
  have hvalid := Dictionary.new_valid text
  have hne : (Dictionary.new text).orig.Nonempty := by
    rw [Dictionary.new_orig, dictionaryWords_nonempty_iff]
    exact hlines
  obtain ⟨order, root, hroot, hbuilds⟩ := Dictionary.builds_ok hvalid hne hcalls
  have hwords : ∀ w ∈ (Dictionary.new text).orig, Short w := by
    rw [Dictionary.new_orig]
    exact short_dictionaryWords hshort
  obtain ⟨happend, hnodup, hmem⟩ :=
    (Dictionary.built_withTree hroot order).candidates hwords hword result
  refine ⟨_, hbuilds, _, happend, hnodup, fun w => ?_⟩
  rw [hmem, ← Dictionary.new_orig]
  rfl

/-- Two builds of the dictionary of `ab` and `1`, queried for `a`. -/
theorem Dictionary.Candidates_one_edit_small :
    ∃ d, (Dictionary.new [97, 98, 10, 49]).builds [(default, 2), (default, 7)] = .ok d ∧
      ∃ found, d.Candidates [97] [[120]] = [[120]] ++ found ∧ found.Nodup ∧
        ∀ w, w ∈ found ↔ w ∈ dictionaryWords [97, 98, 10, 49] ∧ OneEdit [97] w :=
  Dictionary.Candidates_one_edit [97, 98, 10, 49] (by decide) (by decide) _ (by simp) [97] (by decide) _

/-- The word `1` followed by `n` characters `2`. -/
def longWord (n : ℕ) : Word := 49 :: List.replicate n 50

theorem newline_notMem_longWord (n : ℕ) : newline ∉ longWord n := by
  simp only [longWord, List.mem_cons, List.mem_replicate, not_or, not_and]
  exact ⟨by decide, fun _ => by decide⟩

theorem longWord_ne {n : ℕ} (hn : 0 < n) : longWord n ≠ [49] := by
  intro h
  have hlength := congrArg List.length h
  simp only [longWord, List.length_cons, List.length_replicate, List.length_nil] at hlength
  omega

/-- The dictionary text of the lines `1` and `longWord n`. -/
def longText (n : ℕ) : Word := [49] ++ newline :: (longWord n ++ newline :: [])

theorem segments_longText (n : ℕ) : segments newline (longText n) = [[49], longWord n] := by
  rw [longText, segments_line (by decide), segments_line (newline_notMem_longWord n)]
  simp [longWord]

/-- Words that start with a digit have no capitalised variant. -/
theorem flatMap_variants_longText (n : ℕ) :
    (segments newline (longText n)).flatMap variants = [[49], longWord n] := by
  have hlong : variants (longWord n) = [longWord n] := by simp [longWord, variants]
  rw [segments_longText, List.flatMap_cons, List.flatMap_cons, hlong]
  rfl

theorem dictionaryWords_longText (n : ℕ) : dictionaryWords (longText n) = {[49], longWord n} := by
  simp [dictionaryWords, flatMap_variants_longText]

theorem Distance_longWord (n : ℕ) : BKTree.Distance [49] (longWord n) = toInt n := by
  have h := lev_append_right [(49 : Byte)] (List.replicate n 50)
  rw [List.length_replicate] at h
  rw [BKTree.Distance, EditDistance_eq_lev]
  exact congrArg (fun x : ℕ => toInt x) h

theorem oneEdit_longWord (n : ℕ) : OneEdit (longWord n) (longWord (n + 1)) := by
  have h := OneEdit.insert (longWord n) [] 50
  rw [List.append_nil] at h
  have hgrow : longWord n ++ [50] = longWord (n + 1) := by
    rw [longWord, longWord, List.replicate_succ', List.cons_append]
  rwa [hgrow] at h

theorem root_longText {n : ℕ} (hn : 0 < n) (order : HashOrder) :
    (Dictionary.new (longText n)).Root order 1 [49] := by
  have hlength : ¬ 1 = (longWord n).length := by
    simp only [longWord, List.length_cons, List.length_replicate]
    omega
  refine .inl ⟨[], ?_⟩
  rw [Dictionary.new_eq, flatMap_variants_longText]
  simp [Buckets.lookup_push_back, hlength]

theorem builds_longText {n : ℕ} (hn : 0 < n) (order : HashOrder) :
    (Dictionary.new (longText n)).builds [(order, 1)] =
      .ok ((Dictionary.new (longText n)).withTree order [49]) :=
  (root_longText hn order).builds_singleton

/-- When the distance of `1` to the long word wraps to zero, `AddNode` takes
    the long word for a duplicate. -/
theorem foldl_AddNode_longText {n : ℕ} (hwrap : toInt (n : Int) = 0) {words : List Word}
    (h : ∀ w ∈ words, w ∈ dictionaryWords (longText n)) : words.foldl BKTree.AddNode (.new [49]) = .new [49] := by
  induction words with
  | nil => rfl
  | cons w words ih =>
    have hw := h w (by simp)
    rw [dictionaryWords_longText, Finset.mem_insert, Finset.mem_singleton] at hw
    have hzero : BKTree.Distance [49] w = 0 := by
      cases hw with
      | inl hw =>
        rw [hw, Distance_self]
      | inr hw =>
        rw [hw, Distance_longWord]
        exact hwrap
    have hstep : (BKTree.new [49]).AddNode w = .new [49] := by
      rw [BKTree.AddNode]
      exact if_pos hzero
    rw [List.foldl_cons, hstep, ih fun v hv => h v (by simp [hv])]

theorem bk_tree_longText {n : ℕ} (hwrap : toInt (n : Int) = 0) (order : HashOrder) :
    ((Dictionary.new (longText n)).withTree order [49]).bk_tree = .new [49] :=
  foldl_AddNode_longText hwrap fun w hw => by rwa [order.mem_orig, Dictionary.new_orig] at hw

/-- A search in the tree without the long word finds nothing. -/
theorem Candidates_longText {n : ℕ} (hwrap : toInt ((n + 1 : ℕ) : Int) = 0) (hsmall : toInt (n : Int) ≤ 2)
    (hn : 1 < n) (order : HashOrder) :
    ((Dictionary.new (longText (n + 1))).withTree order [49]).Candidates (longWord n) [] = [] := by
  have hdistance : BKTree.Distance [49] (longWord n) ≤ 2 := by rwa [Distance_longWord]
  have hfar : EditDistance (longWord n) [49] ≠ 1 := by
    have h := length_le_lev_add [49] (longWord n)
    rw [EditDistance_comm, EditDistance_eq_lev]
    simp only [longWord, List.length_cons, List.length_replicate, List.length_nil] at h ⊢
    omega
  have hroot : (BKTree.new [49]).root = ⟨[49], .nil⟩ := rfl
  rw [Dictionary.Candidates, bk_tree_longText hwrap, BKTree.SearchNode, hroot, SearchNode.collect_cons,
    SearchNode.push_eq]
  simp [SearchNode.collect, hdistance, hfar]

/-- Without a bound on the lines a candidate can be lost: with a line of
    `2^32 + 1` bytes the `int` distance to the root wraps to zero. -/
theorem Dictionary.Candidates_misses_long_word :
    longWord 4294967296 ∈ dictionaryWords (longText 4294967296) ∧
      OneEdit (longWord 4294967295) (longWord 4294967296) ∧
      ∀ order, ∃ d, (Dictionary.new (longText 4294967296)).builds [(order, 1)] = .ok d ∧
        d.Candidates (longWord 4294967295) [] = [] := by
  refine ⟨?_, oneEdit_longWord 4294967295, fun order => ⟨_, builds_longText (by omega) order, ?_⟩⟩
  · rw [dictionaryWords_longText]
    exact Finset.mem_insert_of_mem (Finset.mem_singleton_self _)
  · exact Candidates_longText (n := 4294967295) (by decide) (by decide) (by omega) order

end spellcheck.dictionary
