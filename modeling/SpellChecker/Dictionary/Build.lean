import SpellChecker.BKTree.Search
import SpellChecker.Data.Loop
import SpellChecker.Dictionary.Parse

open lines
open spellcheck.bk_tree

namespace spellcheck.dictionary

theorem Buckets.index_of_lookup {m : Buckets} {key : ℕ} {bucket : List Word}
    (h : m.lookup key = some bucket) : Buckets.index m key = (bucket, m) := by
  simp [Buckets.index, h]

/-- Appending a word to the bucket of its length changes that bucket only. -/
theorem Buckets.lookup_push_back (m : Buckets) (word : Word) (key : ℕ) :
    (Buckets.push_back m word).lookup key =
      if key = word.length then some ((m.lookup key).getD [] ++ [word]) else m.lookup key := by
  by_cases hkey : key = word.length
  · subst key
    cases h : m.lookup word.length with
    | none => simp [Buckets.push_back, Buckets.index, h]
    | some bucket => simp [Buckets.push_back, Buckets.index, h]
  · rw [if_neg hkey]
    cases h : m.lookup word.length with
    | none => simp [Buckets.push_back, Buckets.index, h, AList.lookup_insert_ne hkey]
    | some bucket => simp [Buckets.push_back, Buckets.index, h, AList.lookup_insert_ne hkey]

/-- The two containers agree: each bucket is non-empty and holds words of
    `orig` of its length, and every word of `orig` is in the bucket of its length. -/
structure Dictionary.Valid (d : Dictionary) : Prop where
  bucket : ∀ len words, d.len_to_words.lookup len = some words →
    words ≠ [] ∧ ∀ w ∈ words, w ∈ d.orig ∧ w.length = len
  mem_bucket : ∀ w ∈ d.orig, ∃ words, d.len_to_words.lookup w.length = some words ∧ w ∈ words

theorem Dictionary.Valid.record {d : Dictionary} (h : d.Valid) (word : Word) : (d.record word).Valid := by
  constructor
  · intro len words hlookup
    rw [Dictionary.record_len_to_words, Buckets.lookup_push_back] at hlookup
    split at hlookup
    · rename_i hlen
      obtain rfl := Option.some.inj hlookup
      refine ⟨by simp, fun w hw => ?_⟩
      cases List.mem_append.mp hw with
      | inl hw =>
        cases hold : d.len_to_words.lookup len with
        | none => simp [hold] at hw
        | some old =>
          have hmem := (h.bucket len old hold).2 w (by simpa [hold] using hw)
          exact ⟨Finset.mem_insert_of_mem hmem.1, hmem.2⟩
      | inr hw =>
        obtain rfl := List.mem_singleton.mp hw
        exact ⟨Finset.mem_insert_self _ _, hlen.symm⟩
    · obtain ⟨hne, hmem⟩ := h.bucket len words hlookup
      exact ⟨hne, fun w hw => ⟨Finset.mem_insert_of_mem (hmem w hw).1, (hmem w hw).2⟩⟩
  · intro w hw
    rw [Dictionary.record_len_to_words, Buckets.lookup_push_back]
    cases Finset.mem_insert.mp hw with
    | inl heq =>
      subst heq
      exact ⟨_, if_pos rfl, by simp⟩
    | inr hw =>
      obtain ⟨words, hlookup, hmem⟩ := h.mem_bucket w hw
      split
      · exact ⟨_, rfl, by simp [hlookup, hmem]⟩
      · exact ⟨words, hlookup, hmem⟩

theorem Dictionary.Valid.foldl_record {d : Dictionary} (h : d.Valid) (words : List Word) :
    (words.foldl Dictionary.record d).Valid := by
  induction words generalizing d with
  | nil => exact h
  | cons w words ih => exact ih (h.record w)

theorem Dictionary.new_valid (text : Word) : (Dictionary.new text).Valid := by
  have hempty : (⟨0, ∅, ∅, .new []⟩ : Dictionary).Valid :=
    ⟨fun len words h => by simp at h, fun w h => by simp at h⟩
  have h := hempty.foldl_record ((segments newline text).flatMap variants)
  rw [Dictionary.new_eq]
  exact ⟨h.bucket, h.mem_bucket⟩

/-- `root` heads the bucket of `root_len` or, where there is no such bucket, the
    first bucket of the iteration. -/
def Dictionary.Root (d : Dictionary) (order : HashOrder) (root_len : ℕ) (root : Word) : Prop :=
  (∃ rest, d.len_to_words.lookup root_len = some (root :: rest)) ∨
    (d.len_to_words.lookup root_len = none ∧
      ∃ len rest later, order.len_to_words d.len_to_words = ⟨len, root :: rest⟩ :: later)

/-- A valid non-empty dictionary has a root, which is one of its words. -/
theorem Dictionary.Valid.exists_root {d : Dictionary} (h : d.Valid) (hne : d.orig.Nonempty) (order : HashOrder)
    (root_len : ℕ) : ∃ root ∈ d.orig, d.Root order root_len root := by
  have hfirst {len : ℕ} {words : List Word} (hlookup : d.len_to_words.lookup len = some words) :
      ∃ root ∈ d.orig, ∃ rest, words = root :: rest := by
    obtain ⟨hwords, hmem⟩ := h.bucket len words hlookup
    obtain ⟨root, rest, rfl⟩ := List.exists_cons_of_ne_nil hwords
    exact ⟨root, (hmem root (by simp)).1, rest, rfl⟩
  cases hfound : d.len_to_words.lookup root_len with
  | some words =>
    obtain ⟨root, hroot, rest, rfl⟩ := hfirst hfound
    exact ⟨root, hroot, .inl ⟨rest, hfound⟩⟩
  | none =>
    have hperm := order.len_to_words_perm d.len_to_words
    cases hentries : order.len_to_words d.len_to_words with
    | nil =>
      obtain ⟨w, hw⟩ := hne
      obtain ⟨words, hlookup, _⟩ := h.mem_bucket w hw
      have hmem := AList.mem_lookup_iff.mp (Option.mem_def.mpr hlookup)
      rw [hentries] at hperm
      simp [← hperm.mem_iff] at hmem
    | cons entry later =>
      have hmem : entry ∈ d.len_to_words.entries := by
        rw [← hperm.mem_iff, hentries]
        simp
      obtain ⟨len, words⟩ := entry
      obtain ⟨root, hroot, rest, rfl⟩ := hfirst (AList.mem_lookup_iff.mpr hmem)
      exact ⟨root, hroot, .inr ⟨hfound, len, rest, later, hentries⟩⟩

/-- The root is found without an access that inserts into the map. -/
theorem Dictionary.Root.chooseRoot_eq {d : Dictionary} {order : HashOrder} {root_len : ℕ} {root : Word}
    (h : d.Root order root_len root) :
    chooseRoot order root_len d.orig d.len_to_words = (.ok root, d.len_to_words) := by
  cases h with
  | inl h =>
    obtain ⟨rest, hlookup⟩ := h
    simp [chooseRoot, hlookup, Buckets.index_of_lookup hlookup, vecAt]
  | inr h =>
    obtain ⟨hnone, len, rest, later, hentries⟩ := h
    simp [chooseRoot, hnone, hentries, vecAt]

/-- `d` with the tree a call of `BuildBKTree` builds from `root`. -/
def Dictionary.withTree (d : Dictionary) (order : HashOrder) (root : Word) : Dictionary :=
  { d with bk_tree := (order.orig d.orig).foldl BKTree.AddNode (.new root) }

theorem Dictionary.Root.BuildBKTree_eq {d : Dictionary} {order : HashOrder} {root_len : ℕ} {root : Word}
    (h : d.Root order root_len root) : d.BuildBKTree order root_len = (.ok (), d.withTree order root) := by
  simp only [Dictionary.BuildBKTree, h.chooseRoot_eq]
  rfl

theorem Dictionary.BuildBKTree_ok {d : Dictionary} (h : d.Valid) (hne : d.orig.Nonempty) (order : HashOrder)
    (root_len : ℕ) : ∃ root ∈ d.orig, d.BuildBKTree order root_len = (.ok (), d.withTree order root) := by
  obtain ⟨root, hroot, hchosen⟩ := h.exists_root hne order root_len
  exact ⟨root, hroot, hchosen.BuildBKTree_eq⟩

/-- An empty dictionary throws, and the throw leaves the object as it was. -/
theorem Dictionary.BuildBKTree_empty {d : Dictionary} (h : d.Valid) (hempty : d.orig = ∅) (order : HashOrder)
    (root_len : ℕ) : d.BuildBKTree order root_len = (.error .dictionaryEmpty, d) := by
  have hnone (len : ℕ) : d.len_to_words.lookup len = none := by
    cases hlookup : d.len_to_words.lookup len with
    | none => rfl
    | some words =>
      obtain ⟨hwords, hmem⟩ := h.bucket len words hlookup
      obtain ⟨w, rest, rfl⟩ := List.exists_cons_of_ne_nil hwords
      simpa [hempty] using (hmem w (by simp)).1
  have hentries : order.len_to_words d.len_to_words = [] := by
    rw [List.eq_nil_iff_forall_not_mem]
    intro entry hentry
    have hmem := (order.len_to_words_perm d.len_to_words).mem_iff.mp hentry
    have hlookup := AList.mem_lookup_iff.mpr hmem
    simp [hnone] at hlookup
  have horig : order.orig d.orig = [] := by
    rw [List.eq_nil_iff_forall_not_mem]
    intro w hw
    simpa [hempty] using (order.mem_orig d.orig w).mp hw
  simp [Dictionary.BuildBKTree, chooseRoot, hnone, hentries, horig]

/-- A call on a valid dictionary touches only the tree, also when it throws. -/
theorem Dictionary.BuildBKTree_frame {d : Dictionary} (h : d.Valid) (order : HashOrder) (root_len : ℕ) :
    ∃ bk_tree, (d.BuildBKTree order root_len).2 = { d with bk_tree } := by
  cases d.orig.eq_empty_or_nonempty with
  | inl hempty =>
    rw [d.BuildBKTree_empty h hempty]
    exact ⟨d.bk_tree, rfl⟩
  | inr hne =>
    obtain ⟨root, -, hbuild⟩ := d.BuildBKTree_ok h hne order root_len
    rw [hbuild]
    exact ⟨_, rfl⟩

/-- The object after a sequence of `BuildBKTree` calls whose exceptions are caught. -/
def Dictionary.afterBuilds (calls : List (HashOrder × ℕ)) (d : Dictionary) : Dictionary :=
  calls.foldl (fun d call => (d.BuildBKTree call.1 call.2).2) d

theorem Dictionary.afterBuilds_frame {d : Dictionary} (h : d.Valid) (calls : List (HashOrder × ℕ)) :
    ∃ bk_tree, d.afterBuilds calls = { d with bk_tree } := by
  induction calls generalizing d with
  | nil => exact ⟨d.bk_tree, rfl⟩
  | cons call calls ih =>
    obtain ⟨bk_tree, hstep⟩ := d.BuildBKTree_frame h call.1 call.2
    obtain ⟨final, hrest⟩ := ih (d := { d with bk_tree }) ⟨h.bucket, h.mem_bucket⟩
    refine ⟨final, ?_⟩
    rw [Dictionary.afterBuilds, List.foldl_cons, hstep]
    exact hrest

/-- A sequence of `BuildBKTree` calls, up to the first that throws. -/
def Dictionary.builds (calls : List (HashOrder × ℕ)) (d : Dictionary) : Except Fault Dictionary :=
  calls.foldlM (fun d call =>
    match d.BuildBKTree call.1 call.2 with
    | (.ok (), d) => .ok d
    | (.error fault, _) => .error fault) d

theorem Dictionary.Root.builds_singleton {d : Dictionary} {order : HashOrder} {root_len : ℕ} {root : Word}
    (h : d.Root order root_len root) : d.builds [(order, root_len)] = .ok (d.withTree order root) := by
  simp [Dictionary.builds, h.BuildBKTree_eq]

/-- The tree of `d` was built from the words of `d`, rooted at one of them. -/
def Dictionary.Built (d : Dictionary) : Prop := ∃ order, ∃ root ∈ d.orig, d = d.withTree order root

theorem Dictionary.built_withTree {d : Dictionary} {root : Word} (hroot : root ∈ d.orig) (order : HashOrder) :
    (d.withTree order root).Built := ⟨order, root, hroot, rfl⟩

/-- Any sequence of calls on a valid non-empty dictionary succeeds, changes
    nothing but the tree, and leaves a tree built from the dictionary's words,
    whatever tree was there before. -/
theorem Dictionary.builds_ok {d : Dictionary} (h : d.Valid) (hne : d.orig.Nonempty)
    {calls : List (HashOrder × ℕ)} (hcalls : calls ≠ []) :
    ∃ order, ∃ root ∈ d.orig, d.builds calls = .ok (d.withTree order root) := by
  obtain ⟨first, rest, rfl⟩ := List.exists_cons_of_ne_nil hcalls
  clear hcalls
  induction rest generalizing d first with
  | nil =>
    obtain ⟨root, hroot, hchosen⟩ := h.exists_root hne first.1 first.2
    exact ⟨first.1, root, hroot, hchosen.builds_singleton⟩
  | cons second rest ih =>
    obtain ⟨root, hroot, hbuild⟩ := d.BuildBKTree_ok h hne first.1 first.2
    obtain ⟨order, final, hfinal, hbuilds⟩ := ih (d := d.withTree first.1 root) ⟨h.bucket, h.mem_bucket⟩ hne second
    refine ⟨order, final, hfinal, ?_⟩
    have hstep : d.builds (first :: second :: rest) = (d.withTree first.1 root).builds (second :: rest) := by
      unfold Dictionary.builds
      rw [List.foldlM_cons, hbuild]
      rfl
    rw [hstep, hbuilds]
    rfl

/-- The tree of a built dictionary is valid and stores exactly its words. -/
theorem Dictionary.Built.tree {d : Dictionary} (h : d.Built) (hshort : ∀ w ∈ d.orig, Short w) :
    d.bk_tree.Valid ∧ ∀ w, w ∈ d.bk_tree.root.labels ↔ w ∈ d.orig := by
  obtain ⟨order, root, hroot, hd⟩ := h
  have hwords : ∀ w ∈ order.orig d.orig, Short w := fun w hw => hshort w ((order.mem_orig _ _).mp hw)
  obtain ⟨hvalid, hmem⟩ := BKTree.foldl_AddNode_new (hshort root hroot) hwords
  rw [show d.bk_tree = (order.orig d.orig).foldl BKTree.AddNode (.new root) from congrArg Dictionary.bk_tree hd]
  refine ⟨hvalid, fun w => ?_⟩
  rw [hmem, order.mem_orig]
  constructor
  · rintro (rfl | hw)
    · exact hroot
    · exact hw
  · exact .inr

/-- A search in the tree of a built dictionary of short words overflows no `int`. -/
theorem Dictionary.Built.search {d : Dictionary} (h : d.Built) (hshort : ∀ w ∈ d.orig, Short w) {word : Word}
    (hword : Short word) (result : List Word) :
    d.bk_tree.SearchNode word 2 result = .ok (result ++ d.bk_tree.matches word) := by
  rw [BKTree.SearchNode_spec (h.tree hshort).1 hword, if_pos (by decide)]

/-- `Candidates` appends the words of the dictionary that are one edit from the
    query, each once. -/
theorem Dictionary.Built.candidates {d : Dictionary} (h : d.Built) (hshort : ∀ w ∈ d.orig, Short w)
    {word : Word} (hword : Short word) (result : List Word) :
    d.Candidates word result = result ++ d.bk_tree.matches word ∧ (d.bk_tree.matches word).Nodup ∧
      ∀ w, w ∈ d.bk_tree.matches word ↔ w ∈ d.orig ∧ edit_script.OneEdit word w := by
  obtain ⟨hvalid, hlabels⟩ := h.tree hshort
  refine ⟨?_, hvalid.matches_nodup word, fun w => by rw [BKTree.mem_matches, hlabels]⟩
  rw [Dictionary.Candidates, h.search hshort hword]

end spellcheck.dictionary
