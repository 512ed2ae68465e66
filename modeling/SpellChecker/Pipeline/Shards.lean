import SpellChecker.Pipeline.Answer

open blocks checker comparator edit_script lines
open spellcheck.bk_tree spellcheck.candidates spellcheck.dictionary

namespace spellcheck.pipeline

/-- What `main` does with the dictionary text of a rank: the constructor call
    and `dict.BuildBKTree(root_len)`, which nothing catches an exception of. -/
def load (order : HashOrder) (root_len : ℕ) (text : Word) : Except Fault Dictionary :=
  match (Dictionary.new text).BuildBKTree order root_len with
  | (.ok (), dict) => .ok dict
  | (.error fault, _) => .error fault

theorem load_ok {text : Word} (h : segments newline text ≠ []) (order : HashOrder) (root_len : ℕ) :
    ∃ dict, load order root_len text = .ok dict ∧ dict.orig = dictionaryWords text ∧ dict.Built := by
  have hne : (Dictionary.new text).orig.Nonempty := by
    rw [Dictionary.new_orig, dictionaryWords_nonempty_iff]
    exact h
  obtain ⟨root, hroot, hbuild⟩ := Dictionary.BuildBKTree_ok (Dictionary.new_valid text) hne order root_len
  refine ⟨(Dictionary.new text).withTree order root, ?_, Dictionary.new_orig text,
    Dictionary.built_withTree hroot order⟩
  unfold load
  rw [hbuild]

theorem load_empty {text : Word} (h : segments newline text = []) (order : HashOrder) (root_len : ℕ) :
    load order root_len text = .error .dictionaryEmpty := by
  have hempty : (Dictionary.new text).orig = ∅ := by
    rw [Dictionary.new_orig, ← Finset.not_nonempty_iff_eq_empty, dictionaryWords_nonempty_iff]
    exact not_not.mpr h
  unfold load
  rw [Dictionary.BuildBKTree_empty (Dictionary.new_valid text) hempty]

theorem load_eq_builds (order : HashOrder) (root_len : ℕ) (text : Word) :
    load order root_len text = (Dictionary.new text).builds [(order, root_len)] := by
  unfold load
  rw [Dictionary.builds, List.foldlM_cons]
  cases (Dictionary.new text).BuildBKTree order root_len with
  | mk result dict => cases result <;> rfl

theorem load_eq_ok_iff (order : HashOrder) (root_len : ℕ) (text : Word) :
    (∃ dict, load order root_len text = .ok dict) ↔ segments newline text ≠ [] := by
  constructor
  · rintro ⟨dict, hdict⟩ hempty
    rw [load_empty hempty] at hdict
    cases hdict
  · intro h
    obtain ⟨dict, hdict, _⟩ := load_ok h order root_len
    exact ⟨dict, hdict⟩

/-- A capital letter is neither NUL nor a newline. -/
theorem capital_ne {c : Byte} (h : 97 ≤ c) : c - 32 ≠ 0 ∧ c - 32 ≠ newline := by
  have hnat : 97 ≤ c.toNat := UInt8.le_iff_toNat_le.mp h
  have hsub := toNat_capital h
  constructor
  · intro hzero
    rw [hzero] at hsub
    simp at hsub
    omega
  · intro hnewline
    rw [hnewline] at hsub
    simp [newline] at hsub
    omega

/-- The dictionary loaded from a text of short lines without NUL is ready. -/
theorem ready_of_built {text : Word} (hnul : NulFree text) (hshort : ∀ l ∈ segments newline text, Short l)
    {dict : Dictionary} (horig : dict.orig = dictionaryWords text) (hbuilt : dict.Built) : Ready dict := by
  refine ⟨hbuilt, ?_, ?_, ?_, ?_⟩
  · rw [horig]
    exact short_dictionaryWords hshort
  · rw [horig]
    apply forall_dictionaryWords
    · intro l hl c hc
      exact hnul c ((mem_segments hl).2.2 c hc)
    · intro first rest hlo hline c hc
      cases List.mem_cons.mp hc with
      | inl h => exact h ▸ (capital_ne hlo).1
      | inr h => exact hline c (List.mem_cons_of_mem first h)
  · rw [horig]
    exact forall_dictionaryWords (fun l hl => (mem_segments hl).1) fun first rest _ _ => List.cons_ne_nil _ _
  · rw [horig]
    apply forall_dictionaryWords fun l hl => (mem_segments hl).2.1
    intro first rest hlo hline hmem
    cases List.mem_cons.mp hmem with
    | inl h => exact (capital_ne hlo).2 h.symm
    | inr h => exact hline (List.mem_cons_of_mem first h)

theorem load_ready {order : HashOrder} {root_len : ℕ} {text : Word} (hnul : NulFree text)
    (hshort : ∀ l ∈ segments newline text, Short l) {dict : Dictionary} (hload : load order root_len text = .ok dict) :
    Ready dict ∧ dict.orig = dictionaryWords text := by
  have hlines := (load_eq_ok_iff order root_len text).mp ⟨dict, hload⟩
  obtain ⟨loaded, hloaded, horig, hbuilt⟩ := load_ok hlines order root_len
  obtain rfl := loop.ok_unique hloaded hload
  exact ⟨ready_of_built hnul hshort horig hbuilt, horig⟩

/-- A rank's dictionary text, the order its hash containers happen to have, and
    the `root_len` it builds with. -/
structure Shard where
  text : Word
  order : HashOrder
  root_len : ℕ

def Shard.load (s : Shard) : Except Fault Dictionary := pipeline.load s.order s.root_len s.text

/-- The words of all shards together. -/
def shardWords (shards : List Shard) : Finset Word := (shards.map fun s => dictionaryWords s.text).foldr (· ∪ ·) ∅

theorem mem_shardWords {shards : List Shard} {w : Word} :
    w ∈ shardWords shards ↔ ∃ s ∈ shards, w ∈ dictionaryWords s.text := by
  induction shards with
  | nil => simp [shardWords]
  | cons s shards ih =>
    have hstep : shardWords (s :: shards) = dictionaryWords s.text ∪ shardWords shards := rfl
    simp [hstep, ih]

/-- All ranks load their shards, and hold the words of all shards together. -/
theorem mapM_load_ok {shards : List Shard} (hnul : ∀ s ∈ shards, NulFree s.text)
    (hlines : ∀ s ∈ shards, segments newline s.text ≠ [])
    (hshort : ∀ s ∈ shards, ∀ l ∈ segments newline s.text, Short l) :
    ∃ dicts, shards.mapM Shard.load = .ok dicts ∧ dicts.length = shards.length ∧ (∀ d ∈ dicts, Ready d) ∧
      unionWords dicts = shardWords shards := by
  induction shards with
  | nil => exact ⟨[], rfl, rfl, by simp, rfl⟩
  | cons s shards ih =>
    obtain ⟨d, hd, horig, hbuilt⟩ := load_ok (hlines s (by simp)) s.order s.root_len
    obtain ⟨dicts, hdicts, hlength, hready, hunion⟩ := ih (fun s hs => hnul s (by simp [hs]))
      (fun s hs => hlines s (by simp [hs])) fun s hs => hshort s (by simp [hs])
    refine ⟨d :: dicts, ?_, by simp [hlength], ?_, ?_⟩
    · rw [List.mapM_cons, Shard.load, hd, loop.bind_ok, hdicts, loop.bind_ok, loop.pure_eq_ok]
    · intro e he
      cases List.mem_cons.mp he with
      | inl h => exact h ▸ ready_of_built (hnul s (by simp)) (hshort s (by simp)) horig hbuilt
      | inr h => exact hready e h
    · change d.orig ∪ unionWords dicts = dictionaryWords s.text ∪ shardWords shards
      rw [horig, hunion]

/-- What all shards pack: at most two records for each of their lines and each word. -/
theorem sum_length_maskedBlocks_le (sorter : Sorter) {wl : WordList} (hwords : ∀ w ∈ wl.words, Short w)
    (present_global : List Byte) {shards : List Shard} (hnul : ∀ s ∈ shards, NulFree s.text)
    (hshort : ∀ s ∈ shards, ∀ l ∈ segments newline s.text, Short l) {dicts : List Dictionary}
    (hload : shards.mapM Shard.load = .ok dicts) :
    (dicts.map fun d => (maskedBlocks sorter wl present_global d).flatten.length).sum ≤
      wl.words.length * (2 * (shards.map fun s => (unlines newline (segments newline s.text)).length).sum) := by
  induction shards generalizing dicts with
  | nil =>
    obtain rfl : [] = dicts := Except.ok.inj hload
    simp
  | cons s shards ih =>
    rw [List.mapM_cons] at hload
    obtain ⟨d, hd, hload⟩ := loop.bind_eq_ok_iff.mp hload
    obtain ⟨rest, hrest, hload⟩ := loop.bind_eq_ok_iff.mp hload
    obtain rfl := Except.ok.inj hload
    obtain ⟨hready, horig⟩ := load_ready (hnul s (by simp)) (hshort s (by simp)) hd
    have hfirst := length_maskedBlocks_le sorter hwords present_global hready
      fun u hu => List.mem_toFinset.mp (by rwa [horig] at hu)
    have hothers := ih (fun s hs => hnul s (by simp [hs])) (fun s hs => hshort s (by simp [hs])) hrest
    simp only [List.map_cons, List.sum_cons, Nat.mul_add] at hfirst hothers ⊢
    omega

/-- For lines and words shorter than `2^31` bytes: whatever the shards, the list
    rank 0 obtains is the answer over the union of the shards' words. -/
theorem MergePackedAcrossRanks_eq_answer (sorter : Sorter) (shards : List Shard) (word_text : Word)
    (hshards : shards ≠ []) (hnul : ∀ s ∈ shards, NulFree s.text)
    (hlines : ∀ s ∈ shards, segments newline s.text ≠ [])
    (hshort : ∀ s ∈ shards, ∀ l ∈ segments newline s.text, Short l)
    (hwords : ∀ w ∈ segments newline word_text, Short w)
    (hindex : (segments newline word_text).length * shards.length < 2147483648) :
    let word_list := BuildWordList word_text
    ∃ dicts present_global pks, shards.mapM Shard.load = .ok dicts ∧
      presentGlobal word_list dicts = .ok present_global ∧
      secondPass sorter word_list present_global dicts = .ok pks ∧
      (packedBytes pks < 2147483648 →
        MergePackedAcrossRanks word_list present_global pks 0 =
          .ok (answer (shardWords shards) (segments newline word_text))) := by
  intro word_list
  have hlist : word_list.words = segments newline word_text := BuildWordList_words word_text
  obtain ⟨dicts, hdicts, hlength, hready, hunion⟩ := mapM_load_ok hnul hlines hshort
  have hsize : 0 < dicts.length := by
    rw [hlength, List.length_pos_iff]
    exact hshards
  rw [← hlist] at hwords hindex ⊢
  rw [← hlength] at hindex
  obtain ⟨present_global, pks, hpresent, hpks, -, -, hmerge⟩ :=
    merge_eq_answer sorter hwords hready ((Nat.le_mul_of_pos_right _ hsize).trans_lt hindex)
  rw [hunion] at hmerge
  exact ⟨dicts, present_global, pks, hdicts, hpresent, hpks, hmerge (indexFits_of_mul_lt hsize hindex)⟩

/-- Two shards, each with a neighbour of the word `2`. -/
theorem MergePackedAcrossRanks_eq_answer_small :
    let shards := [Shard.mk [49, 10] default 1, Shard.mk [10, 51] default 7]
    ∃ dicts present_global pks, shards.mapM Shard.load = .ok dicts ∧
      presentGlobal (BuildWordList [50, 10]) dicts = .ok present_global ∧
      secondPass default (BuildWordList [50, 10]) present_global dicts = .ok pks ∧
      MergePackedAcrossRanks (BuildWordList [50, 10]) present_global pks 0 = .ok [⟨[50], [[49], [51]]⟩] := by
  intro shards
  have hnul : ∀ s ∈ shards, NulFree s.text := by simp [shards, NulFree]
  have hlines : ∀ s ∈ shards, segments newline s.text ≠ [] := by simp [shards]; decide
  have hshort : ∀ s ∈ shards, ∀ l ∈ segments newline s.text, Short l := by simp [shards]; decide
  obtain ⟨dicts, present_global, pks, hdicts, hpresent, hpks, hmerge⟩ :=
    MergePackedAcrossRanks_eq_answer default shards [50, 10] (by simp [shards]) hnul hlines hshort (by decide)
      (by simp [shards]; decide)
  have hwords : (BuildWordList [50, 10]).words = [[50]] := by
    rw [BuildWordList_words]
    decide
  have hanswer : answer (shardWords shards) (segments newline [50, 10]) = [⟨[50], [[49], [51]]⟩] := by
    have hknown : shardWords shards = {[49], [51]} := by
      simp only [shards, shardWords]
      decide
    have hneighbours : neighbours OneEdit ({[49], [51]} : Finset Word) [50] = [[49], [51]] := by
      refine (eq_neighbours (by decide) fun u => ?_).symm
      rw [List.mem_pair, Finset.mem_insert, Finset.mem_singleton, iff_self_and]
      rintro (rfl | rfl) <;> decide
    rw [hknown, (by decide : segments newline [50, 10] = [[50]])]
    simp [answer, check, hneighbours]
  rw [hanswer] at hmerge
  refine ⟨dicts, present_global, pks, hdicts, hpresent, hpks, hmerge ?_⟩
  -- Each shard packs at most its line and the capital variant.
  obtain ⟨mask, hmask, hlength, -⟩ := presentGlobal_spec (show (BuildWordList [50, 10]).words.length < 2147483648 by
    simp [hwords]) dicts
  obtain rfl : mask = present_global := loop.ok_unique hmask hpresent
  have hroom := sum_length_maskedBlocks_le default (show ∀ w ∈ (BuildWordList [50, 10]).words, Short w by
    rw [hwords]
    decide) mask hnul hshort hdicts
  have hbytes : (BuildWordList [50, 10]).words.length *
      (2 * (shards.map fun s => (unlines newline (segments newline s.text)).length).sum) < 2147483648 := by
    rw [hwords]
    decide
  rw [secondPass_eq default hlength] at hpks
  rw [← Except.ok.inj hpks, packedBytes_eq, List.length_flatten, List.map_map, List.map_map]
  exact hroom.trans_lt hbytes

theorem nulFree_longWord (n : ℕ) : NulFree (longWord n) := by
  intro c hc
  cases List.mem_cons.mp hc with
  | inl h =>
    subst h
    decide
  | inr h =>
    rw [(List.mem_replicate.mp h).2]
    decide

theorem nulFree_longText (n : ℕ) : NulFree (longText n) := by
  intro c hc
  simp only [longText, List.mem_append, List.mem_cons, List.not_mem_nil, or_false] at hc
  obtain rfl | rfl | hc | rfl := hc
  · decide
  · decide
  · exact nulFree_longWord n c hc
  · decide

/-- The dictionary of `longText (n + 1)` loses the neighbour of `longWord n`. -/
theorem merge_longText {n : ℕ} (hwrap : toInt ((n + 1 : ℕ) : Int) = 0) (hsmall : toInt (n : Int) ≤ 2) (hn : 1 < n)
    (sorter : Sorter) (order : HashOrder) :
    ∃ dicts present_global pks, [Shard.mk (longText (n + 1)) order 1].mapM Shard.load = .ok dicts ∧
      presentGlobal (BuildWordList (longWord n)) dicts = .ok present_global ∧
      secondPass sorter (BuildWordList (longWord n)) present_global dicts = .ok pks ∧
      packedBytes pks = 0 ∧
      MergePackedAcrossRanks (BuildWordList (longWord n)) present_global pks 0 = .ok [⟨longWord n, []⟩] := by
  set wl := BuildWordList (longWord n) with hwl
  have hwords : wl.words = [longWord n] := by
    rw [hwl, BuildWordList_words, segments_of_notMem (newline_notMem_longWord n)]
    rfl
  set d := (Dictionary.new (longText (n + 1))).withTree order [49] with hd
  have hload : [Shard.mk (longText (n + 1)) order 1].mapM Shard.load = .ok [d] := by
    have hbuilds := builds_longText (by omega : 0 < n + 1) order
    rw [List.mapM_cons, Shard.load, load_eq_builds, hbuilds]
    rfl
  have hcandidates : d.Candidates (longWord n) [] = [] := Candidates_longText hwrap hsmall hn order
  have hcontains : d.Contains (longWord n) = false := by
    have horig : d.orig = {[49], longWord (n + 1)} := (Dictionary.new_orig _).trans (dictionaryWords_longText _)
    have hshort : longWord n ≠ [49] := longWord_ne (by omega)
    have hlong : longWord n ≠ longWord (n + 1) := fun h => by simpa [longWord] using congrArg List.length h
    simp [Dictionary.Contains, horig, hshort, hlong]
  obtain ⟨present_global, hpresent, hlength, hmask⟩ := presentGlobal_spec (show wl.words.length < 2147483648 by
    simp [hwords]) [d]
  have hzero : present_global[0]? = some 0 := (hmask 0 (longWord n) (by simp [hwords])).mpr (by simpa using hcontains)
  have hnone : ∀ e ∈ [d], ∀ w ∈ wl.words, e.Candidates w [] = [] := by
    simpa [hwords] using hcandidates
  have hbytes := packedBytes_secondPass_eq_zero sorter hlength hnone (secondPass_eq sorter hlength [d])
  refine ⟨[d], present_global, _, hload, hpresent, secondPass_eq sorter hlength [d], hbytes, ?_⟩
  rw [packedBytes_eq] at hbytes
  rw [MergePackedAcrossRanks_eq wl present_global ([d].map (maskedBlocks sorter wl present_global)) hlength
    (by simp [maskedBlocks]) (by simp [hwords]) (indexFits_of_mul_lt (by simp) (by simp [hwords])) (by omega), hwords]
  have hblock := maskedBlocks_getElem? sorter (show wl.words[0]? = some (longWord n) by simp [hwords]) hzero d
  rw [hcandidates] at hblock
  simp [List.range_succ, mergedLine, hzero, hwords, hblock, records]

/-- Without a bound on the lines a candidate can be lost already with one shard. -/
theorem MergePackedAcrossRanks_misses_long_word :
    NulFree (longText 4294967296) ∧ NulFree (longWord 4294967295) ∧
      longWord 4294967296 ∈ dictionaryWords (longText 4294967296) ∧
      OneEdit (longWord 4294967295) (longWord 4294967296) ∧
      ∀ sorter order, ∃ dicts present_global pks,
        [Shard.mk (longText 4294967296) order 1].mapM Shard.load = .ok dicts ∧
        presentGlobal (BuildWordList (longWord 4294967295)) dicts = .ok present_global ∧
        secondPass sorter (BuildWordList (longWord 4294967295)) present_global dicts = .ok pks ∧
        packedBytes pks = 0 ∧
        MergePackedAcrossRanks (BuildWordList (longWord 4294967295)) present_global pks 0 =
          .ok [⟨longWord 4294967295, []⟩] := by
  refine ⟨nulFree_longText 4294967296, nulFree_longWord 4294967295, ?_, oneEdit_longWord 4294967295,
    fun sorter order => ?_⟩
  · rw [dictionaryWords_longText]
    exact Finset.mem_insert_of_mem (Finset.mem_singleton_self _)
  · exact merge_longText (n := 4294967295) (by decide) (by decide) (by omega) sorter order

end spellcheck.pipeline
