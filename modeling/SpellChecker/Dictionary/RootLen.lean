import SpellChecker.Data.Mode
import SpellChecker.Dictionary.Parse

open lines mode

namespace spellcheck.dictionary

/-- The count kept for a length; an absent key stands for zero. -/
def WordListState.count (s : WordListState) (len : ℕ) : ℕ := (s.lens_count.lookup len).getD 0

theorem WordListState.recordWord_eq (s : WordListState) (word : Word) :
    s.recordWord word =
      if s.max_count < s.count word.length + 1 then
        ⟨⟨s.word_list.words ++ [word], word.length⟩,
          s.lens_count.insert word.length (s.count word.length + 1), s.count word.length + 1⟩
      else
        ⟨⟨s.word_list.words ++ [word], s.word_list.root_len⟩,
          s.lens_count.insert word.length (s.count word.length + 1), s.max_count⟩ := by
  cases h : s.lens_count.lookup word.length with
  | none => simp [WordListState.recordWord, WordListState.count, h]
  | some count => simp [WordListState.recordWord, WordListState.count, h]

theorem WordListState.recordWord_count (s : WordListState) (word : Word) (len : ℕ) :
    (s.recordWord word).count len = s.count len + if len = word.length then 1 else 0 := by
  have hcounts : (s.recordWord word).lens_count = s.lens_count.insert word.length (s.count word.length + 1) := by
    rw [s.recordWord_eq]
    split <;> rfl
  rw [WordListState.count, hcounts]
  by_cases hlen : len = word.length
  · subst hlen
    simp
  · simp [hlen, AList.lookup_insert_ne hlen, WordListState.count]

/-- The counts are those of the lengths recorded so far, `max_count` is the
    greatest of them, and `root_len` is the first length that reached it. -/
structure WordListState.Tallies (s : WordListState) (lens : List ℕ) : Prop where
  count_eq : ∀ len, s.count len = lens.count len
  leads : (lens = [] ∧ s.max_count = 0 ∧ s.word_list.root_len = 0) ∨
    ∃ i, Leads lens s.max_count s.word_list.root_len i

/-- No length was recorded more than `max_count` times. -/
theorem WordListState.Tallies.count_le {s : WordListState} {lens : List ℕ} (h : s.Tallies lens) (len : ℕ) :
    lens.count len ≤ s.max_count := by
  rcases h.leads with ⟨rfl, -, -⟩ | ⟨i, hleads⟩
  · simp
  · exact hleads.count_le len

/-- One more word keeps the tallies. -/
theorem WordListState.Tallies.recordWord {s : WordListState} {lens : List ℕ} (h : s.Tallies lens) (word : Word) :
    (s.recordWord word).Tallies (lens ++ [word.length]) := by
  have hcount (len : ℕ) : (s.recordWord word).count len = (lens ++ [word.length]).count len := by
    rw [s.recordWord_count, h.count_eq, List.count_append, List.count_singleton]
    by_cases hlen : len = word.length
    · simp [hlen]
    · simp [hlen, Ne.symm hlen]
  have hword : s.count word.length + 1 = (lens ++ [word.length]).count word.length := by
    rw [← hcount, s.recordWord_count, if_pos rfl]
  refine ⟨hcount, .inr ?_⟩
  rw [s.recordWord_eq]
  by_cases hraise : s.max_count < s.count word.length + 1
  · rw [if_pos hraise]
    refine ⟨lens.length, ?_⟩
    rw [hword] at hraise ⊢
    exact leads_of_lt_count h.count_le hraise
  · rw [if_neg hraise]
    rcases h.leads with ⟨-, hzero, -⟩ | ⟨i, hleads⟩
    · omega
    · exact ⟨i, hleads.append (by omega)⟩

/-- A loop over words keeps the tallies of all lengths it has recorded. -/
theorem WordListState.Tallies.foldl {s : WordListState} {lens : List ℕ} (h : s.Tallies lens) (words : List Word) :
    (words.foldl WordListState.recordWord s).Tallies (lens ++ words.map List.length) := by
  induction words generalizing s lens with
  | nil => simpa using h
  | cons word words ih =>
    rw [List.foldl_cons, List.map_cons, List.append_cons]
    exact ih (h.recordWord word)

theorem BuildWordList_tallies (text : Word) :
    ∃ s : WordListState, s.word_list = BuildWordList text ∧ s.Tallies ((segments newline text).map List.length) := by
  have hstart : (⟨⟨[], 0⟩, ∅, 0⟩ : WordListState).Tallies [] :=
    ⟨fun len => by simp [WordListState.count], .inl ⟨rfl, rfl, rfl⟩⟩
  refine ⟨_, rfl, ?_⟩
  rw [BuildWordList.loop_eq, List.drop_zero]
  exact hstart.foldl _

/-- `root_len` is the most frequent length of a word, that is of a non-empty line
    of the text; among several it is the one that was the first to occur so often.
    Without words it is zero. -/
theorem BuildWordList_root_len (text : Word) :
    let lens := (segments newline text).map List.length
    let root_len := (BuildWordList text).root_len
    let k := lens.count root_len
    (BuildWordList text).words = segments newline text ∧ (segments newline text = [] → root_len = 0) ∧
      (segments newline text ≠ [] → (∀ len, lens.count len ≤ k) ∧
        ∃ i, Occurrence lens k root_len i ∧
          ∀ len, len ≠ root_len → lens.count len = k → ∀ j, Occurrence lens k len j → i < j) := by
  intro lens root_len k
  obtain ⟨s, hs, htallies⟩ := BuildWordList_tallies text
  refine ⟨BuildWordList_words text, ?_, ?_⟩
  · intro hlines
    rcases htallies.leads with ⟨-, -, hroot⟩ | ⟨i, hleads⟩
    · rwa [hs] at hroot
    · have hlt := hleads.reached.lt_length
      simp [hlines] at hlt
  · intro hlines
    rcases htallies.leads with ⟨hnil, -, -⟩ | ⟨i, hleads⟩
    · simp [hlines] at hnil
    · rw [hs] at hleads
      have hk : k = s.max_count := hleads.count_leader
      rw [hk]
      exact ⟨hleads.count_le, i, hleads.reached, fun len hne _ j hj => hleads.lt_of_ne hne hj⟩

end spellcheck.dictionary
