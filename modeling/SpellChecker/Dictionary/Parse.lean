import Mathlib.Data.Finset.Union
import SpellChecker.Data.Lines
import SpellChecker.Dictionary.Basic

open lines
open spellcheck.bk_tree

namespace spellcheck.dictionary

/-- A word a dictionary line contributes: the line itself, and the line with
    its first letter in upper case where that letter is `'a'..'z'`. -/
def variants : Word → List Word
  | [] => []
  | first :: rest =>
    (first :: rest) :: if 97 ≤ first ∧ first ≤ 122 then [(first - 32) :: rest] else []

/-- The words a dictionary text stands for: its non-empty lines and their
    capitalised variants. -/
def dictionaryWords (text : Word) : Finset Word := ((segments newline text).flatMap variants).toFinset

theorem mem_dictionaryWords {text w : Word} :
    w ∈ dictionaryWords text ↔ ∃ l ∈ segments newline text, w ∈ variants l := by
  simp [dictionaryWords]

/-- The inner loop cuts the rest of the text at the next newline. -/
theorem readWord_split (text : Word) (i : ℕ) :
    newline ∉ readWord text i ∧
      (text.drop i = readWord text i ∨ ∃ after, text.drop i = readWord text i ++ newline :: after) :=
  takeWhile_split newline (text.drop i)

theorem drop_add_of_drop_eq {text : Word} {i : ℕ} (first : Word) {second : Word}
    (h : text.drop i = first ++ second) :
    text.drop (i + first.length) = second := by
  rw [← List.drop_drop, h, List.drop_left]

theorem segments_newline_cons (text : Word) : segments newline (newline :: text) = segments newline text := by
  have h := segments_line (by simp : newline ∉ ([] : Word)) text
  simpa using h

/-- An empty word is read at a newline only. -/
theorem getElem?_of_readWord_nil {text : Word} {i : ℕ} (hi : i < text.length) (hword : readWord text i = []) :
    text[i]? = some newline := by
  obtain ⟨-, hsplit⟩ := readWord_split text i
  rw [hword] at hsplit
  cases hsplit with
  | inl hend => exact absurd (List.drop_eq_nil_iff.mp hend) (by omega)
  | inr h =>
    obtain ⟨after, hdrop⟩ := h
    have := congrArg List.head? hdrop
    simpa [List.head?_drop] using this

/-- A newline in front of the rest of the text adds no word. -/
theorem segments_skip_newline {text : Word} {i : ℕ} (h : text[i]? = some newline) :
    segments newline (text.drop i) = segments newline (text.drop (i + 1)) := by
  obtain ⟨hi, hat⟩ := List.getElem?_eq_some_iff.mp h
  rw [List.drop_eq_getElem_cons hi, hat, segments_newline_cons]

/-- A non-empty word that is read is the next segment. -/
theorem segments_readWord {text : Word} {i : ℕ} (hword : readWord text i ≠ []) :
    segments newline (text.drop i) =
      readWord text i :: segments newline (text.drop (i + (readWord text i).length)) := by
  obtain ⟨hnewline, hsplit⟩ := readWord_split text i
  cases hsplit with
  | inl hlast =>
    have hdone : text.drop (i + (readWord text i).length) = [] :=
      drop_add_of_drop_eq (readWord text i) (by simpa using hlast)
    rw [hdone, hlast, segments_of_notMem hnewline]
    simp [hword]
  | inr h =>
    obtain ⟨after, hline⟩ := h
    rw [drop_add_of_drop_eq (readWord text i) hline, hline, segments_line hnewline, segments_newline_cons]
    simp [hword]

/-- From any index on, `Build` records the non-empty lines of the rest of the
    text, in order. -/
theorem Dictionary.Build.loop_eq (text : Word) (i : ℕ) (d : Dictionary) :
    Build.loop text i d = (segments newline (text.drop i)).foldl Dictionary.recordLine d := by
  generalize hsize : text.length - i = size
  induction size using Nat.strong_induction_on generalizing i d with
  | h size ih =>
    rw [Build.loop]
    by_cases hi : i < text.length
    · by_cases hword : readWord text i = []
      · have hskip := segments_skip_newline (getElem?_of_readWord_nil hi hword)
        simp only [if_pos hi, hword, List.length_nil, Nat.add_zero, if_true]
        rw [ih _ (by omega) (i + 1) d rfl, hskip]
      · have hpos : 0 < (readWord text i).length := List.length_pos_iff.mpr hword
        simp only [if_pos hi, if_neg hword]
        rw [segments_readWord hword, List.foldl_cons]
        split
        · rename_i hnewline
          rw [ih _ (by omega) _ _ rfl, segments_skip_newline hnewline]
        · rw [ih _ (by omega) _ _ rfl]
    · rw [if_neg hi, List.drop_eq_nil_of_le (by omega), segments_nil]
      rfl

/-- `BuildWordList` records the same lines, one by one. -/
theorem BuildWordList.loop_eq (text : Word) (i : ℕ) (s : WordListState) :
    BuildWordList.loop text i s = (segments newline (text.drop i)).foldl WordListState.recordWord s := by
  generalize hsize : text.length - i = size
  induction size using Nat.strong_induction_on generalizing i s with
  | h size ih =>
    rw [BuildWordList.loop]
    by_cases hi : i < text.length
    · by_cases hword : readWord text i = []
      · have hskip := segments_skip_newline (getElem?_of_readWord_nil hi hword)
        simp only [if_pos hi, hword, List.length_nil, Nat.add_zero, if_true]
        rw [ih _ (by omega) (i + 1) s rfl, hskip]
      · have hpos : 0 < (readWord text i).length := List.length_pos_iff.mpr hword
        simp only [if_pos hi, if_neg hword]
        rw [segments_readWord hword, List.foldl_cons, ih _ (by omega) _ _ rfl]
    · rw [if_neg hi, List.drop_eq_nil_of_le (by omega), segments_nil]
      rfl

theorem foldl_recordWord_words (ls : List Word) (s : WordListState) :
    (ls.foldl WordListState.recordWord s).word_list.words = s.word_list.words ++ ls := by
  induction ls generalizing s with
  | nil => simp
  | cons l ls ih =>
    have hstep : (s.recordWord l).word_list.words = s.word_list.words ++ [l] := by
      simp only [WordListState.recordWord]
      split <;> split <;> rfl
    rw [List.foldl_cons, ih, hstep, List.append_assoc]
    rfl

/-- The words of a word list are the non-empty lines of its text, in order. -/
theorem BuildWordList_words (text : Word) : (BuildWordList text).words = segments newline text := by
  rw [BuildWordList, BuildWordList.loop_eq, foldl_recordWord_words, List.drop_zero]
  rfl

@[simp] theorem Dictionary.record_orig (d : Dictionary) (word : Word) :
    (d.record word).orig = insert word d.orig := rfl

@[simp] theorem Dictionary.record_len_to_words (d : Dictionary) (word : Word) :
    (d.record word).len_to_words = Buckets.push_back d.len_to_words word := rfl

/-- Recording a line records its variants, one by one. -/
theorem Dictionary.recordLine_eq (d : Dictionary) {word : Word} (h : word ≠ []) :
    d.recordLine word = (variants word).foldl Dictionary.record d := by
  cases word with
  | nil => exact absurd rfl h
  | cons first rest =>
    simp only [Dictionary.recordLine, variants]
    split
    · rename_i hlower
      simp [toupper, hlower]
    · rfl

theorem Dictionary.foldl_recordLine_eq (d : Dictionary) {ls : List Word} (h : ∀ l ∈ ls, l ≠ []) :
    ls.foldl Dictionary.recordLine d = (ls.flatMap variants).foldl Dictionary.record d := by
  induction ls generalizing d with
  | nil => rfl
  | cons l ls ih =>
    rw [List.foldl_cons, d.recordLine_eq (h l (by simp)), ih _ fun m hm => h m (by simp [hm]),
      List.flatMap_cons, List.foldl_append]

theorem Dictionary.foldl_record_orig (d : Dictionary) (words : List Word) :
    (words.foldl Dictionary.record d).orig = words.toFinset ∪ d.orig := by
  induction words generalizing d with
  | nil => simp
  | cons w words ih =>
    rw [List.foldl_cons, ih]
    ext x
    simp

/-- Building records every variant of every line, in order. -/
theorem Dictionary.new_eq (text : Word) :
    Dictionary.new text =
      let d := ((segments newline text).flatMap variants).foldl Dictionary.record ⟨0, ∅, ∅, .new []⟩
      { d with size := d.orig.card } := by
  rw [Dictionary.new, Dictionary.Build, Build.loop_eq, List.drop_zero,
    Dictionary.foldl_recordLine_eq _ fun l hl => (mem_segments hl).1]

/-- The dictionary holds exactly the words its text stands for. -/
theorem Dictionary.new_orig (text : Word) : (Dictionary.new text).orig = dictionaryWords text := by
  rw [Dictionary.new_eq]
  simp [Dictionary.foldl_record_orig, dictionaryWords]

/-- A line stands for itself and for the line with its first letter in upper case. -/
theorem mem_variants_iff {w l : Word} :
    w ∈ variants l ↔ (l ≠ [] ∧ w = l) ∨
      ∃ first rest, l = first :: rest ∧ 97 ≤ first ∧ first ≤ 122 ∧ w = (first - 32) :: rest := by
  cases l with
  | nil => simp [variants]
  | cons first rest =>
    by_cases hlower : 97 ≤ first ∧ first ≤ 122
    · simp [variants, hlower]
    · simp only [variants, if_neg hlower, List.mem_singleton]
      constructor
      · exact fun h => .inl ⟨List.cons_ne_nil _ _, h⟩
      · rintro (⟨-, h⟩ | ⟨_, _, heq, hlo, hhi, -⟩)
        · exact h
        · obtain ⟨rfl, rfl⟩ := List.cons.inj heq
          exact absurd ⟨hlo, hhi⟩ hlower

/-- Words of a text are built from its characters and capitals of them. -/
theorem mem_variants {w l : Word} (h : w ∈ variants l) :
    w.length = l.length ∧
      (w = l ∨ ∃ first rest, l = first :: rest ∧ 97 ≤ first ∧ first ≤ 122 ∧ w = (first - 32) :: rest) := by
  cases mem_variants_iff.mp h with
  | inl h => exact ⟨congrArg List.length h.2, .inl h.2⟩
  | inr h =>
    obtain ⟨first, rest, rfl, hlo, hhi, rfl⟩ := h
    exact ⟨rfl, .inr ⟨first, rest, rfl, hlo, hhi, rfl⟩⟩

/-- A property of words that capitalising keeps and the lines of a text have
    holds of its words. -/
theorem forall_dictionaryWords {text : Word} {p : Word → Prop} (hlines : ∀ l ∈ segments newline text, p l)
    (hcapital : ∀ first rest, 97 ≤ first → p (first :: rest) → p ((first - 32) :: rest)) :
    ∀ w ∈ dictionaryWords text, p w := by
  intro w hw
  obtain ⟨l, hl, hvariant⟩ := mem_dictionaryWords.mp hw
  obtain ⟨-, rfl | ⟨first, rest, rfl, hlo, -, rfl⟩⟩ := mem_variants hvariant
  · exact hlines w hl
  · exact hcapital first rest hlo (hlines _ hl)

theorem toNat_capital {c : Byte} (h : 97 ≤ c) : (c - 32).toNat = c.toNat - 32 :=
  UInt8.toNat_sub_of_le c 32 (le_trans (by decide) h)

theorem mem_variants_self {l : Word} (h : l ≠ []) : l ∈ variants l := by
  cases l with
  | nil => exact absurd rfl h
  | cons first rest => simp [variants]

end spellcheck.dictionary
