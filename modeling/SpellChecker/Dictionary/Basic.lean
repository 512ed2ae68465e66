import Mathlib.Data.Finset.Card
import Mathlib.Data.List.AList
import SpellChecker.BKTree.Basic

open spellcheck.bk_tree

namespace spellcheck.dictionary

/-- `std::unordered_map<size_t, std::vector<std::string>>`. -/
abbrev Buckets := AList fun _ : ℕ => List Word

/-- `Dictionary`. -/
structure Dictionary where
  size : ℕ
  orig : Finset Word
  len_to_words : Buckets
  bk_tree : BKTree

/-- The order in which one run iterates over the hash containers. Every order
    of the elements is possible; nothing is assumed about it. -/
structure HashOrder where
  orig : Finset Word → List Word
  orig_nodup : ∀ s, (orig s).Nodup
  mem_orig : ∀ s w, w ∈ orig s ↔ w ∈ s
  len_to_words : Buckets → List (Sigma fun _ : ℕ => List Word)
  len_to_words_perm : ∀ m, (len_to_words m).Perm m.entries

/-- `m[key]` on the map: an absent key is inserted with an empty vector. -/
def Buckets.index (m : Buckets) (key : ℕ) : List Word × Buckets :=
  match m.lookup key with
  | some bucket => (bucket, m)
  | none => ([], m.insert key [])

/-- `len_to_words[word.size()].push_back(word)`. -/
def Buckets.push_back (m : Buckets) (word : Word) : Buckets :=
  let (bucket, m) := m.index word.length
  m.insert word.length (bucket ++ [word])

/-- `toupper`, which only the bytes `'a'..'z'` are passed to. -/
def toupper (c : Byte) : Byte := if 97 ≤ c ∧ c ≤ 122 then c - 32 else c

/-- The inner loop of `Build` and `BuildWordList`: the characters from index
    `i` up to the next newline or the end of the text. -/
def readWord (text : Word) (i : ℕ) : Word := (text.drop i).takeWhile (· ≠ newline)

/-- `orig.insert(word); len_to_words[word.size()].push_back(word);`. -/
def Dictionary.record (d : Dictionary) (word : Word) : Dictionary :=
  { d with orig := insert word d.orig, len_to_words := Buckets.push_back d.len_to_words word }

/-- What `Build` does with a non-empty word. -/
def Dictionary.recordLine (d : Dictionary) (word : Word) : Dictionary :=
  let d := d.record word
  match word with
  | first :: rest => if 97 ≤ first ∧ first ≤ 122 then d.record (toupper first :: rest) else d
  | [] => d

/-- The outer loop of `Build` from index `i` on. -/
def Dictionary.Build.loop (text : Word) (i : ℕ) (d : Dictionary) : Dictionary :=
  if i < text.length then
    let word := readWord text i
    let i := i + word.length
    if word = [] then loop text (i + 1) d
    else
      let d := d.recordLine word
      -- skip the newline character
      if text[i]? = some newline then loop text (i + 1) d else loop text i d
  else d
termination_by text.length - i
decreasing_by
  · omega
  · omega
  · have : 0 < (readWord text _).length := List.length_pos_iff.mpr ‹_›
    omega

/-- `Dictionary::Build`. -/
def Dictionary.Build (text : Word) (d : Dictionary) : Dictionary :=
  let d := Build.loop text 0 d
  { d with size := d.orig.card }

/-- `Dictionary(const char* text, size_t text_size)`. -/
def Dictionary.new (text : Word) : Dictionary := .Build text ⟨0, ∅, ∅, .new []⟩

/-- The choice of `root_word` in `BuildBKTree`, and the map as the accesses
    leave it. -/
def chooseRoot (order : HashOrder) (root_len : ℕ) (orig : Finset Word) (len_to_words : Buckets) :
    Except Fault Word × Buckets :=
  if (len_to_words.lookup root_len).isSome ∧ (Buckets.index len_to_words root_len).1 ≠ [] then
    let (bucket, len_to_words) := Buckets.index len_to_words root_len
    (vecAt bucket 0, len_to_words)
  else match order.len_to_words len_to_words with
    | entry :: _ => (vecAt entry.2 0, len_to_words)
    | [] => match order.orig orig with
      | word :: _ => (.ok word, len_to_words)
      | [] => (.error .dictionaryEmpty, len_to_words)

/-- `Dictionary::BuildBKTree`: how the call ends, and the object as it leaves
    it, also when it throws. -/
def Dictionary.BuildBKTree (order : HashOrder) (root_len : ℕ) (d : Dictionary) :
    Except Fault Unit × Dictionary :=
  match chooseRoot order root_len d.orig d.len_to_words with
  | (.error fault, len_to_words) => (.error fault, { d with len_to_words })
  | (.ok root_word, len_to_words) =>
    let bk_tree := (order.orig d.orig).foldl BKTree.AddNode (.new root_word)
    (.ok (), { d with len_to_words, bk_tree })

/-- `Dictionary::Contains`. -/
def Dictionary.Contains (d : Dictionary) (word : Word) : Bool := decide (word ∈ d.orig)

/-- `Dictionary::Candidates`: `*result` as the call leaves it. When an `int` of
    the search overflows, which takes a word of `2^31` bytes or more, nothing is
    known of the call, and the result is left as it was. -/
def Dictionary.Candidates (d : Dictionary) (word : Word) (result : List Word) : List Word :=
  match d.bk_tree.SearchNode word 2 result with
  | .ok result => result
  | .error _ => result

/-- `WordList`. -/
structure WordList where
  words : List Word
  root_len : ℕ

/-- The local variables of `BuildWordList`. -/
structure WordListState where
  word_list : WordList
  lens_count : AList fun _ : ℕ => ℕ
  max_count : ℕ

/-- What `BuildWordList` does with a non-empty word. -/
def WordListState.recordWord (s : WordListState) (word : Word) : WordListState :=
  let words := s.word_list.words ++ [word]
  let len := word.length
  let lens_count := match s.lens_count.lookup len with
    | none => s.lens_count.insert len 1
    | some count => s.lens_count.insert len (count + 1)
  let count := (lens_count.lookup len).getD 0
  if count > s.max_count then ⟨⟨words, len⟩, lens_count, count⟩
  else ⟨⟨words, s.word_list.root_len⟩, lens_count, s.max_count⟩

/-- The outer loop of `BuildWordList` from index `i` on. The newline behind a
    word is left to the next round, where it reads an empty word. -/
def BuildWordList.loop (text : Word) (i : ℕ) (s : WordListState) : WordListState :=
  if i < text.length then
    let word := readWord text i
    let i := i + word.length
    if word = [] then loop text (i + 1) s else loop text i (s.recordWord word)
  else s
termination_by text.length - i
decreasing_by
  · omega
  · have : 0 < (readWord text _).length := List.length_pos_iff.mpr ‹_›
    omega

/-- `BuildWordList`. -/
def BuildWordList (text : Word) : WordList := (BuildWordList.loop text 0 ⟨⟨[], 0⟩, ∅, 0⟩).word_list

end spellcheck.dictionary
