import SpellChecker.Candidates.Basic
import SpellChecker.Data.Lines

open blocks lines
open spellcheck.dictionary

namespace spellcheck.candidates

/-- The buffers that hold one block of bytes for each word. -/
def packed (blocks : List Word) : Packed where
  big := blocks.flatten
  off := (List.range blocks.length).map fun i => toInt (start blocks i)
  len := blocks.map fun b => toInt b.length

/-- Writing entry `i` behind the first `i` entries of a result. -/
theorem set_of_take_eq {α : Type*} {target now : List α} {i : ℕ} {x : α} (hlength : now.length = target.length)
    (hdone : now.take i = target.take i) (hx : target[i]? = some x) :
    (now.set i x).take (i + 1) = target.take (i + 1) := by
  have hi := (List.getElem?_eq_some_iff.mp hx).1
  rw [List.take_add_one, List.take_add_one, hx, List.getElem?_set_self (by omega), List.take_set_of_le (Nat.le_refl i),
    hdone]

/-- The state of the packing loop before word `i`: `big` holds the blocks of the
    words done, and the first `i` entries of `off` and `len` are final. -/
structure PackedUpTo (blocks : List Word) (i : ℕ) (state : ℕ × Packed) : Prop where
  cur : state.1 = start blocks i
  big : state.2.big = (blocks.take i).flatten
  off : state.2.off.take i = (packed blocks).off.take i
  off_length : state.2.off.length = blocks.length
  len : state.2.len.take i = (packed blocks).len.take i
  len_length : state.2.len.length = blocks.length

theorem PackedUpTo.zero (blocks : List Word) {n : ℕ} (hn : blocks.length = n) :
    PackedUpTo blocks 0 (0, ⟨[], List.replicate n 0, List.replicate n 0⟩) :=
  ⟨by simp, by simp, by simp, by simp [hn], by simp, by simp [hn]⟩

/-- One turn of the packing loop appends the records of its word. -/
theorem packWord_step {local_candidates : List (List Word)} {i : ℕ} {state : ℕ × Packed}
    (hi : i < local_candidates.length)
    (h : PackedUpTo (local_candidates.map (unlines newline)) i state) :
    ∃ next, packWord local_candidates state i = .ok next ∧
      PackedUpTo (local_candidates.map (unlines newline)) (i + 1) next := by
  obtain ⟨cur, p⟩ := state
  obtain ⟨hcur, hbig, hoff, hoffLength, hlen, hlenLength⟩ := h
  obtain ⟨cands, hcands⟩ : ∃ cands, local_candidates[i]? = some cands := ⟨_, List.getElem?_eq_getElem hi⟩
  have hcount : i < (local_candidates.map (unlines newline)).length := by rwa [List.length_map]
  have hblock : (local_candidates.map (unlines newline))[i]? = some (unlines newline cands) := by
    rw [List.getElem?_map, hcands, Option.map_some]
  generalize local_candidates.map (unlines newline) = blocks
    at hcur hbig hoff hoffLength hlen hlenLength hcount hblock ⊢
  simp only at hcur hbig hoff hoffLength hlen hlenLength
  have hgrown : (p.big ++ unlines newline cands).length = start blocks (i + 1) := by
    rw [start_succ hblock, List.length_append, hbig, start, List.length_flatten]
  have hdifference : start blocks (i + 1) - start blocks i = (unlines newline cands).length := by
    rw [start_succ hblock, Nat.add_sub_cancel_left]
  refine ⟨_, by rw [packWord, vecAt_of_getElem? hcands]; rfl, ?_, ?_, ?_, ?_, ?_, ?_⟩
  · simp only [foldl_append_line, hgrown]
  · simp only [foldl_append_line, hbig]
    rw [List.take_add_one, hblock, List.flatten_append]
    simp
  · apply set_of_take_eq (by simp [packed, hoffLength]) hoff
    simp [packed, hcount, hcur]
  · rw [List.length_set, hoffLength]
  · apply set_of_take_eq (by simp [packed, hlenLength]) hlen
    simp only [packed, foldl_append_line, hgrown, hcur, hdifference, List.getElem?_map, hblock, Option.map_some]
  · rw [List.length_set, hlenLength]

/-- After the last word the state is the packed result. -/
theorem PackedUpTo.eq_packed {blocks : List Word} {state : ℕ × Packed} (h : PackedUpTo blocks blocks.length state) :
    state.2 = packed blocks := by
  obtain ⟨cur, big, off, len⟩ := state
  obtain ⟨-, hbig, hoff, hoffLength, hlen, hlenLength⟩ := h
  simp only at hbig hoff hoffLength hlen hlenLength
  rw [List.take_length] at hbig
  rw [List.take_of_length_le hoffLength.le, List.take_of_length_le (by simp [packed])] at hoff
  rw [List.take_of_length_le hlenLength.le, List.take_of_length_le (by simp [packed])] at hlen
  rw [hbig, hoff, hlen]
  rfl

/-- `PackAllCandidates` never faults: `big` holds the records of all words, one
    behind the other, and `off` and `len` their places, reduced to `int`. -/
theorem PackAllCandidates_eq {wl : WordList} {loc : LocalMisspelled}
    (hlength : loc.local_candidates.length = wl.words.length) :
    PackAllCandidates wl loc = .ok (packed (loc.local_candidates.map (unlines newline))) := by
  have hcount : (loc.local_candidates.map (unlines newline)).length = wl.words.length := by
    rw [List.length_map, hlength]
  obtain ⟨final, hfinal, hdone⟩ := loop.foldlM_range_ok (packWord loc.local_candidates)
    (PackedUpTo (loc.local_candidates.map (unlines newline))) wl.words.length _ (PackedUpTo.zero _ hcount)
    fun i state hi h => packWord_step (by omega) h
  rw [← hcount] at hdone
  rw [PackAllCandidates, hfinal, ← hdone.eq_packed]
  rfl

end spellcheck.candidates
