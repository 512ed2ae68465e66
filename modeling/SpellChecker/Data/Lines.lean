import Mathlib.Algebra.Ring.Nat
import Mathlib.Data.List.Basic
import Mathlib.Data.List.DropRight
import Mathlib.Data.List.Flatten
import Mathlib.Data.List.Perm.Subperm
import Mathlib.Data.List.Range
import Mathlib.Tactic.Cases

namespace lines

variable {α : Type*}

/-- A text that ends on a line boundary. -/
def Closed (sep : α) (text : List α) : Prop := text = [] ∨ text.getLast? = some sep

/-- Lines written out, each followed by the separator. -/
def unlines (sep : α) (ls : List (List α)) : List α := ls.flatMap fun l => l ++ [sep]

/-- Induction along the lines of a text. -/
theorem line_induction (sep : α) {motive : List α → Prop}
    (tail : ∀ l, sep ∉ l → motive l)
    (line : ∀ l text, sep ∉ l → motive text → motive (l ++ sep :: text)) (text : List α) : motive text := by
  have go (text current : List α) (hcurrent : sep ∉ current) : motive (current ++ text) := by
    induction text generalizing current with
    | nil => simpa using tail current hcurrent
    | cons c text ih =>
      by_cases hc : c = sep
      · subst c
        exact line current text hcurrent (ih [] (by simp))
      · simpa using ih (current ++ [c]) (by simp [hcurrent, Ne.symm hc])
  exact go text [] (by simp)

theorem closed_nil (sep : α) : Closed sep [] := .inl rfl

theorem Closed.nil_of_notMem {sep : α} {l : List α} (h : Closed sep l) (hl : sep ∉ l) : l = [] := by
  cases h with
  | inl h => exact h
  | inr h => exact absurd (List.mem_of_getLast? h) hl

theorem closed_line_iff (sep : α) (l text : List α) : Closed sep (l ++ sep :: text) ↔ Closed sep text := by
  cases text with
  | nil => simp [Closed]
  | cons c text => simp [Closed, List.getLast?_append]

@[simp] theorem unlines_nil (sep : α) : unlines sep [] = [] := rfl

@[simp] theorem unlines_cons (sep : α) (l : List α) (ls : List (List α)) :
    unlines sep (l :: ls) = l ++ sep :: unlines sep ls := by
  simp [unlines]

/-- Each line takes its own room and one more place. -/
theorem length_unlines (sep : α) (ls : List (List α)) :
    (unlines sep ls).length = (ls.map fun l => l.length + 1).sum := by
  simp [unlines, List.length_flatMap]

/-- Different lines out of a list take at most its room. -/
theorem length_unlines_le_of_subset (sep : α) {some all : List (List α)} (hnodup : some.Nodup) (h : some ⊆ all) :
    (unlines sep some).length ≤ (unlines sep all).length := by
  obtain ⟨chosen, hperm, hsub⟩ := List.subperm_of_subset hnodup h
  rw [unlines, ← (hperm.flatMap_right _).length_eq]
  exact (hsub.flatMap _).length_le

/-- Appending lines one by one appends the written lines. -/
theorem foldl_append_line (sep : α) (ls : List (List α)) (text : List α) :
    ls.foldl (fun text l => text ++ l ++ [sep]) text = text ++ unlines sep ls := by
  induction ls generalizing text with
  | nil => simp
  | cons l ls ih =>
    rw [List.foldl_cons, ih, unlines_cons]
    simp only [List.append_assoc, List.singleton_append]

variable [DecidableEq α]

/-- The complete lines of a text with the offset each starts at, given the
    symbols `current` already read since the offset `start`. -/
def spansFrom (sep : α) (start : ℕ) (current : List α) : List α → List (ℕ × List α)
  | [] => []
  | c :: text =>
    if c = sep then (start, current) :: spansFrom sep (start + current.length + 1) [] text
    else spansFrom sep start (current ++ [c]) text

/-- The lines of a text that are ended by a separator, each with the offset of
    its first symbol, where the text itself starts at offset `start`. -/
def spans (sep : α) (start : ℕ) (text : List α) : List (ℕ × List α) := spansFrom sep start [] text

/-- The non-empty maximal separator-free segments of a text, in order; the last
    one needs no separator behind it. -/
def segments (sep : α) (text : List α) : List (List α) := (text.splitOn sep).filter (· ≠ [])

/-- What follows the last separator of a text. -/
def remainder (sep : α) (text : List α) : List α := text.rtakeWhile (· ≠ sep)

theorem takeWhile_line {sep : α} {l : List α} (hl : sep ∉ l) (text : List α) :
    (l ++ sep :: text).takeWhile (· ≠ sep) = l := by
  rw [List.takeWhile_append_of_pos fun c hc => by simpa using ne_of_mem_of_not_mem hc hl]
  simp

/-- Reading up to the first separator leaves either nothing or the separator
    and a rest. -/
theorem takeWhile_split (sep : α) (text : List α) :
    sep ∉ text.takeWhile (· ≠ sep) ∧
      (text = text.takeWhile (· ≠ sep) ∨ ∃ after, text = text.takeWhile (· ≠ sep) ++ sep :: after) := by
  induction text with
  | nil => simp
  | cons c text ih =>
    by_cases hc : c = sep
    · subst c
      simp
    · rw [List.takeWhile_cons_of_pos (by simpa using hc)]
      obtain ⟨hnotMem, hsplit⟩ := ih
      refine ⟨fun h => (List.mem_cons.mp h).elim (Ne.symm hc) hnotMem, ?_⟩
      cases hsplit with
      | inl h => exact .inl (congrArg (c :: ·) h)
      | inr h =>
        obtain ⟨after, h⟩ := h
        exact .inr ⟨after, congrArg (c :: ·) h⟩

theorem spansFrom_append (sep : α) (start : ℕ) (current : List α) {l : List α} (hl : sep ∉ l)
    (text : List α) :
    spansFrom sep start current (l ++ text) = spansFrom sep start (current ++ l) text := by
  induction l generalizing current with
  | nil => simp
  | cons c l ih =>
    have hc : c ≠ sep := fun h => hl (by simp [h])
    rw [List.cons_append, spansFrom, if_neg hc, ih _ fun h => hl (by simp [h])]
    simp

@[simp] theorem spans_nil (sep : α) (start : ℕ) : spans sep start [] = [] := rfl

theorem spans_of_notMem {sep : α} {l : List α} (hl : sep ∉ l) (start : ℕ) : spans sep start l = [] := by
  have h := spansFrom_append sep start [] hl []
  rw [List.append_nil] at h
  rw [spans, h, spansFrom]

theorem spans_line {sep : α} {l : List α} (hl : sep ∉ l) (start : ℕ) (text : List α) :
    spans sep start (l ++ sep :: text) = (start, l) :: spans sep (start + l.length + 1) text := by
  rw [spans, spansFrom_append sep start [] hl, List.nil_append, spansFrom, if_pos rfl, spans]

/-- What ends no line adds none. -/
theorem spans_append_of_notMem {sep : α} {tail : List α} (htail : sep ∉ tail) (start : ℕ) (text : List α) :
    spans sep start (text ++ tail) = spans sep start text := by
  induction text using line_induction sep generalizing start with
  | tail l hl => rw [spans_of_notMem hl, spans_of_notMem (by simp [hl, htail])]
  | line l text hl ih => rw [List.append_assoc, List.cons_append, spans_line hl, spans_line hl, ih]

/-- Every line of a text starts inside it and ends, with its separator, inside it. -/
theorem spans_bounds {sep : α} {start : ℕ} {text : List α} {entry : ℕ × List α}
    (h : entry ∈ spans sep start text) :
    start ≤ entry.1 ∧ entry.1 + entry.2.length < start + text.length ∧ sep ∉ entry.2 := by
  induction text using line_induction sep generalizing start with
  | tail l hl => simp [spans_of_notMem hl] at h
  | line l text hl ih =>
    rw [spans_line hl, List.mem_cons] at h
    cases h with
    | inl heq =>
      subst heq
      simp only [List.length_append, List.length_cons]
      exact ⟨by omega, by omega, hl⟩
    | inr h =>
      have := ih h
      simp only [List.length_append, List.length_cons]
      exact ⟨by omega, by omega, this.2.2⟩

/-- Lines appear in increasing order of their offsets and do not overlap. -/
theorem spans_pairwise (sep : α) (start : ℕ) (text : List α) :
    (spans sep start text).Pairwise fun a b => a.1 + a.2.length < b.1 := by
  induction text using line_induction sep generalizing start with
  | tail l hl => simp [spans_of_notMem hl]
  | line l text hl ih =>
    rw [spans_line hl, List.pairwise_cons]
    refine ⟨fun entry hentry => ?_, ih _⟩
    have := (spans_bounds hentry).1
    change start + l.length < entry.1
    omega

theorem spans_nodup (sep : α) (start : ℕ) (text : List α) : (spans sep start text).Nodup :=
  (spans_pairwise sep start text).imp fun h heq => by subst heq; omega

/-- A cut at a line boundary splits the lines. -/
theorem spans_append {sep : α} {first : List α} (hfirst : Closed sep first) (start : ℕ) (second : List α) :
    spans sep start (first ++ second) = spans sep start first ++ spans sep (start + first.length) second := by
  induction first using line_induction sep generalizing start with
  | tail l hl =>
    obtain rfl := hfirst.nil_of_notMem hl
    simp
  | line l text hl ih =>
    rw [List.append_assoc, List.cons_append, spans_line hl, spans_line hl,
      ih ((closed_line_iff sep l text).mp hfirst)]
    simp [Nat.add_assoc, Nat.add_comm 1]

/-- The lines complete within the first `count` symbols are the lines of the
    text that end before `count`. -/
theorem spans_take (sep : α) (start count : ℕ) (text : List α) :
    spans sep start (text.take count) =
      (spans sep start text).filter fun entry => entry.1 + entry.2.length < start + count := by
  induction text using line_induction sep generalizing start count with
  | tail l hl => rw [spans_of_notMem hl, spans_of_notMem fun h => hl (List.mem_of_mem_take h)]; rfl
  | line l text hl ih =>
    rw [spans_line hl, List.filter_cons]
    by_cases hshort : l.length < count
    · obtain ⟨rest, rfl⟩ : ∃ rest, count = l.length + 1 + rest := ⟨count - (l.length + 1), by omega⟩
      have htake : (l ++ sep :: text).take (l.length + 1 + rest) = l ++ sep :: text.take rest := by
        rw [List.take_append, List.take_of_length_le (by omega),
          (by omega : l.length + 1 + rest - l.length = rest + 1), List.take_succ_cons]
      rw [htake, spans_line hl, ih, if_pos (by simpa using hshort)]
      simp [Nat.add_assoc]
    · rw [List.take_append_of_le_length (by omega),
        spans_of_notMem fun h => hl (List.mem_of_mem_take h), if_neg (by simpa using hshort)]
      symm
      rw [List.filter_eq_nil_iff]
      intro entry hentry
      have := (spans_bounds hentry).1
      simp only [decide_eq_true_eq]
      omega

/-- A line of a text is a separator-free piece that follows a line boundary and
    precedes a separator. -/
theorem mem_spans_iff {sep : α} {start offset : ℕ} {l text : List α} :
    (offset, l) ∈ spans sep start text ↔
      ∃ before after, text = before ++ l ++ sep :: after ∧ Closed sep before ∧ sep ∉ l ∧
        offset = start + before.length := by
  constructor
  · intro h
    induction text using line_induction sep generalizing start with
    | tail l hl => simp [spans_of_notMem hl] at h
    | line first text hfirst ih =>
      rw [spans_line hfirst, List.mem_cons] at h
      cases h with
      | inl h =>
        obtain ⟨rfl, rfl⟩ := Prod.mk.injEq .. ▸ h
        exact ⟨[], text, by simp, closed_nil sep, hfirst, by simp⟩
      | inr h =>
        obtain ⟨before, after, rfl, hbefore, hl, rfl⟩ := ih h
        refine ⟨first ++ sep :: before, after, by simp, (closed_line_iff sep first before).mpr hbefore, hl, ?_⟩
        simp only [List.length_append, List.length_cons]
        omega
  · rintro ⟨before, after, rfl, hbefore, hl, rfl⟩
    rw [List.append_assoc, spans_append hbefore, spans_line hl]
    simp

/-- Every line but the first follows a separator. -/
theorem spans_previous {sep : α} {start : ℕ} {text : List α} {entry : ℕ × List α}
    (h : entry ∈ spans sep start text) (hlt : start < entry.1) : text[entry.1 - start - 1]? = some sep := by
  obtain ⟨before, after, rfl, hbefore, _, hoffset⟩ := mem_spans_iff.mp h
  cases hbefore with
  | inl heq =>
    subst heq
    simp at hoffset
    omega
  | inr hbefore =>
    have hpos : 0 < before.length := by
      cases before with
      | nil => simp at hbefore
      | cons _ _ => simp
    rw [List.getLast?_eq_getElem?] at hbefore
    rw [hoffset, (by omega : start + before.length - start - 1 = before.length - 1), List.append_assoc,
      List.getElem?_append_left (by omega), hbefore]

/-- Every line is followed by its separator. -/
theorem spans_next {sep : α} {start : ℕ} {text : List α} {entry : ℕ × List α}
    (h : entry ∈ spans sep start text) : text[entry.1 + entry.2.length - start]? = some sep := by
  obtain ⟨before, after, rfl, _, _, hoffset⟩ := mem_spans_iff.mp h
  rw [hoffset, show start + before.length + entry.2.length - start = (before ++ entry.2).length by simp; omega,
    List.getElem?_append_right (Nat.le_refl _)]
  simp

/-- A line of a piece of a text that does not start the piece follows a
    separator of the text. -/
theorem spans_piece_previous {sep : α} {text : List α} {cut count : ℕ} {entry : ℕ × List α}
    (h : entry ∈ spans sep cut ((text.drop cut).take count)) (hlt : cut < entry.1) :
    entry.1 + entry.2.length < cut + count ∧ text[entry.1 - 1]? = some sep := by
  have hprevious := spans_previous h hlt
  have hspan := spans_bounds h
  rw [List.length_take] at hspan
  rw [List.getElem?_take, if_pos (by omega), List.getElem?_drop] at hprevious
  refine ⟨by omega, ?_⟩
  rwa [(by omega : cut + (entry.1 - cut - 1) = entry.1 - 1)] at hprevious

/-- A scan from a line boundary to `stop` finds the wanted lines that end before
    `stop`, if none of them lies before the boundary. -/
theorem spans_filter_piece {sep : α} {text : List α} {cut stop : ℕ} (hclosed : Closed sep (text.take cut))
    (hcut : cut ≤ stop) (hlength : cut ≤ text.length) {p : ℕ × List α → Bool}
    (hbefore : ∀ entry ∈ spans sep 0 (text.take cut), p entry = false) :
    (spans sep cut ((text.drop cut).take (stop - cut))).filter p =
      (spans sep 0 text).filter fun entry => p entry ∧ entry.1 + entry.2.length < stop := by
  have hsplit := spans_append hclosed 0 (text.drop cut)
  rw [List.take_append_drop, List.length_take, Nat.zero_add, Nat.min_eq_left hlength] at hsplit
  have hnone : (spans sep 0 (text.take cut)).filter (fun entry =>
      p entry ∧ entry.1 + entry.2.length < stop) = [] := by
    rw [List.filter_eq_nil_iff]
    intro entry hentry
    simp [hbefore entry hentry]
  rw [hsplit, List.filter_append, hnone, List.nil_append, spans_take, List.filter_filter]
  apply List.filter_congr
  intro entry _
  rw [Nat.add_sub_cancel' hcut]
  simp

/-- In a text that ends on a line boundary some line starts at every position
    behind a separator. -/
theorem exists_span_at {sep : α} {before after : List α} (hbefore : Closed sep before) (hafter : Closed sep after)
    (hne : after ≠ []) : ∃ entry ∈ spans sep 0 (before ++ after), entry.1 = before.length := by
  rw [spans_append hbefore, Nat.zero_add]
  obtain ⟨hnotMem, hsplit⟩ := takeWhile_split sep after
  generalize after.takeWhile (· ≠ sep) = l at hnotMem hsplit
  cases hsplit with
  | inl heq =>
    subst heq
    exact absurd (hafter.nil_of_notMem hnotMem) hne
  | inr h =>
    obtain ⟨rest, rfl⟩ := h
    exact ⟨(before.length, l), by simp [spans_line hnotMem], rfl⟩

/-- The line behind another one. -/
theorem exists_span_behind {sep : α} {text : List α} (hclosed : Closed sep text) {entry : ℕ × List α}
    (h : entry ∈ spans sep 0 text) (hlt : entry.1 + entry.2.length + 1 < text.length) :
    ∃ next ∈ spans sep 0 text, next.1 = entry.1 + entry.2.length + 1 := by
  obtain ⟨before, after, rfl, hbefore, hl, hoffset⟩ := mem_spans_iff.mp h
  have hsplit : before ++ entry.2 ++ sep :: after = (before ++ entry.2 ++ [sep]) ++ after := by simp
  simp only [hsplit] at hclosed hlt ⊢
  have hne : after ≠ [] := by
    rintro rfl
    simp [hoffset] at hlt
    omega
  have hafter : Closed sep after := by
    cases hclosed with
    | inl hnil => simp at hnil
    | inr hlast => exact .inr (by rwa [List.getLast?_append_of_ne_nil _ hne] at hlast)
  have hboundary : Closed sep (before ++ entry.2 ++ [sep]) := .inr (by simp)
  obtain ⟨next, hnext, hstart⟩ := exists_span_at hboundary hafter hne
  exact ⟨next, hnext, by rw [hstart]; simp [hoffset]; omega⟩

/-- Every position of a text that ends on a line boundary belongs to a line or
    is the separator behind it. -/
theorem exists_span_around {sep : α} {text : List α} (hclosed : Closed sep text) {i : ℕ} (hi : i < text.length) :
    ∃ entry ∈ spans sep 0 text, entry.1 ≤ i ∧ i ≤ entry.1 + entry.2.length := by
  induction i with
  | zero =>
    obtain ⟨entry, hentry, hstart⟩ := exists_span_at (closed_nil sep) hclosed (List.length_pos_iff.mp hi)
    exact ⟨entry, by simpa using hentry, by simp [hstart], by omega⟩
  | succ i ih =>
    obtain ⟨entry, hentry, hle, hge⟩ := ih (by omega)
    by_cases hinside : i + 1 ≤ entry.1 + entry.2.length
    · exact ⟨entry, hentry, by omega, hinside⟩
    · obtain ⟨next, hnext, hstart⟩ := exists_span_behind hclosed hentry (by omega)
      exact ⟨next, hnext, by omega, by omega⟩

/-- Moving a text moves its lines. -/
theorem spans_shift (sep : α) (start : ℕ) (text : List α) :
    spans sep start text = (spans sep 0 text).map fun entry => (start + entry.1, entry.2) := by
  have shift (base : ℕ) : spans sep (start + base) text =
      (spans sep base text).map fun entry => (start + entry.1, entry.2) := by
    induction text using line_induction sep generalizing base with
    | tail l hl => simp [spans_of_notMem hl]
    | line l text hl ih =>
      rw [spans_line hl, spans_line hl, List.map_cons, ← ih]
      simp [Nat.add_assoc]
  simpa using shift 0

/-- Writing the lines of a text that ends on a line boundary gives it back. -/
theorem unlines_spans {sep : α} {text : List α} (h : Closed sep text) (start : ℕ) :
    unlines sep ((spans sep start text).map Prod.snd) = text := by
  induction text using line_induction sep generalizing start with
  | tail l hl =>
    obtain rfl := h.nil_of_notMem hl
    simp
  | line l text hl ih => simp [spans_line hl, ih ((closed_line_iff sep l text).mp h)]

/-- The complete lines take at most the room of the text. -/
theorem length_unlines_spans_le (sep : α) (start : ℕ) (text : List α) :
    (unlines sep ((spans sep start text).map Prod.snd)).length ≤ text.length := by
  induction text using line_induction sep generalizing start with
  | tail l hl => simp [spans_of_notMem hl]
  | line l text hl ih =>
    have hrest := ih (start + l.length + 1)
    rw [spans_line hl, List.map_cons, unlines_cons]
    simp only [List.length_append, List.length_cons]
    omega

/-- Reading back written lines gives the lines. -/
theorem spans_unlines {sep : α} {ls : List (List α)} (h : ∀ l ∈ ls, sep ∉ l) (start : ℕ) :
    (spans sep start (unlines sep ls)).map Prod.snd = ls := by
  induction ls generalizing start with
  | nil => simp
  | cons l ls ih =>
    rw [unlines_cons, spans_line (h l (by simp)), List.map_cons, ih fun l hl => h l (by simp [hl])]

theorem segments_of_notMem {sep : α} {l : List α} (hl : sep ∉ l) :
    segments sep l = [l].filter (· ≠ []) := by
  rw [segments, List.splitOn_eq_singleton hl]

theorem segments_line {sep : α} {l : List α} (hl : sep ∉ l) (text : List α) :
    segments sep (l ++ sep :: text) = [l].filter (· ≠ []) ++ segments sep text := by
  rw [segments, List.splitOn_append_cons_self_of_not_mem hl, List.filter_cons, segments]
  by_cases h : l = [] <;> simp [h]

@[simp] theorem segments_nil (sep : α) : segments sep [] = [] := by
  simp [segments_of_notMem]

theorem segments_unlines {sep : α} {ls : List (List α)} (h : ∀ l ∈ ls, sep ∉ l) :
    segments sep (unlines sep ls) = ls.filter (· ≠ []) := by
  induction ls with
  | nil => simp
  | cons l ls ih =>
    rw [unlines_cons, segments_line (h l (by simp)), ih fun l hl => h l (by simp [hl]),
      ← List.filter_append]
    rfl

/-- A text has at most as many segments as elements. -/
theorem length_segments_le (sep : α) (text : List α) : (segments sep text).length ≤ text.length := by
  induction text using line_induction sep with
  | tail l hl =>
    rw [segments_of_notMem hl]
    cases l with
    | nil => simp
    | cons c l => simp
  | line l text hl ih =>
    have hfirst := List.length_filter_le (fun l : List α => decide (l ≠ [])) [l]
    rw [List.length_singleton] at hfirst
    rw [segments_line hl, List.length_append, List.length_append, List.length_cons]
    omega

/-- The pieces of a text in which every separator stands in front of its piece. -/
theorem segments_flatMap_cons {sep : α} {ls : List (List α)} (h : ∀ l ∈ ls, sep ∉ l) {first : List α}
    (hfirst : sep ∉ first) :
    segments sep (first ++ ls.flatMap (sep :: ·)) = (first :: ls).filter (· ≠ []) := by
  induction ls generalizing first with
  | nil => rw [List.flatMap_nil, List.append_nil, segments_of_notMem hfirst]
  | cons l ls ih =>
    rw [List.forall_mem_cons] at h
    rw [List.flatMap_cons, List.cons_append, segments_line hfirst, ih h.2 h.1, ← List.filter_append]
    rfl

theorem mem_segments {sep : α} {l text : List α} (h : l ∈ segments sep text) :
    l ≠ [] ∧ sep ∉ l ∧ ∀ c ∈ l, c ∈ text := by
  induction text using line_induction sep with
  | tail m hm =>
    rw [segments_of_notMem hm] at h
    simp only [ne_eq, List.mem_filter, List.mem_singleton, decide_eq_true_eq] at h
    obtain ⟨rfl, hne⟩ := h
    exact ⟨hne, hm, fun _ hc => hc⟩
  | line m text hm ih =>
    rw [segments_line hm, List.mem_append] at h
    cases h with
    | inl h =>
      simp only [ne_eq, List.mem_filter, List.mem_singleton, decide_eq_true_eq] at h
      obtain ⟨rfl, hne⟩ := h
      exact ⟨hne, hm, fun _ hc => by simp [hc]⟩
    | inr h =>
      obtain ⟨hne, hsep, hsub⟩ := ih h
      exact ⟨hne, hsep, fun c hc => by simp [hsub c hc]⟩

theorem remainder_of_notMem {sep : α} {l : List α} (hl : sep ∉ l) : remainder sep l = l := by
  rw [remainder, List.rtakeWhile_eq_self_iff]
  exact fun c hc => decide_eq_true fun heq => hl (heq ▸ hc)

theorem remainder_line (sep : α) (l text : List α) : remainder sep (l ++ sep :: text) = remainder sep text := by
  induction text using List.reverseRecOn with
  | nil => rw [remainder, remainder, List.rtakeWhile_concat_neg _ _ _ (by simp), List.rtakeWhile_nil]
  | append_singleton text c ih =>
    have hmove : l ++ sep :: (text ++ [c]) = (l ++ sep :: text) ++ [c] := by simp
    rw [hmove, remainder, remainder, List.rtakeWhile_concat, List.rtakeWhile_concat]
    rw [remainder, remainder] at ih
    rw [ih]

theorem remainder_of_closed {sep : α} {text : List α} (h : Closed sep text) : remainder sep text = [] := by
  rw [remainder, List.rtakeWhile_eq_nil_iff]
  intro hne
  cases h with
  | inl h => exact absurd h hne
  | inr h => simpa [List.getLast?_eq_getLast_of_ne_nil hne] using h

/-- The segments of a text are its non-empty lines and a non-empty remainder. -/
theorem segments_eq_lines (sep : α) (text : List α) (start : ℕ) :
    segments sep text = ((spans sep start text).map Prod.snd ++ [remainder sep text]).filter (· ≠ []) := by
  induction text using line_induction sep generalizing start with
  | tail l hl => rw [segments_of_notMem hl, spans_of_notMem hl, remainder_of_notMem hl]; rfl
  | line l text hl ih =>
    rw [segments_line hl, spans_line hl, remainder_line, ih (start + l.length + 1), ← List.filter_append]
    rfl

/-- What follows a text extends its remainder. -/
theorem segments_append (sep : α) (text more : List α) :
    segments sep (text ++ more) =
      ((spans sep 0 text).map Prod.snd).filter (· ≠ []) ++ segments sep (remainder sep text ++ more) := by
  suffices h : ∀ start, segments sep (text ++ more) =
      ((spans sep start text).map Prod.snd).filter (· ≠ []) ++ segments sep (remainder sep text ++ more) from h 0
  induction text using line_induction sep with
  | tail l hl =>
    intro start
    rw [spans_of_notMem hl, remainder_of_notMem hl]
    rfl
  | line l text hl ih =>
    intro start
    rw [List.append_assoc, List.cons_append, segments_line hl, spans_line hl, remainder_line,
      ih (start + l.length + 1), ← List.append_assoc, ← List.filter_append]
    rfl

/-- A non-empty separator-free piece of a text, at an offset, that no
    neighbouring symbol extends. -/
def SegmentAt (sep : α) (text : List α) (offset : ℕ) (l : List α) : Prop :=
  l ≠ [] ∧ sep ∉ l ∧ ∃ before after, text = before ++ l ++ after ∧ offset = before.length ∧ Closed sep before ∧
    (after = [] ∨ after.head? = some sep)

/-- The segments are the non-empty lines of the text with a separator added. -/
theorem segments_eq_spans (sep : α) (text : List α) (start : ℕ) :
    segments sep text = ((spans sep start (text ++ [sep])).filter (·.2 ≠ [])).map Prod.snd := by
  induction text using line_induction sep generalizing start with
  | tail l hl =>
    rw [segments_of_notMem hl, spans_line hl]
    by_cases h : l = [] <;> simp [h]
  | line l text hl ih =>
    rw [segments_line hl, List.append_assoc, List.cons_append, spans_line hl, ih (start + l.length + 1)]
    by_cases h : l = [] <;> simp [h]

/-- The segments of a text are its maximal separator-free pieces, in order. -/
theorem segments_spec (sep : α) (text : List α) :
    ∃ found : List (ℕ × List α), segments sep text = found.map Prod.snd ∧
      (found.Pairwise fun a b => a.1 + a.2.length < b.1) ∧
      ∀ offset l, (offset, l) ∈ found ↔ SegmentAt sep text offset l := by
  refine ⟨_, segments_eq_spans sep text 0, (spans_pairwise sep 0 (text ++ [sep])).filter _, fun offset l => ?_⟩
  rw [List.mem_filter, mem_spans_iff]
  constructor
  · rintro ⟨⟨before, after, htext, hbefore, hl, hoffset⟩, hne⟩
    refine ⟨of_decide_eq_true hne, hl, before, ?_⟩
    rw [Nat.zero_add] at hoffset
    rcases List.eq_nil_or_concat after with rfl | ⟨init, last, rfl⟩
    · exact ⟨[], by simpa using (List.append_inj' htext rfl).1, hoffset, hbefore, .inl rfl⟩
    · refine ⟨sep :: init, ?_, hoffset, hbefore, .inr rfl⟩
      have hsplit : text ++ [sep] = (before ++ l ++ sep :: init) ++ [last] := by simpa using htext
      exact (List.append_inj' hsplit rfl).1
  · rintro ⟨hne, hl, before, after, rfl, hoffset, hbefore, hafter⟩
    refine ⟨⟨before, (after ++ [sep]).tail, ?_, hbefore, hl, by omega⟩, decide_eq_true hne⟩
    cases after with
    | nil => simp
    | cons c after =>
      have hc : c = sep := by simpa using hafter
      simp [hc]

/-- The rest of an index loop that hands each complete line, with its start, to
    `emit`: from index `i` on, with the line that starts at `start` unfinished. -/
theorem foldl_range'_eq_spansFrom {σ : Type*} (sep : α) (text : List α) (emit : σ → ℕ → List α → σ) {rest : List α}
    {i start : ℕ} (acc : σ) (hstart : start ≤ i) (hrest : text.drop i = rest) :
    ((List.range' i rest.length).foldl (fun (state : ℕ × σ) j =>
      if text[j]? = some sep then
        (j + 1, emit state.2 state.1 ((text.drop state.1).take (j - state.1)))
      else state) (start, acc)).2 =
      (spansFrom sep start ((text.drop start).take (i - start)) rest).foldl
        (fun acc entry => emit acc entry.1 entry.2) acc := by
  induction rest generalizing i start acc with
  | nil => simp [spansFrom]
  | cons c rest ih =>
    have hi : i < text.length := by
      by_contra hnot
      rw [List.drop_eq_nil_of_le (by omega)] at hrest
      simp at hrest
    have hget : text[i]? = some c := by
      have := congrArg List.head? hrest
      simpa [List.head?_drop] using this
    have hdrop : text.drop (i + 1) = rest := by
      rw [← List.drop_drop, hrest]
      rfl
    have hlength : ((text.drop start).take (i - start)).length = i - start := by
      simp
      omega
    rw [List.length_cons, List.range'_succ, List.foldl_cons, hget, spansFrom]
    by_cases hc : c = sep
    · subst c
      rw [if_pos rfl, if_pos rfl, ih _ (Nat.le_refl (i + 1)) hdrop, hlength, List.foldl_cons]
      have hnext : start + (i - start) + 1 = i + 1 := by omega
      simp [hnext]
    · rw [if_neg (by simpa using hc), if_neg hc, ih _ (by omega) hdrop]
      have hgrow : (text.drop start).take (i + 1 - start) = (text.drop start).take (i - start) ++ [c] := by
        rw [(by omega : i + 1 - start = (i - start) + 1), List.take_add_one, List.getElem?_drop,
          (by omega : start + (i - start) = i), hget]
        rfl
      rw [hgrow]

/-- An index loop over a text that hands each complete line, with its start, to
    `emit` visits the lines in order. -/
theorem foldl_range_eq_spans {σ : Type*} (sep : α) (text : List α) (emit : σ → ℕ → List α → σ) (init : σ) :
    ((List.range text.length).foldl (fun (state : ℕ × σ) j =>
      if text[j]? = some sep then
        (j + 1, emit state.2 state.1 ((text.drop state.1).take (j - state.1)))
      else state) (0, init)).2 =
      (spans sep 0 text).foldl (fun acc entry => emit acc entry.1 entry.2) init := by
  have h := foldl_range'_eq_spansFrom sep text emit init (Nat.le_refl 0) (List.drop_zero (l := text))
  simpa [List.range_eq_range', spans] using h

end lines
