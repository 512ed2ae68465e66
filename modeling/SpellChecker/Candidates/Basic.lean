import Mathlib.Data.List.Destutter
import SpellChecker.Dictionary.Basic
import SpellChecker.MPI

open comparator
open spellcheck.dictionary spellcheck.mpi

namespace spellcheck.candidates

set_option linter.dupNamespace false in
/-- `Line`. -/
structure Line where
  word : Word
  candidates : List Word
  deriving DecidableEq, Repr

abbrev Misspelled := List Line

/-- How one run of the parallel loop over `n` words went: the indices each
    thread took, in its order, with the threads in the order of their critical
    sections. -/
structure Schedule (n : ℕ) where
  threads : List (List ℕ)
  perm : threads.flatten.Perm (List.range n)

/-- The loop body of `GetMisspelled`: the line pushed for a word, if any. -/
def misspelledLine (dict : Dictionary) (word : Word) : Option Line :=
  if dict.Contains word then none else some ⟨word, dict.Candidates word []⟩

/-- `GetMisspelled`. -/
def GetMisspelled (word_list : WordList) (dict : Dictionary) (schedule : Schedule word_list.words.length) :
    Misspelled :=
  schedule.threads.flatMap fun indices => indices.filterMap fun i =>
    word_list.words[i]?.bind (misspelledLine dict)

/-- The comparator of `SaveMisspelled`. -/
def lineLess (a b : Line) : Bool :=
  if a.candidates.length = b.candidates.length then strcmpLess a.word b.word
  else a.candidates.length < b.candidates.length

/-- `line_str`: the word, a colon, each candidate behind a blank, and a newline. -/
def lineBytes (line : Line) : Word :=
  line.word ++ [58] ++ (line.candidates.foldl (fun words_str word => words_str ++ (32 :: word)) [] ++ [newline])

/-- `SaveMisspelled`: the list as the call leaves it, and the bytes written. -/
def SaveMisspelled (sorter : Sorter) (misspelled : Misspelled) : Misspelled × Word :=
  let sorted := sorter.run lineLess misspelled
  (sorted, sorted.flatMap lineBytes)

/-- `LocalMisspelled`. -/
structure LocalMisspelled where
  present : List Byte
  local_candidates : List (List Word)

/-- `Packed`: the `int` entries of `off` and `len` say which bytes of `big`
    belong to each word. -/
structure Packed where
  big : Word
  off : List Int
  len : List Int

/-- `sort` by `strcmp`, then `erase(unique(..), end())`: equal neighbours are
    merged. -/
def sortUnique (sorter : Sorter) (cands : List Word) : List Word :=
  (sorter.run strcmpLess cands).destutter (· ≠ ·)

/-- `GetMisspelledLocal`. The iterations of the parallel loop write different
    entries, so their order does not show. -/
def GetMisspelledLocal (sorter : Sorter) (word_list : WordList) (dict : Dictionary) : LocalMisspelled where
  present := word_list.words.map fun w => if dict.Contains w then 1 else 0
  local_candidates := word_list.words.map fun w =>
    if dict.Contains w then [] else sortUnique sorter (dict.Candidates w [])

/-- `GetPresentLocal`. -/
def GetPresentLocal (word_list : WordList) (dict : Dictionary) : List Byte :=
  word_list.words.map fun w => if dict.Contains w then 1 else 0

/-- The loop body of `GetCandidatesLocalMasked` for the word `entry.1` at index `entry.2`. -/
def candidatesMasked (sorter : Sorter) (dict : Dictionary) (present_global : List Byte) (entry : Word × ℕ) :
    Except Fault (List Word) := do
  let present ← vecAt present_global entry.2
  return if present ≠ 0 then [] else sortUnique sorter (dict.Candidates entry.1 [])

/-- `GetCandidatesLocalMasked`. -/
def GetCandidatesLocalMasked (sorter : Sorter) (word_list : WordList) (dict : Dictionary)
    (present_global : List Byte) : Except Fault LocalMisspelled := do
  let local_candidates ← word_list.words.zipIdx.mapM (candidatesMasked sorter dict present_global)
  return { present := present_global, local_candidates }

/-- The loop body of `PackAllCandidates`, on `cur` and the result so far. -/
def packWord (local_candidates : List (List Word)) (state : ℕ × Packed) (i : ℕ) : Except Fault (ℕ × Packed) := do
  let (cur, p) := state
  let cands ← vecAt local_candidates i
  let big := cands.foldl (fun big s => big ++ s ++ [newline]) p.big
  return (big.length, ⟨big, p.off.set i (toInt cur), p.len.set i (toInt (big.length - cur : ℕ))⟩)

/-- `PackAllCandidates`. -/
def PackAllCandidates (wl : WordList) (loc : LocalMisspelled) : Except Fault Packed := do
  let n := wl.words.length
  let (_, p) ← (List.range n).foldlM (packWord loc.local_candidates)
    (0, ⟨[], List.replicate n 0, List.replicate n 0⟩)
  return p

/-- `big_total`. -/
def sumBytes (big_bytes : List Int) : Except Fault Int :=
  big_bytes.foldlM (fun big_total b => checkInt (big_total + b)) 0

/-- `std::partial_sum` of `acc` followed by the list. -/
def partial_sum (acc : Int) : List Int → Except Fault (List Int)
  | [] => .ok [acc]
  | b :: bs => do
    let next ← checkInt (acc + b)
    let sums ← partial_sum next bs
    return acc :: sums

/-- `big_displs`: zero, then the partial sums of all counts but the last. -/
def displacements (big_bytes : List Int) : Except Fault (List Int) :=
  match big_bytes.dropLast with
  | [] => .ok (List.replicate big_bytes.length 0)
  | first :: rest => do
    let sums ← partial_sum first rest
    return 0 :: sums

/-- `rank_base`. -/
def rankBase (big_bytes : List Int) : Except Fault (List Int) :=
  (List.range (big_bytes.length - 1)).foldlM (fun rank_base r => do
    let base ← vecAt rank_base (r : ℕ)
    let bytes ← vecAt big_bytes (r : ℕ)
    let next ← checkInt (base + bytes)
    return rank_base.set (r + 1) next) (List.replicate big_bytes.length 0)

/-- `big_recv` after the gather. Without bytes to receive, the call gets the
    address of a dummy byte and `big_recv` stays empty. -/
def gatherBig (sends : List Word) (big_bytes big_displs : List Int) (big_total : Int) : Except Fault Word :=
  if big_total > 0 then MPI_Gatherv sends big_bytes big_displs (List.replicate big_total.toNat 0)
  else do
    let _ ← MPI_Gatherv sends big_bytes big_displs [0]
    return []

/-- `r * (int)n + (int)i`. -/
def flatIndex (r n i : ℕ) : Except Fault Int := do
  let row ← checkInt (r * toInt n)
  checkInt (row + toInt i)

/-- The innermost loop of `MergePackedAcrossRanks`: every newline among the `L`
    bytes at `O` ends a candidate, which is inserted unless it is empty. -/
def mergeRecords (big_recv : Word) (O L : Int) (merged : List Word) : Except Fault (List Word) :=
  if O < 0 ∨ (big_recv.length : Int) < O + L then .error .outOfBounds
  else
    let base := (big_recv.drop O.toNat).take L.toNat
    .ok ((List.range base.length).foldl (fun (state : ℕ × List Word) j =>
      if base[j]? = some newline then
        (j + 1,
          if j > state.1 then insert strcmpLess ((base.drop state.1).take (j - state.1)) state.2 else state.2)
      else state) (0, merged)).2

/-- What the loop over the ranks does with the candidates of word `i` from rank `r`. -/
def mergeRank (n : ℕ) (off_all len_all rank_base : List Int) (big_recv : Word) (i : ℕ) (merged : List Word) (r : ℕ) :
    Except Fault (List Word) := do
  let k ← flatIndex r n i
  let L ← vecAt len_all k
  if L ≤ 0 then return merged
  let off ← vecAt off_all (← flatIndex r n i)
  let base ← vecAt rank_base (r : ℕ)
  let O ← checkInt (off + base)
  mergeRecords big_recv O L merged

/-- The loop body for word `i`. -/
def mergeWord (wl : WordList) (present_global : List Byte) (size : ℕ) (off_all len_all rank_base : List Int)
    (big_recv : Word) (result : Misspelled) (i : ℕ) : Except Fault Misspelled := do
  let present ← vecAt present_global (i : ℕ)
  if present ≠ 0 then return result
  let merged ← (List.range size).foldlM
    (mergeRank wl.words.length off_all len_all rank_base big_recv i) []
  let word ← vecAt wl.words (i : ℕ)
  return result ++ [⟨word, merged⟩]

/-- `MergePackedAcrossRanks`, as one rank sees it: `pks` holds what every rank
    passes as `pk_local`, and its length is `size`. -/
def MergePackedAcrossRanks (wl : WordList) (present_global : List Byte) (pks : List Packed) (rank : Int) :
    Except Fault Misspelled := do
  let n := wl.words.length
  let size := pks.length
  if rank ≠ 0 then return []
  let big_bytes := pks.map fun pk => toInt pk.big.length
  let off_all ← MPI_Gather (toInt n) (pks.map Packed.off) (List.replicate (n * size) 0)
  let len_all ← MPI_Gather (toInt n) (pks.map Packed.len) (List.replicate (n * size) 0)
  let big_total ← sumBytes big_bytes
  let big_displs ← displacements big_bytes
  let big_recv ← gatherBig (pks.map Packed.big) big_bytes big_displs big_total
  let rank_base ← rankBase big_bytes
  (List.range n).foldlM (mergeWord wl present_global size off_all len_all rank_base big_recv) []

end spellcheck.candidates
