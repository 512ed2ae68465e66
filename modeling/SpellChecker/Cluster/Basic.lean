import SpellChecker.Data.Collective
import SpellChecker.Pipeline.Ranks

open collective comparator
open spellcheck.candidates spellcheck.dictionary spellcheck.mpi spellcheck.pipeline spellcheck.slice

namespace spellcheck.cluster

/-- The codes of `codes.h` that `LoadFile` exits with. -/
abbrev FILE_NOT_FOUND : Int := 1

abbrev FILE_EMPTY : Int := 2

abbrev MEM_ERR : Int := -1

/-- `LoadFile`: the data, or the code of the `exit`. `contents` are the bytes of
    the file, if it can be opened, and `malloc` tells which sizes can be had. -/
def LoadFile (contents : Option Word) (malloc : ℕ → Bool) : Except Int Word :=
  match contents with
  | none => .error FILE_NOT_FOUND
  | some data =>
    if data.length = 0 then .error FILE_EMPTY
    else if malloc data.length then .ok data
    else .error MEM_ERR

/-- How a rank ends. -/
inductive Outcome where
  /-- `main` returns 0; this rank has written these bytes to the output file. -/
  | finished (written : Option Word)
  /-- `exit(code)`. -/
  | exited (code : Int)
  /-- An exception nothing catches, or another fault. -/
  | died (fault : Fault)
  deriving DecidableEq

/-- The types of what `main` broadcasts: `MPI_OFFSET`, the bytes of a `size_t`,
    and text. -/
inductive Datatype where
  | offset
  | size
  | text
  deriving DecidableEq

/-- The collective calls of `main`: those on `MPI_COMM_WORLD`, and the last one. -/
inductive Call where
  | MPI_File_open
  | MPI_File_close
  | MPI_Bcast (datatype : Datatype)
  | MPI_Allreduce
  | MPI_Gather
  | MPI_Gatherv
  | MPI_Finalize
  deriving DecidableEq

/-- What a rank hands to a call. -/
@[reducible] def Payload : Call → Type
  | .MPI_File_open => Unit
  | .MPI_File_close => Unit
  | .MPI_Bcast .offset => Int
  | .MPI_Bcast .size => ℕ
  | .MPI_Bcast .text => Word
  | .MPI_Allreduce => List Byte
  | .MPI_Gather => List Int
  | .MPI_Gatherv => Word
  | .MPI_Finalize => Unit

/-- Whose data a call hands back to `rank`: a broadcast that of rank 0, a
    reduction that of all ranks, and a gather that of all ranks to rank 0. -/
def reads {size : ℕ} : Call → Fin size → Fin size → Bool
  | .MPI_File_open, _, _ => false
  | .MPI_File_close, _, _ => false
  | .MPI_Bcast _, _, peer => peer.val = 0
  | .MPI_Allreduce, _, _ => true
  | .MPI_Gather, rank, _ => rank.val = 0
  | .MPI_Gatherv, rank, _ => rank.val = 0
  | .MPI_Finalize, _, _ => false

/-- A local computation that may kill the rank. -/
def attempt {β : Type} (x : Except Fault β) (next : β → Process Payload Outcome) : Process Payload Outcome :=
  match x with
  | .ok b => next b
  | .error fault => .stop (.died fault)

/-- What stands under `if (rank == 0)`; on the other ranks the variable keeps
    its initial value. -/
def onRoot {size : ℕ} {β : Type} [Inhabited β] (rank : Fin size) (x : Except Fault β) : Except Fault β :=
  if rank.val = 0 then x else .ok default

/-- `MergePackedAcrossRanks` from the sum of the counts on, and the rest of `main`.
    `MPI_Gatherv` refuses a negative count: the other ranks hand it their own one
    only, and rank 0 those of all ranks. -/
def mergeGathered (sorter : Sorter) (wl : WordList) (present_global : List Byte) (big : Word) {size : ℕ}
    (rank : Fin size) (big_bytes off_all len_all : List Int) : Process Payload Outcome :=
  attempt (onRoot rank (sumBytes big_bytes)) fun big_total =>
  attempt (onRoot rank (displacements big_bytes)) fun big_displs =>
  attempt (checkCount (toInt big.length)) fun _ =>
  attempt (onRoot rank (big_bytes.forM checkCount)) fun _ =>
  .call .MPI_Gatherv big fun sent =>
  attempt (onRoot rank (gatherBig sent big_bytes big_displs big_total)) fun big_recv =>
  attempt (onRoot rank (do
    let rank_base ← rankBase big_bytes
    (List.range wl.words.length).foldlM
      (mergeWord wl present_global size off_all len_all rank_base big_recv) []))
    fun misspelled =>
  let written := if rank.val = 0 then some (SaveMisspelled sorter misspelled).2 else none
  .call .MPI_Finalize () fun _ =>
  .stop (.finished written)

/-- `MergePackedAcrossRanks` and the rest of `main`. -/
def mergeAndSave (sorter : Sorter) (wl : WordList) (present_global : List Byte) (pk_local : Packed) {size : ℕ}
    (rank : Fin size) : Process Payload Outcome :=
  let n := wl.words.length
  .call .MPI_Gather [toInt pk_local.big.length] fun sent =>
  attempt (onRoot rank (MPI_Gather 1 sent (List.replicate size 0))) fun big_bytes =>
  .call .MPI_Gather pk_local.off fun sent =>
  attempt (onRoot rank (MPI_Gather (toInt n) sent (List.replicate (n * size) 0))) fun off_all =>
  .call .MPI_Gather pk_local.len fun sent =>
  attempt (onRoot rank (MPI_Gather (toInt n) sent (List.replicate (n * size) 0))) fun len_all =>
  mergeGathered sorter wl present_global pk_local.big rank big_bytes off_all len_all

/-- The two passes, and what follows them. -/
def checkWords (sorter : Sorter) (wl : WordList) (dict : Dictionary) {size : ℕ} (rank : Fin size) :
    Process Payload Outcome :=
  let present_local := GetPresentLocal wl dict
  .call .MPI_Allreduce present_local fun sent =>
  attempt (MPI_Allreduce_BOR (toInt wl.words.length) sent (List.replicate wl.words.length 0)) fun present_global =>
  attempt (GetCandidatesLocalMasked sorter wl dict present_global) fun local_masked =>
  attempt (PackAllCandidates wl local_masked) fun pk =>
  mergeAndSave sorter wl present_global pk rank

/-- The broadcast of the word list, which only rank 0 has loaded, and what
    follows it. The count of a broadcast is an `int`. -/
def shareWordList (sorter : Sorter) (order : HashOrder) (local_dict_text : Word) {size : ℕ} (rank : Fin size)
    (loaded : Word) : Process Payload Outcome :=
  .call (.MPI_Bcast .size) loaded.length fun sent =>
  let word_list_size_local := sent.headD loaded.length
  let buf := if rank.val ≠ 0 then List.replicate word_list_size_local 0 else loaded
  .call (.MPI_Bcast .text) buf fun sent =>
  attempt (MPI_Bcast (toInt word_list_size_local) (sent.headD buf) buf) fun word_list_text_str =>
  let word_list := BuildWordList word_list_text_str
  attempt (load order word_list.root_len local_dict_text) fun dict =>
  checkWords sorter word_list dict rank

/-- The files a run of the program is started on: the dictionary, which exists,
    and the word list. -/
structure Inputs where
  dict : Word
  word_list : Option Word
  malloc : ℕ → Bool

/-- `main` on one rank, with two arguments. The dictionary is opened once for
    its size and once to read the slice of the rank. -/
def main (sorter : Sorter) (order : HashOrder) (inputs : Inputs) {size : ℕ} (rank : Fin size) :
    Process Payload Outcome :=
  .call .MPI_File_open () fun _ =>
  let fsize : Int := inputs.dict.length
  .call .MPI_File_close () fun _ =>
  .call (.MPI_Bcast .offset) fsize fun sent =>
  let fsize := sent.headD fsize
  .call .MPI_File_open () fun _ =>
  .call .MPI_File_close () fun _ =>
  attempt (read_slice_aligned inputs.dict (compute_slice fsize rank.val size) fsize) fun local_dict_text =>
  match if rank.val = 0 then LoadFile inputs.word_list inputs.malloc else .ok [] with
  | .error code => .stop (.exited code)
  | .ok loaded => shareWordList sorter order local_dict_text rank loaded

/-- The ranks of a run, each with its own order of the hash containers. -/
def ranks (sorter : Sorter) (orders : ℕ → HashOrder) (inputs : Inputs) (size : ℕ) :
    Fin size → Process Payload Outcome :=
  fun rank => main sorter (orders rank.val) inputs rank

end spellcheck.cluster
