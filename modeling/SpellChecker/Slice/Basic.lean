import SpellChecker.Data.Loop
import SpellChecker.Machine

namespace spellcheck.slice

/-- `Slice`. An `MPI_Offset` is an `Int`: file sizes stay far below `2^63`. -/
structure Slice where
  off : Int
  len : Int
  deriving DecidableEq, Repr

/-- `compute_slice`. -/
def compute_slice (n rank size : Int) : Slice :=
  let base := n.tdiv size
  let extra := n.tmod size
  let start := rank * base + (if rank < extra then rank else extra)
  let length := base + (if rank < extra then 1 else 0)
  ⟨start, length⟩

/-- `const MPI_Offset PAD = 256`. -/
abbrev PAD : Int := 256

/-- `read_off`: where the window starts. -/
def read_off (s : Slice) : Int := if s.off > PAD then s.off - PAD else 0

/-- `max_len`: how many bytes the window has. -/
def max_len (s : Slice) (file_size_hint : Int) : Int :=
  if read_off s + (s.len + 2 * PAD) > file_size_hint then file_size_hint - read_off s
  else s.len + 2 * PAD

/-- `buf`, after `MPI_File_read_at` has put bytes of the file into it. The count
    of the call is an `int`, to which `buf.size()` is converted; with a negative
    one the call fails, and nothing looks at what it returns. A negative size
    makes the constructor of `std::string` throw. -/
def read_buf (file : Word) (s : Slice) (file_size_hint : Int) : Except Fault Word :=
  let len := max_len s file_size_hint
  if len < 0 then .error .badString
  else
    let bytes := (file.drop (read_off s).toNat).take (toInt len).toNat
    .ok (bytes ++ List.replicate (len.toNat - bytes.length) 0)

/-- `buf.find(c, pos)`; `none` is `npos`. -/
def find (buf : Word) (c : Byte) (pos : ℕ) : Option ℕ :=
  ((buf.drop pos).findIdx? (· = c)).map (pos + ·)

/-- `buf.rfind(c)`; `none` is `npos`. -/
def rfind (buf : Word) (c : Byte) : Option ℕ :=
  (buf.reverse.findIdx? (· = c)).map (buf.length - 1 - ·)

/-- `begin`: behind the first newline at or after the byte before the slice. -/
def slice_begin (s : Slice) (buf : Word) : ℕ :=
  if s.off > 0 then
    let rel := (s.off - read_off s).toNat
    match find buf newline (if rel > 0 then rel - 1 else 0) with
    | none => 0
    | some pos => pos + 1
  else 0

/-- `end`: at the last newline of the window, unless the slice ends the file. -/
def slice_end (s : Slice) (buf : Word) (file_size_hint : Int) (start : ℕ) : ℕ :=
  if s.off + s.len < file_size_hint then
    match rfind buf newline with
    | none => buf.length
    | some last => if last > start then last else buf.length
  else buf.length

/-- A difference of two `size_t`. -/
def size_sub (a b : ℕ) : ℕ := if b ≤ a then a - b else a + 18446744073709551616 - b

/-- `buf.substr(pos, count)`. -/
def substr (buf : Word) (pos count : ℕ) : Except Fault Word :=
  if pos > buf.length then .error .badString else .ok ((buf.drop pos).take count)

/-- The scan of `aligned`: each newline ends a line, which is kept if its first
    byte lies in the slice. -/
def aligned_lines (s : Slice) (aligned : Word) (aligned_file_off : Int) : List Word :=
  ((List.range aligned.length).foldl (fun (state : ℕ × List Word) j =>
    if aligned[j]? = some newline then
      (j + 1,
        if aligned_file_off + state.1 ≥ s.off ∧ aligned_file_off + state.1 < s.off + s.len then
          state.2 ++ [(aligned.drop state.1).take (j - state.1)]
        else state.2)
    else state) (0, [])).2

/-- `read_slice_aligned` on a file with these contents. -/
def read_slice_aligned (file : Word) (s : Slice) (file_size_hint : Int) : Except Fault Word := do
  let buf ← read_buf file s file_size_hint
  let start := slice_begin s buf
  let stop := slice_end s buf file_size_hint start
  let aligned ← substr buf start (size_sub stop start)
  let lines := aligned_lines s aligned (read_off s + start)
  return lines.foldl (fun shrunk line => shrunk ++ line ++ [newline]) []

end spellcheck.slice
