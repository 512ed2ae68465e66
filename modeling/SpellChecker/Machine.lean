import Mathlib.Data.List.Lex
import Mathlib.Data.List.TakeWhile
import Mathlib.Data.UInt
import Mathlib.Order.Defs.LinearOrder
import Mathlib.Tactic.Cases
import SpellChecker.Data.Comparator

namespace spellcheck

/-- A `char`. -/
abbrev Byte := UInt8

/-- A `std::string`, or the contents of a file: any bytes, NUL included. -/
abbrev Word := List Byte

/-- The character `'\n'`. -/
abbrev newline : Byte := 10

/-- What stops a run: an exception nothing catches, or a step the language
    leaves undefined. -/
inductive Fault where
  /-- An index outside its container or buffer. -/
  | outOfBounds
  /-- A signed `int` computation that leaves the range of `int`. -/
  | overflow
  /-- `std::length_error` or `std::out_of_range` of a `std::string`. -/
  | badString
  /-- A negative count handed to MPI, which aborts the run. -/
  | badCount
  /-- `std::runtime_error("Dictionary is empty, cannot build BK tree")`. -/
  | dictionaryEmpty
  deriving DecidableEq, Repr

/-- Conversion of an integer to a 32-bit `int`: reduction modulo `2^32`. -/
def toInt (x : Int) : Int := x.bmod 4294967296

/-- The values of a 32-bit `int`. -/
def IsInt (x : Int) : Prop := -2147483648 ≤ x ∧ x < 2147483648

instance (x : Int) : Decidable (IsInt x) := inferInstanceAs (Decidable (_ ∧ _))

/-- An `int` result, or a fault where the exact value is no `int`. -/
def checkInt (x : Int) : Except Fault Int := if IsInt x then .ok x else .error .overflow

/-- `v[i]` on a vector. -/
def vecAt {α : Type*} (v : List α) (i : Int) : Except Fault α :=
  if i < 0 then .error .outOfBounds
  else match v[i.toNat]? with
    | some x => .ok x
    | none => .error .outOfBounds

theorem toInt_of_isInt {x : Int} (h : IsInt x) : toInt x = x := by
  obtain ⟨hlo, hhi⟩ := h
  exact Int.bmod_eq_of_le (by omega) (by omega)

theorem isInt_toInt (x : Int) : IsInt (toInt x) := by
  have hlo := Int.le_bmod (x := x) (show 0 < 4294967296 by omega)
  have hhi := Int.bmod_lt (x := x) (show 0 < 4294967296 by omega)
  unfold toInt IsInt
  omega

section Count

variable (n : ℕ)

theorem toInt_eq_or : toInt n = n ∧ n < 2147483648 ∨ toInt n + 4294967296 ≤ n ∧ 2147483648 ≤ n := by
  have hrange := isInt_toInt n
  have hmod : toInt n % 4294967296 = n % 4294967296 := Int.bmod_emod
  obtain ⟨hlo, hhi⟩ := hrange
  omega

/-- A size converted to `int` counts at most what is there. -/
theorem toNat_toInt_le : (toInt n).toNat ≤ n := by
  have hcases := toInt_eq_or n
  omega

theorem toNat_toInt_lt : (toInt n).toNat < 2147483648 := by
  have hrange := (isInt_toInt n).2
  omega

theorem toNat_toInt_eq_iff : (toInt n).toNat = n ↔ n < 2147483648 := by
  have hcases := toInt_eq_or n
  omega

variable {n}

/-- A size of `2^31` or more, converted to `int`, counts far less than what is there. -/
theorem toNat_toInt_add_le (h : 2147483648 ≤ n) : (toInt n).toNat + 2147483648 ≤ n := by
  have hcases := toInt_eq_or n
  omega

end Count

@[simp] theorem checkInt_of_isInt {x : Int} (h : IsInt x) : checkInt x = .ok x := if_pos h

theorem checkInt_eq_ok_iff {x y : Int} : checkInt x = .ok y ↔ IsInt x ∧ x = y := by
  unfold checkInt
  split <;> simp_all

theorem isInt_of_checkInt {x y : Int} (h : checkInt x = .ok y) : IsInt y := by
  obtain ⟨hfit, rfl⟩ := checkInt_eq_ok_iff.mp h
  exact hfit

theorem isInt_natCast {n : ℕ} (h : n < 2147483648) : IsInt (n : Int) := ⟨by omega, by omega⟩

theorem map_toInt_eq {α : Type*} {size : α → ℕ} {l : List α} (h : ∀ a ∈ l, IsInt (size a)) :
    (l.map fun a => toInt (size a)) = l.map fun a => (size a : Int) :=
  List.map_congr_left fun a ha => toInt_of_isInt (h a ha)

theorem vecAt_of_getElem? {α : Type*} {v : List α} {i : ℕ} {x : α} (h : v[i]? = some x) :
    vecAt v (i : Int) = .ok x := by
  simp [vecAt, h]

theorem getElem?_of_vecAt {α : Type*} {v : List α} {i : ℕ} {x : α} (h : vecAt v (i : Int) = .ok x) :
    v[i]? = some x := by
  cases hat : v[i]? with
  | none => simp [vecAt, hat] at h
  | some y =>
    rw [vecAt_of_getElem? hat] at h
    rw [Except.ok.inj h]

/-- Bytes compare as `unsigned char`. -/
instance : LinearOrder Byte where
  le_refl _ := UInt8.le_refl _
  le_trans _ _ _ := UInt8.le_trans
  le_antisymm _ _ := UInt8.le_antisymm
  le_total := UInt8.le_total
  lt_iff_le_not_ge a b := by simp only [UInt8.le_iff_toNat_le, UInt8.lt_iff_toNat_lt]; omega
  toDecidableLE := inferInstance

/-- The characters `w.c_str()` shows to C code: those before the first NUL. -/
def c_str (w : Word) : Word := w.takeWhile (· ≠ 0)

/-- `strcmp(a.c_str(), b.c_str()) < 0`: the strings up to their first NUL, in
    lexicographic order of unsigned bytes. -/
def strcmpLess (a b : Word) : Bool := decide (c_str a < c_str b)

/-- A string without NUL, which `c_str` shows whole. -/
def NulFree (w : Word) : Prop := ∀ c ∈ w, c ≠ 0

theorem strcmpLess_keyedBy : comparator.KeyedBy c_str strcmpLess := ⟨fun _ _ => by simp [strcmpLess]⟩

theorem NulFree.c_str_eq {w : Word} (h : NulFree w) : c_str w = w :=
  List.takeWhile_eq_self_iff.mpr fun c hc => by simpa using h c hc

end spellcheck
