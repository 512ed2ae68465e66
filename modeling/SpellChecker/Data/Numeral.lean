import Mathlib.Data.Nat.Digits.Defs
import Mathlib.Data.UInt
import Mathlib.Tactic.Cases

namespace numeral

/-- The decimal digits of a number, as characters. -/
def natural (n : ℕ) : List UInt8 := if n = 0 then [48] else ((Nat.digits 10 n).map fun d => 48 + UInt8.ofNat d).reverse

/-- A number in decimal, behind a minus sign if it is negative. -/
def integer (n : Int) : List UInt8 := if n < 0 then 45 :: natural n.natAbs else natural n.natAbs

/-- The number that digits stand for. -/
def readNatural (digits : List UInt8) : ℕ := Nat.ofDigits 10 (digits.reverse.map fun c => (c - 48).toNat)

/-- The number that digits behind an optional minus sign stand for. -/
def readInteger : List UInt8 → Int
  | [] => 0
  | c :: digits => if c = 45 then -readNatural digits else readNatural (c :: digits)

/-- The characters of the digits are the ten from 48 on. -/
theorem digit_spec : ∀ d < 10, 48 ≤ 48 + UInt8.ofNat d ∧ 48 + UInt8.ofNat d ≤ 57 ∧
    (48 + UInt8.ofNat d - 48).toNat = d := by
  decide

theorem readNatural_natural (n : ℕ) : readNatural (natural n) = n := by
  rw [natural]
  split
  · rename_i hzero
    rw [hzero]
    rfl
  · have hdigits : (Nat.digits 10 n).map ((fun c => (c - 48).toNat) ∘ fun d => 48 + UInt8.ofNat d) =
        Nat.digits 10 n := by
      refine (List.map_congr_left fun d hd => ?_).trans (List.map_id _)
      exact (digit_spec d (Nat.digits_lt_base (by omega) hd)).2.2
    rw [readNatural, List.reverse_reverse, List.map_map, hdigits, Nat.ofDigits_digits]

theorem natural_ne_nil (n : ℕ) : natural n ≠ [] := by
  rw [natural]
  split
  · simp
  · rename_i hne
    simpa [Nat.digits_ne_nil_iff_ne_zero] using hne

/-- A number is written with digits only. -/
theorem mem_natural {n : ℕ} {c : UInt8} (h : c ∈ natural n) : 48 ≤ c ∧ c ≤ 57 := by
  rw [natural] at h
  split at h
  · rw [List.mem_singleton.mp h]
    decide
  · obtain ⟨d, hd, rfl⟩ := List.mem_map.mp (List.mem_reverse.mp h)
    obtain ⟨hlo, hhi, -⟩ := digit_spec d (Nat.digits_lt_base (by omega) hd)
    exact ⟨hlo, hhi⟩

theorem mem_integer {n : Int} {c : UInt8} (h : c ∈ integer n) : c = 45 ∨ 48 ≤ c ∧ c ≤ 57 := by
  rw [integer] at h
  split at h
  · exact (List.mem_cons.mp h).imp_right mem_natural
  · exact .inr (mem_natural h)

theorem integer_ne_nil (n : Int) : integer n ≠ [] := by
  rw [integer]
  split
  · simp
  · exact natural_ne_nil _

/-- What has been written in decimal is read back. -/
theorem readInteger_integer (n : Int) : readInteger (integer n) = n := by
  rw [integer]
  split
  · rename_i hneg
    rw [readInteger, if_pos rfl, readNatural_natural]
    omega
  · rename_i hnonneg
    obtain ⟨c, digits, hcons⟩ := List.exists_cons_of_ne_nil (natural_ne_nil n.natAbs)
    have hdigit : 48 ≤ c ∧ c ≤ 57 := @mem_natural n.natAbs c (by simp [hcons])
    have hminus : c ≠ 45 := by
      rintro rfl
      exact absurd hdigit.1 (by decide)
    have hread := readNatural_natural n.natAbs
    rw [hcons] at hread
    rw [hcons, readInteger, if_neg hminus, hread]
    omega

end numeral
