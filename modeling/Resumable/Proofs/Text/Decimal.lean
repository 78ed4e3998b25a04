import Resumable.Text.Decimal

/-!
# Reading decimal numbers back

The decimal digits of a number are the list `Nat.toDigits 10 n`. The number can be read back from
them (`digitsValue_toDigits`), and a character that is no digit is not among them
(`not_mem_toDigits`).
-/

namespace Resumable.Text

variable {m n : Nat} {c : Char}

/-- The digits of a number spell it. -/
@[simp]
theorem digitsValue_toDigits (n : Nat) :
  digitsValue (Nat.toDigits 10 n) = n
  := Nat.ofDigitChars_toDigits (by decide) (by decide)

theorem isDigit_of_mem_toDigits (h : c ∈ Nat.toDigits 10 n) :
  c.isDigit = true
  := Nat.isDigit_of_mem_toDigits (by decide) (by decide) h

theorem not_mem_toDigits (h : c.isDigit = false) :
  c ∉ Nat.toDigits 10 n
  := by
  intro hmem
  rw [isDigit_of_mem_toDigits hmem] at h
  cases h

theorem digitCount_eq (n : Nat) :
  digitCount n = (Nat.toDigits 10 n).length
  := by
  rw [digitCount, Nat.toString_eq_repr, ← String.length_toList, Nat.toList_repr]

end Resumable.Text
