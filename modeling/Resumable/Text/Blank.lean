/-!
# Blank text

The white space characters `isSpace`, the text `trim s` that is left of `s` once the white
space at both its ends is removed, and the test `isBlank s` that nothing is left.
-/

namespace Resumable.Text

/-- The white space characters, as ascending closed ranges of code points. -/
def spaceRanges : List (Nat × Nat) :=
  [(0x0009, 0x000D), (0x0020, 0x0020), (0x0085, 0x0085), (0x00A0, 0x00A0), (0x1680, 0x1680),
   (0x2000, 0x200A), (0x2028, 0x2029), (0x202F, 0x202F), (0x205F, 0x205F), (0x3000, 0x3000)]

/-- A character is white space when its code point lies in one of the `spaceRanges`. -/
def isSpace (c : Char) : Bool :=
  spaceRanges.any fun range => range.1 ≤ c.toNat && c.toNat ≤ range.2

/-- The characters from the first to the last one that is not white space. -/
def trimChars (cs : List Char) : List Char :=
  ((cs.dropWhile isSpace).reverse.dropWhile isSpace).reverse

/-- The text without the white space at its two ends. -/
def trim (s : String) : String :=
  String.ofList (trimChars s.toList)

/-- A text is blank when it consists of white space only. -/
def isBlank (s : String) : Bool :=
  s.toList.all isSpace

/-- Dropping from the front leaves nothing exactly when every character is dropped. -/
theorem dropWhile_eq_nil_iff_all {p : Char → Bool} {cs : List Char} :
  cs.dropWhile p = [] ↔ cs.all p = true
  := by
  induction cs with
  | nil => simp
  | cons c cs ih => by_cases h : p c <;> simp [h, ih]

/-- Dropping from the front does not change whether every character satisfies `p`. -/
theorem all_dropWhile {p : Char → Bool} {cs : List Char} :
  (cs.dropWhile p).all p = true ↔ cs.all p = true
  := by
  induction cs with
  | nil => simp
  | cons c cs ih => by_cases h : p c <;> simp [h, ih]

/-- A text is blank exactly when trimming leaves nothing of it. -/
theorem isBlank_iff_trim_eq_empty (s : String) :
  isBlank s = true ↔ trim s = ""
  := by
  rw [isBlank, trim, ← String.toList_inj, String.toList_ofList, trimChars, String.toList_empty,
    List.reverse_eq_nil_iff, dropWhile_eq_nil_iff_all, List.all_reverse,
    all_dropWhile]

end Resumable.Text
