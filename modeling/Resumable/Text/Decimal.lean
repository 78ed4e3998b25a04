/-!
# Decimal numbers

`digitCount n` is the width of `n` in decimal digits, and `alignRight width s` fills a text up
to a width with spaces in front. `readWord? s` reads an unsigned number of 64 bits: decimal
digits after an optional plus sign.
-/

namespace Resumable.Text

/-- The number of decimal digits of `n`. -/
def digitCount (n : Nat) : Nat :=
  (toString n).length

/-- The text with as many spaces in front as it needs to be `width` characters long. -/
def alignRight (width : Nat) (s : String) : String :=
  String.ofList (s.toList.leftpad width ' ')

/-- The value of a list of decimal digits, most significant first. -/
def digitsValue (ds : List Char) : Nat :=
  ds.foldl (fun n d => 10 * n + (d.toNat - 48)) 0

/-- The digits of a number: what follows its plus sign, if it has one. -/
def unsigned : List Char → List Char
  | '+' :: ds => ds
  | ds => ds

/-- The first number that does not fit into 64 bits. -/
def wordLimit : Nat :=
  18446744073709551616

/-- The number below `wordLimit` that `s` spells with decimal digits after an optional plus
sign. -/
def readWord? (s : String) : Option Nat :=
  let ds := unsigned s.toList
  let n := digitsValue ds
  if !ds.isEmpty && ds.all Char.isDigit && n < wordLimit then some n else none

end Resumable.Text
