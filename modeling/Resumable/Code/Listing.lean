import Resumable.Code.Basic
import Resumable.Text.Decimal
import Resumable.Text.Lines

/-!
# Listings of code

`Code.listing` writes code as text: for each instruction its address, if it is labelled, in a
column wide enough for all of them, then a colon and what it does. The lines of a text with
several lines are aligned behind the colon.
-/

namespace Resumable

/-- The condition behind the word `if`; one with several lines starts on a line of its own. -/
def Op.conditionText (cond : String) : String :=
  if '\n' ∈ cond.toList then "if\n  " ++ Text.hang "  " cond else "if " ++ cond

/-- The answer on which a conditional jump is taken. -/
def Polarity.answerText : Polarity → String
  | onTrue => "true"
  | onFalse => "false"

/-- The operation as text. -/
def Op.text : Op → String
  | action text => text
  | suspend => "yield"
  | noop => "noop"
  | jump target => "jump " ++ toString target
  | jumpIf cond polarity target =>
    conditionText cond ++ "\nis " ++ polarity.answerText ++ ", jump to " ++ toString target

/-- The address in a column of the given width; the column stays blank without a label. -/
def Instr.labelText (width : Nat) (instr : Instr) : String :=
  Text.alignRight width (if instr.labelled then toString instr.address else "")

/-- The instruction with its label in a column of the given width. -/
def Instr.listing (width : Nat) (instr : Instr) : String :=
  instr.labelText width ++ ": " ++ Text.hang (Text.spaces (width + 2)) instr.op.text

namespace Code

/-- The width of the largest labelled address. -/
def labelWidth (code : Code) : Nat :=
  (code.map fun instr => if instr.labelled then Text.digitCount instr.address else 0).foldl max 0

/-- The code as text. -/
def listing (code : Code) : String :=
  let width := code.labelWidth
  "\n".intercalate (code.map (Instr.listing width))

end Code

end Resumable
