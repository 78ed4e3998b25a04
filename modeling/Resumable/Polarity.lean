/-!
# Polarities

A polarity says on which answer to a condition something happens.
-/

namespace Resumable

/-- The answer to a condition on which something happens. -/
inductive Polarity where
  | onTrue
  | onFalse
deriving DecidableEq, Repr

namespace Polarity

/-- Whether the polarity takes effect when the condition has the answer `holds`. -/
def accepts : Polarity → Bool → Bool
  | onTrue, holds => holds
  | onFalse, holds => !holds

/-- The polarity that takes effect on the other answer. -/
def flip : Polarity → Polarity
  | onTrue => onFalse
  | onFalse => onTrue

/-- Exactly one of a polarity and its flip takes effect. -/
@[simp]
theorem accepts_flip (p : Polarity) (holds : Bool) :
  p.flip.accepts holds = !p.accepts holds
  := by
  cases p <;> simp [flip, accepts]

end Polarity

end Resumable
