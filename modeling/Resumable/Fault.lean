import Resumable.Code.Basic
import Resumable.Flow.Defect

/-!
# Faults

What a stage of the lowering refuses: a malformed flow, a patch of something that is not a jump,
or code that is not well numbered.
`Code.fault?` finds the first instruction of a code that is numbered wrongly or jumps out of
the code; `Code.fault?_eq_none_iff` says that there is none exactly in well numbered code.
-/

namespace Resumable

/-- The reason why a stage of the lowering refuses its input. -/
inductive Fault where
  /-- The flow has defects. -/
  | malformed (findings : List Finding)
  /-- There is nothing at `address` to patch, among `size` instructions. -/
  | notEmitted (address size : Nat)
  /-- The instruction at `address` has no target to patch. -/
  | notAJump (address : Nat)
  /-- The instruction at `position` is numbered `address`. -/
  | misnumbered (position address : Nat)
  /-- The instruction at `position` jumps to `target`, out of `size` instructions. -/
  | outOfBounds (position target size : Nat)
deriving DecidableEq, Repr

namespace Fault

/-- The fault in words. -/
def message : Fault → String
  | malformed findings =>
    "cannot linearize a malformed flow: "
      ++ "; ".intercalate (findings.map fun f => f.defect.message ++ " (" ++ f.note ++ ")")
  | notEmitted address size =>
    s!"index out of bounds: the len is {size} but the index is {address}"
  | notAJump address => s!"instruction {address} is not a jump"
  | misnumbered position address =>
    s!"assertion `left == right` failed: instruction at position {position} is numbered {address}"
      ++ s!"\n  left: {address}\n right: {position}"
  | outOfBounds position target size =>
    s!"instruction {position} jumps to {target}, out of {size} instructions"

end Fault

/-- The fault of an instruction at `position` among `size` instructions. -/
def Instr.fault? (size position : Nat) (instr : Instr) : Option Fault :=
  if instr.address ≠ position then some (.misnumbered position instr.address)
  else
    match instr.op.target? with
    | none => none
    | some target => if target < size then none else some (.outOfBounds position target size)

namespace Code

/-- The first fault of the code. -/
def fault? (code : Code) : Option Fault :=
  code.zipIdx.findSome? fun entry => entry.1.fault? code.length entry.2

/-- An instruction has no fault exactly when it is numbered by its position and a jump of it
stays in bounds. -/
theorem instr_fault?_eq_none_iff {size position : Nat} {instr : Instr} :
  instr.fault? size position = none
    ↔ instr.address = position ∧ ∀ target ∈ instr.op.target?, target < size
  := by
  unfold Instr.fault?
  by_cases h : instr.address = position
  · cases instr.op.target? <;> simp [h]
  · simp [h]

/-- Code has no fault exactly when it is well numbered. -/
theorem fault?_eq_none_iff {code : Code} :
  code.fault? = none ↔ code.WellNumbered
  := by
  simp only [fault?, List.findSome?_eq_none_iff, instr_fault?_eq_none_iff, WellNumbered,
    Prod.forall, List.mem_zipIdx_iff_getElem?]
  exact forall_comm

instance (code : Code) : Decidable code.WellNumbered :=
  decidable_of_iff _ fault?_eq_none_iff

end Code

end Resumable
