import Resumable.Addresses
import Resumable.Polarity

/-!
# Code

Code is a sequence of instructions that refer to each other by address. `Code.WellNumbered`
says that the address of an instruction is its position and that jumps stay inside the code.
`Code.targets` is the set of addresses that are jumped to.
-/

namespace Resumable

/-- What an instruction does. -/
inductive Op where
  /-- Performs an action. -/
  | action (text : String)
  /-- Suspends; the next instruction is where to resume. -/
  | suspend
  /-- Does nothing. -/
  | noop
  /-- Jumps to `target` if `polarity` accepts the answer to `cond`. -/
  | jumpIf (cond : String) (polarity : Polarity) (target : Nat)
  /-- Jumps to `target`. -/
  | jump (target : Nat)
deriving DecidableEq, Repr

namespace Op

/-- The address that the operation may jump to. -/
def target? : Op → Option Nat
  | jumpIf _ _ target | jump target => some target
  | action _ | suspend | noop => none

/-- The operation with `f` applied to the address that it may jump to. -/
def retarget (f : Nat → Nat) : Op → Op
  | jumpIf cond polarity target => jumpIf cond polarity (f target)
  | jump target => jump (f target)
  | action text => action text
  | suspend => suspend
  | noop => noop

@[simp]
theorem target?_retarget (f : Nat → Nat) (op : Op) :
  (op.retarget f).target? = op.target?.map f
  := by
  cases op <;> rfl

end Op

/-- An operation at an address. -/
structure Instr where
  /-- The address. -/
  address : Nat
  /-- What the instruction does. -/
  op : Op
  /-- Whether the address is written in a listing. -/
  labelled : Bool
deriving DecidableEq, Repr

/-- A sequence of instructions. -/
abbrev Code := List Instr

namespace Code

/-- The addresses that the instructions may jump to, in the order of the instructions. -/
def jumpTargets (code : Code) : List Nat :=
  code.filterMap fun instr => instr.op.target?

/-- The set of addresses that the instructions may jump to. -/
def targets (code : Code) : Addresses :=
  Addresses.ofList code.jumpTargets

/-- The operations as code: numbered by position, with every address written. -/
def ofOps (ops : List Op) : Code :=
  ops.mapIdx fun address op => ⟨address, op, true⟩

/-- The code in which exactly the addresses in `labels` are written. -/
def label (code : Code) (labels : Addresses) : Code :=
  code.map fun instr => { instr with labelled := decide (instr.address ∈ labels) }

/-- Every instruction is numbered by its position, and every jump leads to one of them. -/
def WellNumbered (code : Code) : Prop :=
  ∀ (position : Nat) (instr : Instr), code[position]? = some instr →
    instr.address = position ∧ ∀ target ∈ instr.op.target?, target < code.length

end Code

end Resumable
