import Resumable.Fault

/-!
# Compression of code

Compression removes instructions that do nothing but take up an address: operations without
effect, and jumps to the very next instruction. `Code.pass` removes those that the code has,
`Code.settle` repeats this until none is left, and `Code.compress` does so for well numbered
code and labels the targets of the jumps that are left.
-/

namespace Resumable.Code

/-- Whether the instruction can go: it does nothing, and it is neither the entry of the code nor
the end of it on which a jump lands, or it jumps to the next address. -/
def isSpare (code : Code) (instr : Instr) : Bool :=
  match instr.op with
  | .noop =>
    instr.address != 0
      && !(instr.address + 1 == code.length && decide (instr.address ∈ code.targets))
  | .jump target => target == instr.address + 1
  | .action _ | .suspend | .jumpIf _ _ _ => false

/-- The number of instructions up to the last one that is kept. -/
def keptEnd (marks : List Bool) : Nat :=
  (marks.reverse.dropWhile (!·)).length

/-- Whether a jump that is kept leads behind the last instruction that is kept. -/
def dangles (code : Code) (marks : List Bool) : Bool :=
  let stop := keptEnd marks
  (code.zip marks).any fun entry => entry.2 && entry.1.op.target?.any (stop ≤ ·)

/-- Which instructions are kept, by position: those that are not spare, and the last one also if
a jump would lead behind the kept instructions without it. -/
def marks (code : Code) : List Bool :=
  let marks := code.map fun instr => !code.isSpare instr
  if code.dangles marks then marks.set (code.length - 1) true else marks

/-- The number of kept instructions in front of an address: where the first kept instruction
from there on moves to. -/
def rank (marks : List Bool) (address : Nat) : Nat :=
  (marks.take address).count true

/-- The instruction with its addresses moved to where they are among the kept instructions. -/
def moved (marks : List Bool) (instr : Instr) : Instr :=
  { instr with address := rank marks instr.address, op := instr.op.retarget (rank marks) }

/-- The kept instructions, renumbered. -/
def pass (code : Code) : Code :=
  let marks := code.marks
  (code.zip marks).filterMap fun entry => if entry.2 then some (moved marks entry.1) else none

/-- At most `rounds` passes, as long as they remove something. -/
def settle : Nat → Code → Code
  | 0, code => code
  | rounds + 1, code => if code.marks.all id then code else settle rounds code.pass

/-- The code without spare instructions, labelled where jumps land. Every pass that removes
something shortens the code, so there are no more passes than instructions. -/
def compact (code : Code) : Code :=
  let settled := settle code.length code
  settled.label settled.targets

/-- Compresses well numbered code. -/
def compress (code : Code) : Except Fault Code :=
  match code.fault? with
  | none => .ok code.compact
  | some fault => .error fault

end Resumable.Code
