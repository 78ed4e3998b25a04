import Resumable.Code.Compression
import Resumable.Code.Emission
import Resumable.Code.Listing

/-!
# Tables of subroutines

A subroutine is a run of instructions that is entered only at its first one. A table is a list
of subroutines; `Code.partition` cuts well numbered code into one, in front of every address
in `Code.boundaries`: the entry, the targets of jumps, and what follows a suspension.
`Flow.lower` takes a flow all the way to its table.
-/

namespace Resumable

/-- Consecutive instructions, at least one. -/
structure Subroutine where
  /-- The first instruction. -/
  first : Instr
  /-- The instructions after the first one. -/
  rest : List Instr
deriving DecidableEq, Repr

namespace Subroutine

/-- The instructions of the subroutine. -/
def code (s : Subroutine) : Code :=
  s.first :: s.rest

/-- The address of the first instruction. -/
def start (s : Subroutine) : Nat :=
  s.first.address

/-- The address after the last instruction. -/
def stop (s : Subroutine) : Nat :=
  s.start + s.code.length

/-- The instruction at an address. -/
def fetch? (s : Subroutine) (address : Nat) : Option Instr :=
  if s.start ≤ address then s.code[address - s.start]? else none

end Subroutine

/-- Subroutines in the order of their addresses. -/
abbrev Table := List Subroutine

namespace Table

/-- The table with one more instruction in front: in a subroutine of its own if the instruction
after it is labelled, and in the first subroutine if not. -/
def push (instr : Instr) : Table → Table
  | [] => [⟨instr, []⟩]
  | s :: rest =>
    if s.first.labelled then ⟨instr, []⟩ :: s :: rest else ⟨instr, s.code⟩ :: rest

/-- The code cut in front of its labelled instructions. -/
def ofCode (code : Code) : Table :=
  code.foldr push []

/-- The address of the first instruction. -/
def start (table : Table) : Nat :=
  (table.head?.map Subroutine.start).getD 0

/-- The address after the last instruction. -/
def stop (table : Table) : Nat :=
  (table.getLast?.map Subroutine.stop).getD 0

/-- The instructions of all subroutines. -/
def code (table : Table) : Code :=
  table.flatMap Subroutine.code

/-- The number of instructions. -/
def size (table : Table) : Nat :=
  table.code.length

/-- Whether a subroutine starts at the address. -/
def isStart (table : Table) (address : Nat) : Bool :=
  table.any fun s => s.start == address

/-- The instruction at an address. -/
def fetch? (table : Table) (address : Nat) : Option Instr :=
  table.findSome? fun s => s.fetch? address

/-- The listings of the subroutines, with a line of three dashes between them. -/
def listing (table : Table) : String :=
  "\n---\n".intercalate (table.map fun s => s.code.listing)

end Table

namespace Code

/-- The address after the instruction if the instruction suspends and is not the last one. -/
def resumption? (size : Nat) (instr : Instr) : Option Nat :=
  match instr.op with
  | .suspend => if instr.address + 1 < size then some (instr.address + 1) else none
  | .action _ | .noop | .jumpIf _ _ _ | .jump _ => none

/-- The addresses where a subroutine starts. -/
def boundaries (code : Code) : Addresses :=
  .union (.ofList [0]) (.union code.targets (.ofList (code.filterMap (resumption? code.length))))

/-- The code cut at its boundaries, which are labelled. -/
def table (code : Code) : Table :=
  Table.ofCode (code.label code.boundaries)

/-- Cuts well numbered code at its boundaries. -/
def partition (code : Code) : Except Fault Table :=
  match code.fault? with
  | none => .ok code.table
  | some fault => .error fault

end Code

/-- The table of a well formed flow. -/
def Flow.lower (flow : Flow) : Except Fault Table := do
  let linear ← flow.linearize
  let compressed ← linear.compress
  compressed.partition

end Resumable
