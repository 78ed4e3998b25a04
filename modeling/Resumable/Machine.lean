import Resumable.Process
import Resumable.Table

/-!
# Machines

A machine runs a table of subroutines: `Machine.resume` runs it up to its next suspension or to
completion, and its counter tells where to go on then. Between two resumes it can only stand at
the start of a subroutine or at the end of the table. `Machine.complete` resumes it until it
completes.

A run need not end. Running takes the number of steps that it may last; the result is `none` if
these steps do not suffice.
-/

universe u

namespace Resumable

/-- What the operation at an address asks for, and the address to go on from. -/
def Op.request (address : Nat) : Op → Request Nat
  | action text => .perform text (address + 1)
  | suspend => .suspend (address + 1)
  | noop => .silent (address + 1)
  | jumpIf cond polarity target =>
    .evaluate cond fun holds => if polarity.accepts holds then target else address + 1
  | jump target => .silent target

/-- The process that runs through the instructions of the table, from address to address. -/
def Table.next (table : Table) : Process Nat := fun address =>
  if address = table.stop then .finish
  else
    match table.fetch? address with
    | none => .stray
    | some instr => instr.op.request address

/-- Where a machine goes on. -/
inductive Counter where
  /-- At the instruction with this address. -/
  | ready (address : Nat)
  /-- Nowhere: the machine has completed. -/
  | done
deriving DecidableEq, Repr

/-- What a resume led to. -/
inductive Resumption where
  | suspended
  | completed
deriving DecidableEq, Repr

/-- The reason why a resume failed. -/
inductive MachineError where
  /-- The machine had completed before. -/
  | resumedAfterCompletion
  /-- No subroutine starts where the machine should go on. -/
  | notAStart (address : Nat)
  /-- The run came to an address that the table does not have. -/
  | outOfTable
deriving DecidableEq, Repr

/-- The error in words. -/
def MachineError.message : MachineError → String
  | resumedAfterCompletion => "state machine resumed after completion"
  | notAStart address => s!"counter {address} is not the start of any subroutine"
  | outOfTable => "out of table"

/-- A table and where its run goes on. -/
structure Machine where
  /-- The subroutines that are run. -/
  table : Table
  /-- Where to go on. -/
  counter : Counter
deriving DecidableEq, Repr

namespace Machine

/-- The result of running a machine: what came of it, and the machine and the host afterwards. -/
structure Outcome (ρ : Type) (σ : Type u) where
  /-- The result, or why there is none. -/
  result : Except MachineError ρ
  /-- The machine after the run. -/
  machine : Machine
  /-- The state of the host after the run. -/
  host : σ

/-- The machine that has not run yet. -/
def ofTable (table : Table) : Machine where
  table := table
  counter := .ready table.start

/-- Whether the machine can be resumed at the address. -/
def canResumeAt (table : Table) (address : Nat) : Bool :=
  address == table.stop || table.isStart address

variable {σ : Type u}

/-- The outcome of a run of the machine that stopped. A run that left the table does not move
the counter. -/
def ofStop (machine : Machine) : Process.Stop Nat × σ → Outcome Resumption σ
  | (.ended .finished, s) => ⟨.ok .completed, { machine with counter := .done }, s⟩
  | (.ended .strayed, s) => ⟨.error .outOfTable, machine, s⟩
  | (.suspended address, s) => ⟨.ok .suspended, { machine with counter := .ready address }, s⟩

/-- Runs the machine up to its next suspension or to completion. -/
def resume (host : Host σ) (fuel : Nat) (machine : Machine) (s : σ) :
    Option (Outcome Resumption σ) :=
  match machine.counter with
  | .done => some ⟨.error .resumedAfterCompletion, machine, s⟩
  | .ready address =>
    if canResumeAt machine.table address then
      (Process.advance machine.table.next host fuel address s).map machine.ofStop
    else some ⟨.error (.notAStart address), machine, s⟩

/-- The outcome with one more suspension counted. -/
def Outcome.succ (outcome : Outcome Nat σ) : Outcome Nat σ :=
  { outcome with result := outcome.result.map (· + 1) }

/-- Resumes the machine until it completes, and counts the suspensions on the way. -/
def complete (host : Host σ) : Nat → Machine → σ → Option (Outcome Nat σ)
  | 0, _, _ => none
  | fuel + 1, machine, s =>
    match resume host fuel machine s with
    | none => none
    | some ⟨.ok .suspended, machine, s⟩ => (complete host fuel machine s).map Outcome.succ
    | some ⟨.ok .completed, machine, s⟩ => some ⟨.ok 0, machine, s⟩
    | some ⟨.error error, machine, s⟩ => some ⟨.error error, machine, s⟩

end Machine

end Resumable
