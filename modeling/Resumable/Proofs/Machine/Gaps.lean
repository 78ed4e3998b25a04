import Resumable.Proofs.Machine.Resumption
import Resumable.Proofs.Table.Selection

/-!
# Machines over tables with gaps

`Code.execWithin` runs code with a counter that is a position in the code. A table only tells where
to stop: at the end of the table, and where the counter comes to a position that the table does not
cover. The table that some of the subroutines of well numbered code make up, in their order, is run
like this (`WellNumbered.advance_selected`).

A machine over such a table can be resumed at the end of the table and at the start of a
subroutine. Anywhere else it is stranded, `Machine.IsStranded`: a resume fails and nothing changes.
-/

universe u

namespace Resumable

/-- How a run of code comes to stop that may not leave the addresses of a table. -/
inductive Halt where
  /-- It came to the end of the table. -/
  | completed
  /-- It suspended with the instruction at this position. -/
  | suspended (position : Nat)
  /-- It came to this position, which the table does not cover. -/
  | left (position : Nat)
deriving DecidableEq, Repr

/-- Why the process stopped that ran like this. -/
def Halt.stop : Halt → Process.Stop Nat
  | completed => .ended .finished
  | suspended position => .suspended (position + 1)
  | left _ => .ended .strayed

/-! ### Runs within a table -/

namespace Code

variable {σ : Type u}

variable {code : Code} {selected : Table} {host : Host σ} {position : Nat}

end Code

/-! ### Machines -/

namespace Machine

variable {σ : Type u} {code : Code} {selected : Table} {host : Host σ} {machine : Machine}
  {fuel address : Nat} {s : σ}

/-- The machine has completed, or it stands neither at the end of its table nor at the start of a
subroutine. -/
def IsStranded (machine : Machine) : Prop :=
  machine.counter = .done
    ∨ ∃ address, machine.counter = .ready address ∧ address ≠ machine.table.stop
      ∧ ∀ s ∈ machine.table, s.start ≠ address

/-- Why a resume of the machine is refused, if it is stranded. -/
def refusal (machine : Machine) : MachineError :=
  match machine.counter with
  | .done => .resumedAfterCompletion
  | .ready address => .notAStart address

theorem canResumeAt_iff {table : Table} :
  canResumeAt table address ↔ address = table.stop ∨ ∃ s ∈ table, s.start = address
  := by
  simp [canResumeAt, Table.isStart]

/-- A resume of a stranded machine fails and changes nothing. -/
theorem IsStranded.resume_eq (h : machine.IsStranded) (fuel : Nat) (s : σ) :
  machine.resume host fuel s = some ⟨.error machine.refusal, machine, s⟩
  := by
  rcases h with hdone | ⟨address, hready, hstop, hstart⟩
  · rw [resume, refusal, hdone]
  · have hresume : ¬ canResumeAt machine.table address = true := by
      rw [canResumeAt_iff]
      rintro (heq | ⟨s, hs, heq⟩)
      · apply hstop heq
      · apply hstart s hs heq
    rw [resume, refusal, hready]
    apply if_neg hresume

/-- Resumes do not change the table of a machine. -/
theorem table_of_resume {outcome : Outcome Resumption σ}
    (h : machine.resume host fuel s = some outcome) :
  outcome.machine.table = machine.table
  := by
  unfold resume at h
  split at h
  · cases h
    rfl
  · split at h
    · obtain ⟨⟨stop, t⟩, -, rfl⟩ := Option.map_eq_some_iff.mp h
      cases stop with
      | suspended next => rfl
      | ended ending =>
          cases ending with
          | finished => rfl
          | strayed => rfl
    · cases h
      rfl

theorem Reachable.table_eq {table : Table} (h : Reachable.{u} table machine) :
  machine.table = table
  := by
  induction h with
  | start => rfl
  | resume _ hresume ih => rw [table_of_resume hresume, ih]

end Machine

end Resumable
