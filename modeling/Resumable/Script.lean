import Resumable.Flow.Walk
import Resumable.Machine

/-!
# Scripted hosts

Two hosts whose answers are laid down beforehand. On `Host.scripted limit` every condition holds
for its first `limit` evaluations and never after them; `Host.answering` gives the answers of a
list and says no from then on. A `Script` is such a host with its first state and a bound on
the number of its answers that can send a run another way than before. Two steps of a run at
the same place with no such answer between them repeat forever, so the bound tells how many
steps a run can last if it ends at all.
-/

universe u

namespace Resumable

/-- How often each condition has been evaluated. -/
abbrev Tally := List (String × Nat)

namespace Tally

/-- The number of evaluations of the condition. -/
def count (cond : String) : Tally → Nat
  | [] => 0
  | entry :: rest => if entry.1 = cond then entry.2 else count cond rest

/-- The tally with one more evaluation of the condition. -/
def bump (cond : String) : Tally → Tally
  | [] => [(cond, 1)]
  | entry :: rest =>
    if entry.1 = cond then (cond, entry.2 + 1) :: rest else entry :: bump cond rest

/-- An evaluation counts for its own condition and for no other. -/
@[simp]
theorem count_bump (cond other : String) (tally : Tally) :
  count other (bump cond tally) = count other tally + if cond = other then 1 else 0
  := by
  induction tally with
  | nil => simp [bump, count]
  | cons entry rest ih =>
      obtain ⟨name, n⟩ := entry
      by_cases h : name = cond
      · by_cases h' : cond = other <;> simp [bump, count, h, h']
      · by_cases h' : name = other
        · subst h'
          simp [bump, count, h, Ne.symm h]
        · simp [bump, count, h, h', ih]

end Tally

namespace Host

/-- The host on which every condition holds for its first `limit` evaluations. -/
def scripted (limit : Nat) : Host Tally where
  perform _ tally := tally
  evaluate cond tally := (decide (tally.count cond < limit), tally.bump cond)
  suspend tally := tally

/-- The host that gives the answers of a list in their order, and then says no. -/
def answering : Host (List Bool) where
  perform _ answers := answers
  evaluate _ answers := (answers.headD false, answers.tail)
  suspend answers := answers

end Host

/-- A host with its first state, and how many answers can matter to a program of some size. -/
structure Script (σ : Type u) where
  /-- The host. -/
  host : Host σ
  /-- The state in which it starts. -/
  start : σ
  /-- The number of answers that can send a run of a program of this size another way than
  before. -/
  turns : Nat → Nat

namespace Script

/-- Every condition holds for its first `limit` evaluations. -/
def scripted (limit : Nat) : Script Tally where
  host := .scripted limit
  start := []
  turns size := limit * size

/-- The answers are those of the list. -/
def answering (answers : List Bool) : Script (List Bool) where
  host := .answering
  start := answers
  turns _ := answers.length

variable {σ : Type u}

/-- The script that also keeps the calls of its host. -/
def recorded (script : Script σ) : Script (σ × Array Call) where
  host := script.host.recorded
  start := (script.start, #[])
  turns := script.turns

/-- The number of steps that a run of a program of this size can last if it ends. -/
def fuel (script : Script σ) (size : Nat) : Nat :=
  size * (script.turns size + 1) + 2

/-- The state of the host after the flow was run to its end; `none` if it runs forever. -/
def walk (script : Script σ) (flow : Flow) : Option σ :=
  flow.walk script.host (script.fuel flow.weight) script.start

/-- Resumes the machine on the host in state `s`; `none` if it runs forever. -/
def resume (script : Script σ) (machine : Machine) (s : σ) :
    Option (Machine.Outcome Resumption σ) :=
  machine.resume script.host (script.fuel machine.table.size) s

/-- Completes the machine on the host in state `s`; `none` if it runs forever. -/
def complete (script : Script σ) (machine : Machine) (s : σ) : Option (Machine.Outcome Nat σ) :=
  machine.complete script.host (script.fuel machine.table.size) s

end Script

end Resumable
