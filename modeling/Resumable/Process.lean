import Resumable.Host

/-!
# Processes

A process says, for each of its states, what it asks of its host next and how it goes on. Both
a flow and a table of subroutines are processes, and both run by the same rules:
`Process.advance` runs up to the next suspension or the end, and `Process.run` through the
suspensions up to the end.

A process may run forever. Running takes the number of steps that it may last; the result is
`none` if these steps do not suffice.
-/

universe u v

namespace Resumable

/-- What a process in a state of type `α` does next. -/
inductive Request (α : Type u) where
  /-- It has completed. -/
  | finish
  /-- It has left its program: nothing is known of this state. -/
  | stray
  /-- It goes on without a call of the host. -/
  | silent (next : α)
  /-- It has the host perform an action. -/
  | perform (action : String) (next : α)
  /-- It has the host evaluate a condition, and goes on as the answer says. -/
  | evaluate (condition : String) (next : Bool → α)
  /-- It suspends. -/
  | suspend (next : α)

/-- What the process does next, in each of its states. -/
abbrev Process (α : Type u) := α → Request α

namespace Process

/-- How a process can end. -/
inductive Ending where
  | finished
  | strayed
deriving DecidableEq, Repr

/-- Why a process stopped to run: it ended, or suspended to go on from a state. -/
inductive Stop (α : Type u) where
  | ended (ending : Ending)
  | suspended (next : α)
deriving DecidableEq, Repr

variable {α : Type u} {σ : Type v}

/-- Runs the process up to its next suspension or its end. -/
def advance (process : Process α) (host : Host σ) : Nat → α → σ → Option (Stop α × σ)
  | 0, _, _ => none
  | fuel + 1, a, s =>
    match process a with
    | .finish => some (.ended .finished, s)
    | .stray => some (.ended .strayed, s)
    | .silent next => advance process host fuel next s
    | .perform action next => advance process host fuel next (host.perform action s)
    | .evaluate condition next =>
      let answer := host.evaluate condition s
      advance process host fuel (next answer.1) answer.2
    | .suspend next => some (.suspended next, host.suspend s)

/-- Runs the process to its end; the host is only told of the suspensions. -/
def run (process : Process α) (host : Host σ) : Nat → α → σ → Option (Ending × σ)
  | 0, _, _ => none
  | fuel + 1, a, s =>
    match process a with
    | .finish => some (.finished, s)
    | .stray => some (.strayed, s)
    | .silent next => run process host fuel next s
    | .perform action next => run process host fuel next (host.perform action s)
    | .evaluate condition next =>
      let answer := host.evaluate condition s
      run process host fuel (next answer.1) answer.2
    | .suspend next => run process host fuel next (host.suspend s)

end Process

end Resumable
