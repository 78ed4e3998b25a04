/-!
# Hosts

A host gives actions, conditions and suspensions their effect on a state of its own. What it
is asked to do is a sequence of calls; `Host.recorded` is the host that also keeps them, and
`Call.transcript` writes them out, one line a call.
-/

universe u

namespace Resumable

/-- The meaning of actions, conditions and suspensions as changes of a state. -/
structure Host (σ : Type u) where
  /-- Performs an action. -/
  perform : String → σ → σ
  /-- Answers a condition. -/
  evaluate : String → σ → Bool × σ
  /-- Takes note of a suspension. -/
  suspend : σ → σ

/-- Something that a host was asked to do. -/
inductive Call where
  /-- An action was performed. -/
  | performed (action : String)
  /-- A condition was evaluated, with the given answer. -/
  | evaluated (condition : String) (holds : Bool)
  /-- A suspension was announced. -/
  | suspended
deriving DecidableEq, Repr

namespace Call

/-- The line for a call in a transcript. -/
def line : Call → String
  | performed action => action ++ "\n"
  | evaluated condition holds => condition ++ (if holds then "? true\n" else "? false\n")
  | suspended => "yield\n"

/-- The lines for calls, in their order. -/
def transcript (calls : List Call) : String :=
  String.join (calls.map line)

end Call

namespace Host

variable {σ : Type u}

/-- The host that acts like `host` and keeps the calls it gets, in their order. -/
def recorded (host : Host σ) : Host (σ × Array Call) where
  perform action s := (host.perform action s.1, s.2.push (.performed action))
  evaluate condition s :=
    let answer := host.evaluate condition s.1
    (answer.1, answer.2, s.2.push (.evaluated condition answer.1))
  suspend s := (host.suspend s.1, s.2.push .suspended)

end Host

end Resumable
