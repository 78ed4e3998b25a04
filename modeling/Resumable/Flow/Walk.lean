import Resumable.Flow.Basic
import Resumable.Process

/-!
# Walking flows

The meaning of a flow: `Flow.next` is the process whose states are the flows that are still to
be run. A branch is replaced by the arm that the host's answer selects; a loop whose condition
holds is replaced by its body, its step and itself. `Flow.walk` runs a flow to its end.
-/

universe u

namespace Resumable

/-- The action at the end of each round of a loop, if there is one. -/
def Counting.steps : Option Counting → Flow
  | none => []
  | some counting => [.action counting.step]

namespace Flow

/-- What a flow does first, and the flow that is left to be run then. -/
def next : Process Flow
  | [] => .finish
  | .action text :: rest => .perform text rest
  | .suspend :: rest => .suspend rest
  | .branch polarity cond body otherwise :: rest =>
    .evaluate cond fun holds => (if polarity.accepts holds then body else otherwise) ++ rest
  | .loop (some ⟨some init, step⟩) cond body :: rest =>
    .perform init (.loop (some ⟨none, step⟩) cond body :: rest)
  | .loop counting cond body :: rest =>
    .evaluate cond fun holds =>
      if holds then body ++ Counting.steps counting ++ .loop counting cond body :: rest else rest

variable {σ : Type u}

/-- The state of the host after the flow was run to its end, if `fuel` steps suffice for it. -/
def walk (host : Host σ) (fuel : Nat) (flow : Flow) (s : σ) : Option σ :=
  (Process.run next host fuel flow s).map Prod.snd

end Flow

mutual
/-- The number of steps that the node takes at most from one round of a loop to the next. -/
def Node.weight : Node → Nat
  | .action _ => 1
  | .suspend => 1
  | .branch _ _ body otherwise => Flow.weight body + Flow.weight otherwise + 1
  | .loop _ _ body => Flow.weight body + 3

/-- The weights of the nodes of the flow together. -/
def Flow.weight : Flow → Nat
  | [] => 0
  | node :: rest => node.weight + Flow.weight rest
end

end Resumable
