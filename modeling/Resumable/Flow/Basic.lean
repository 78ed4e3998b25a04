import Resumable.Polarity
import Resumable.Text.Blank

/-!
# Flows

A flow is a sequence of nodes: actions, suspension points, two-way branches and loops. Actions
and conditions are opaque texts that a host gives a meaning to. `Flow.suspends` tells whether
a flow contains a suspension point, and `Flow.induction` is induction over flows together with
the flows nested in them. The constructors `Node.act`, `Node.when`, `Node.counted` and
`Node.whilst` trim the texts they are given.
-/

namespace Resumable

/-- What makes a loop a counted one: an action that may come first, and one after each round. -/
structure Counting where
  /-- The action before the first test of the condition. -/
  init : Option String
  /-- The action at the end of each round. -/
  step : String
deriving DecidableEq, Repr

/-- A node of a flow. -/
inductive Node where
  /-- Performs an action. -/
  | action (text : String)
  /-- Hands control back to the caller, to go on from here later. -/
  | suspend
  /-- Runs `body` if `polarity` accepts the answer to `cond`, and `otherwise` if not. -/
  | branch (polarity : Polarity) (cond : String) (body otherwise : List Node)
  /-- Runs `body` as long as `cond` holds, with the actions of `counting` if it is counted. -/
  | loop (counting : Option Counting) (cond : String) (body : List Node)
deriving Repr

/-- A sequence of nodes. -/
abbrev Flow := List Node

mutual
/-- Whether the node is, or contains at any depth, a suspension point. -/
def Node.suspends : Node → Bool
  | .action _ => false
  | .suspend => true
  | .branch _ _ body otherwise => Flow.suspends body || Flow.suspends otherwise
  | .loop _ _ body => Flow.suspends body

/-- Whether the flow contains a suspension point at any depth. -/
def Flow.suspends : Flow → Bool
  | [] => false
  | node :: rest => node.suspends || Flow.suspends rest
end

/-- A property of all flows follows if it holds of the empty flow and passes to a flow from the
nodes after its first one and from the flows nested in its first one. -/
@[elab_as_elim]
theorem Flow.induction {P : Flow → Prop} (nil : P [])
    (action : ∀ text rest, P rest → P (.action text :: rest))
    (suspend : ∀ rest, P rest → P (.suspend :: rest))
    (branch : ∀ polarity cond body otherwise rest,
      P body → P otherwise → P rest → P (.branch polarity cond body otherwise :: rest))
    (loop : ∀ counting cond body rest,
      P body → P rest → P (.loop counting cond body :: rest))
    (flow : Flow) :
  P flow
  := by
  apply @Node.rec_1 (fun node => ∀ rest, P rest → P (node :: rest)) P
  · apply action
  · apply suspend
  · intro polarity cond body otherwise hbody hotherwise rest
    exact branch polarity cond body otherwise rest hbody hotherwise
  · intro counting cond body hbody rest
    exact loop counting cond body rest hbody
  · exact nil
  · intro node rest hnode hrest
    exact hnode rest hrest

namespace Node

/-- The action with the trimmed text. -/
def act (text : String) : Node :=
  .action (Text.trim text)

/-- The branch on the trimmed condition. -/
def when (polarity : Polarity) (cond : String) (body otherwise : Flow) : Node :=
  .branch polarity (Text.trim cond) body otherwise

/-- The counted loop with trimmed texts. -/
def counted (init : Option String) (cond step : String) (body : Flow) : Node :=
  .loop (some ⟨init.map Text.trim, Text.trim step⟩) (Text.trim cond) body

/-- The loop on the trimmed condition. -/
def whilst (cond : String) (body : Flow) : Node :=
  .loop none (Text.trim cond) body

end Node

end Resumable
