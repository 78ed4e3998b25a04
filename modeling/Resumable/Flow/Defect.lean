import Resumable.Diagnostic
import Resumable.Flow.Basic

/-!
# Defects of flows

A node has a defect when one of its texts is blank or when it is a branch without a body.
`Flow.findings` lists the defects of all nodes of a flow with the paths that lead to them:
depth first, a node's own defects before those of the nodes nested in it. `Flow.diagnostics`
reports them as errors. A flow is well formed when it has none.
-/

namespace Resumable

/-- The two flows that can be nested in a node. -/
inductive Arm where
  | body
  | otherwise
deriving DecidableEq, Repr

/-- The name of the arm in a path. -/
def Arm.name : Arm → String
  | body => "body"
  | otherwise => "otherwise"

/-- Where a node is in a flow: the positions and arms that lead to the flow it stands in, from
the outside in, and its position there. -/
structure Path where
  /-- Positions of the enclosing nodes, each with the arm that is entered. -/
  enclosing : List (Nat × Arm)
  /-- The position in the innermost flow. -/
  position : Nat
deriving DecidableEq, Repr

namespace Path

/-- The path within the node at `position` of a larger flow, through `arm`. -/
def within (position : Nat) (arm : Arm) (path : Path) : Path where
  enclosing := (position, arm) :: path.enclosing
  position := path.position

/-- A position in brackets. -/
def bracket (position : Nat) : String :=
  "[" ++ toString position ++ "]"

/-- The path as text, such as `flow[0].body[2]`. -/
def text (path : Path) : String :=
  "flow"
    ++ String.join (path.enclosing.map fun step => bracket step.1 ++ "." ++ step.2.name)
    ++ bracket path.position

end Path

/-- What can be wrong with a node. -/
inductive Defect where
  | blankAction
  | blankBranchCondition
  | emptyBranchBody
  | blankLoopInit
  | blankLoopCondition
  | blankLoopStep
deriving DecidableEq, Repr

namespace Defect

/-- The kinds of defects that have a code of their own. -/
inductive Kind where
  | condition
  | action
  | branchBody
  | loopText
deriving DecidableEq, Repr

/-- The kinds in the order of their codes. -/
def Kind.all : List Kind :=
  [condition, action, branchBody, loopText]

/-- The code of a kind. -/
def Kind.code : Kind → String
  | condition => "E0001"
  | action => "E0002"
  | branchBody => "E0003"
  | loopText => "E0004"

/-- The kind of a defect. -/
def kind : Defect → Kind
  | blankBranchCondition | blankLoopCondition => .condition
  | blankAction => .action
  | emptyBranchBody => .branchBody
  | blankLoopInit | blankLoopStep => .loopText

/-- The defect in words. -/
def message : Defect → String
  | blankAction => "action is empty"
  | blankBranchCondition => "branch condition is empty"
  | emptyBranchBody => "branch body is empty, swap the branch polarity instead"
  | blankLoopInit => "loop init is empty"
  | blankLoopCondition => "loop condition is empty"
  | blankLoopStep => "loop step is empty"

/-- The defect as a list of one element if it is present, and the empty list if not. -/
def presentIf (present : Bool) (defect : Defect) : List Defect :=
  if present then [defect] else []

/-- The defect of having a blank text. -/
def ofText (defect : Defect) (text : String) : List Defect :=
  presentIf (Text.isBlank text) defect

end Defect

/-- The defects of the node itself, not counting the nodes nested in it. -/
def Node.defects : Node → List Defect
  | .action text => Defect.ofText .blankAction text
  | .suspend => []
  | .branch _ cond body _ =>
    Defect.ofText .blankBranchCondition cond ++ Defect.presentIf body.isEmpty .emptyBranchBody
  | .loop none cond _ => Defect.ofText .blankLoopCondition cond
  | .loop (some ⟨init, step⟩) cond _ =>
    init.toList.flatMap (Defect.ofText .blankLoopInit)
      ++ Defect.ofText .blankLoopCondition cond ++ Defect.ofText .blankLoopStep step

/-- A defect and the path to the node that has it. -/
structure Finding where
  /-- The path to the node. -/
  path : Path
  /-- What is wrong with the node. -/
  defect : Defect
deriving DecidableEq, Repr

namespace Finding

/-- The finding seen from a larger flow, in which its flow is an arm of the node at `position`. -/
def within (position : Nat) (arm : Arm) (finding : Finding) : Finding where
  path := finding.path.within position arm
  defect := finding.defect

/-- The note that locates the finding. -/
def note (finding : Finding) : String :=
  "at " ++ finding.path.text

/-- The finding as an error. -/
def diagnostic (finding : Finding) : Diagnostic where
  severity := .error
  code := some finding.defect.kind.code
  message := finding.defect.message
  notes := [finding.note]

end Finding

/-- The findings for the defects of the node itself, which is at `position`. -/
def Node.ownFindings (position : Nat) (node : Node) : List Finding :=
  node.defects.map (Finding.mk ⟨[], position⟩)

mutual
/-- The findings in the node at `position` and in the nodes nested in it. -/
def Node.findings (position : Nat) : Node → List Finding
  | .action text => Node.ownFindings position (.action text)
  | .suspend => Node.ownFindings position .suspend
  | .branch polarity cond body otherwise =>
    Node.ownFindings position (.branch polarity cond body otherwise)
      ++ (Flow.findingsFrom 0 body).map (Finding.within position .body)
      ++ (Flow.findingsFrom 0 otherwise).map (Finding.within position .otherwise)
  | .loop counting cond body =>
    Node.ownFindings position (.loop counting cond body)
      ++ (Flow.findingsFrom 0 body).map (Finding.within position .body)

/-- The findings in a flow whose first node is at `position`. -/
def Flow.findingsFrom (position : Nat) : Flow → List Finding
  | [] => []
  | node :: rest => node.findings position ++ Flow.findingsFrom (position + 1) rest
end

/-- The findings in a flow. -/
def Flow.findings (flow : Flow) : List Finding :=
  flow.findingsFrom 0

/-- The findings in a flow as diagnostics. -/
def Flow.diagnostics (flow : Flow) : List Diagnostic :=
  flow.findings.map Finding.diagnostic

/-- A flow is well formed when there is no defect in it. -/
def Flow.WellFormed (flow : Flow) : Prop :=
  flow.findings = []

instance (flow : Flow) : Decidable flow.WellFormed :=
  inferInstanceAs (Decidable (flow.findings = []))

end Resumable
