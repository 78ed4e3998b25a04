import Resumable.Proofs.Code.Execution
import Resumable.Proofs.Code.Layout
import Resumable.Proofs.Process.Simulation

/-!
# The code of a flow

The address at which a run of code stands tells which flow is left to be run:
`Code.Continues code address flow` says that the code from that address on runs the flow to its
end. In the code of a flow, the flow itself is to be run from address 0 on, and whatever flow is
left at an address, the code requests what the flow does (`Continues.isSimulation`). So the code
behaves like the flow that it was laid out from (`Flow.alike_code`).
-/

universe u

namespace Resumable

theorem Counting.layout_steps {counting : Option Counting} (origin : Nat) :
  Flow.layout origin (steps counting) = stepOps counting
  := by
  cases counting with
  | none => rfl
  | some counting => rfl

theorem Flow.next_branch {polarity : Polarity} {cond : String} {body otherwise rest : Flow} :
  Flow.next (.branch polarity cond body otherwise :: rest)
    = .evaluate cond fun holds =>
        if polarity.accepts holds then body ++ rest else otherwise ++ rest
  := by
  rw [Flow.next]
  congr 1
  funext holds
  apply apply_ite (· ++ rest)

namespace Code

/-- From the address on, the code has these operations, one after the other. -/
def Holds (code : Code) : Nat → List Op → Prop
  | _, [] => True
  | address, op :: ops => code.next address = op.request address ∧ Holds code (address + 1) ops

/-- From the address on, the code runs the flow to its end. It may get to the operations of the
flow by jumps, and between two parts of it. -/
inductive Continues (code : Code) : Nat → Flow → Prop where
  | stop : Continues code code.length []
  | flow {address : Nat} {flow rest : Flow} :
      Holds code address (flow.layout address) →
      Continues code (address + (flow.layout address).length) rest →
      Continues code address (flow ++ rest)
  | silent {address address' : Nat} {flow : Flow} :
      code.next address = .silent address' → Continues code address' flow →
      Continues code address flow

variable {code : Code} {address : Nat}

/-! ### Operations at an address -/

@[simp]
theorem holds_cons {op : Op} {ops : List Op} :
  Holds code address (op :: ops)
    ↔ code.next address = op.request address ∧ Holds code (address + 1) ops
  := by
  rfl

@[simp]
theorem holds_append {ops ops' : List Op} :
  Holds code address (ops ++ ops')
    ↔ Holds code address ops ∧ Holds code (address + ops.length) ops'
  := by
  induction ops generalizing address with
  | nil => simp [Holds]
  | cons op ops ih =>
      rw [List.cons_append, holds_cons, holds_cons, ih, and_assoc, List.length_cons,
        Nat.add_right_comm, Nat.add_assoc]

theorem holds_ofOps (ops : List Op) :
  Holds (ofOps ops) 0 ops
  := by
  -- the operations that come first are passed over one by one
  suffices ∀ before after, ops = before ++ after → Holds (ofOps ops) before.length after by
    apply this [] ops rfl
  intro before after
  induction after generalizing before with
  | nil =>
      intro _
      trivial
  | cons op after ih =>
      intro hops
      constructor
      · have hinstr : (ofOps ops)[before.length]? = some ⟨before.length, op, true⟩ := by
          rw [getElem?_ofOps, hops, List.getElem?_append_right (Nat.le_refl _), Nat.sub_self]
          rfl
        apply next_of_getElem? hinstr
      · have hlength : (before ++ [op]).length = before.length + 1 := List.length_append
        rw [← hlength]
        apply ih
        rw [hops, List.append_assoc]
        rfl

namespace Continues

variable {flow : Flow}

/-! ### Requests of the code and of the flow -/

theorem of_eq {address' : Nat} (h : Continues code address flow) (heq : address = address') :
  Continues code address' flow
  := by
  rw [← heq]
  apply h

/-- The code goes on with a node whose operations it has. -/
theorem node {node : Node} (hnode : Holds code address (node.layout address))
    (hflow : Continues code (address + (node.layout address).length) flow) :
  Continues code address (node :: flow)
  := by
  rw [← Flow.layout_singleton] at hnode hflow
  apply Continues.flow hnode hflow

/-- A conditional jump requests an answer, and goes on at the next address if the answer is
accepted, at its target if not. -/
theorem rel_jumpIf {polarity : Polarity} {cond : String} {target : Nat} {accepted refused : Flow}
    (hjump : code.next address = Op.request address (.jumpIf cond polarity.flip target))
    (haccepted : Continues code (address + 1) accepted)
    (hrefused : Continues code target refused) :
  Request.Rel (Continues code) (code.next address)
    (.evaluate cond fun holds => if polarity.accepts holds then accepted else refused)
  := by
  rw [hjump]
  apply Request.Rel.evaluate
  intro holds
  rw [Polarity.accepts_flip]
  cases polarity.accepts holds with
  | true => apply haccepted
  | false => apply hrefused

theorem rel_branch {polarity : Polarity} {cond : String} {body otherwise : Flow}
    (hnode : Holds code address (Node.layout address (.branch polarity cond body otherwise)))
    (hflow : Continues code
      (address + (Node.layout address (.branch polarity cond body otherwise)).length) flow) :
  Request.Rel (Continues code) (code.next address)
    (Flow.next (.branch polarity cond body otherwise :: flow))
  := by
  rw [Flow.next_branch]
  obtain ⟨rfl, stop, hstop, hend, hlayout⟩ | ⟨-, start, stop, hstart, hstop, hend, hlayout⟩ :=
    Node.layout_branch_cases address polarity cond body otherwise
  · rw [hend] at hflow
    rw [hlayout] at hnode
    simp only [holds_cons, holds_append, hstop] at hnode
    obtain ⟨hjump, hbody, hnoop, -⟩ := hnode
    -- the body runs into the last operation, on which the jump lands
    have hlast : Continues code stop flow := Continues.silent hnoop hflow
    apply rel_jumpIf hjump _ hlast
    apply Continues.flow hbody
    rw [hstop]
    apply hlast
  · rw [hend] at hflow
    rw [hlayout] at hnode
    simp only [holds_cons, holds_append, hstart, hstop] at hnode
    obtain ⟨hjump, hbody, hskip, hother, hnoop, -⟩ := hnode
    have hlast : Continues code stop flow := Continues.silent hnoop hflow
    apply rel_jumpIf hjump
    · apply Continues.flow hbody
      apply Continues.silent hskip hlast
    · apply Continues.flow hother
      rw [hstop]
      apply hlast

theorem rel_loop {counting : Option Counting} {cond : String} {body : Flow}
    (hinit : counting.bind Counting.init = none)
    (hnode : Holds code address (Node.layout address (.loop counting cond body)))
    (hflow : Continues code
      (address + (Node.layout address (.loop counting cond body)).length) flow) :
  Request.Rel (Continues code) (code.next address)
    (Flow.next (.loop counting cond body :: flow))
  := by
  -- where the jump back lands, the loop is to be run again
  have hloop : Continues code address (.loop counting cond body :: flow) := node hnode hflow
  obtain ⟨back, hback, hend, hlayout⟩ := Node.exists_layout_loop hinit address cond body
  rw [hend] at hflow
  rw [hlayout] at hnode
  simp only [holds_cons, holds_append, hback] at hnode
  obtain ⟨htest, hbody, hstep, hjump, hnoop, -⟩ := hnode
  rw [← Counting.layout_steps (address + 1 + (Flow.layout (address + 1) body).length)]
    at hstep hback
  have hflip : Polarity.onFalse = Polarity.onTrue.flip := rfl
  rw [hflip] at htest
  rw [Flow.next_loop hinit, List.append_assoc]
  apply rel_jumpIf htest
  · apply Continues.flow hbody
    apply Continues.flow hstep
    rw [hback]
    apply Continues.silent hjump hloop
  · apply Continues.silent hnoop hflow

/-- At a node, the code requests what the flow does. -/
theorem rel_node {node : Node} (hnode : Holds code address (node.layout address))
    (hflow : Continues code (address + (node.layout address).length) flow) :
  Request.Rel (Continues code) (code.next address) (Flow.next (node :: flow))
  := by
  cases node with
  | action text =>
      rw [Node.layout] at hnode hflow
      rw [hnode.1]
      apply Request.Rel.perform text hflow
  | suspend =>
      rw [Node.layout] at hnode hflow
      rw [hnode.1]
      apply Request.Rel.suspend hflow
  | branch polarity cond body otherwise => apply rel_branch hnode hflow
  | loop counting cond body =>
      cases hinit : counting.bind Counting.init with
      | none => apply rel_loop hinit hnode hflow
      | some init =>
          obtain ⟨step, rfl⟩ := Counting.exists_eq_of_init hinit
          rw [Node.layout_loop_init] at hnode hflow
          rw [hnode.1]
          apply Request.Rel.perform init
          apply node hnode.2
          apply hflow.of_eq
          rw [List.length_cons]
          omega

/-- Whatever flow is left at an address of the code, the code requests what the flow does. -/
theorem isSimulation (code : Code) :
  Process.IsSimulation code.next Flow.next (Continues code)
  := by
  intro address flow h
  induction h with
  | stop =>
      use code.length, .refl
      rw [next_length]
      apply Request.Rel.finish
  | silent hsilent _ ih =>
      obtain ⟨address', hsilently, hrel⟩ := ih
      use address', .head hsilent hsilently, hrel
  | @flow address flow rest hholds hrest ih =>
      cases flow with
      | nil => apply ih
      | cons node flow =>
          rw [Flow.layout, holds_append] at hholds
          rw [Flow.layout, List.length_append, ← Nat.add_assoc] at hrest
          use address, .refl
          apply rel_node hholds.1
          apply Continues.flow hholds.2 hrest

end Continues

end Code

namespace Flow

open Code

/-- The code of a flow behaves like the flow. -/
theorem alike_code (flow : Flow) :
  Process.Alike.{0, 0, u} flow.code.next Flow.next 0 flow
  := by
  apply (Continues.isSimulation flow.code).alike
  have hstop : Continues flow.code (0 + (flow.layout 0).length) [] := by
    rw [Nat.zero_add, ← length_ofOps]
    apply Continues.stop
  have h := Continues.flow (holds_ofOps (flow.layout 0)) hstop
  rw [List.append_nil] at h
  apply h

end Flow

end Resumable
