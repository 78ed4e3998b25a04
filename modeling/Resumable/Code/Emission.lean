import Resumable.Fault

/-!
# Emission of code

The code of a flow is emitted from the front to the back: `Flow.emit` appends the instructions of
a flow to those that are there already. Where a jump forward leads to is not known yet when the
jump is emitted. It is emitted with a placeholder for its target, and patched when the address it
leads to has been reached. `Flow.linearize` is the code of a well formed flow.
-/

namespace Resumable

/-- Something that adds to the instructions which are there already. -/
abbrev Emitter := Array Instr → Except Fault (Array Instr)

namespace Emission

/-- The placeholder for a target that is not known yet. -/
def unpatched : Nat :=
  18446744073709551615

/-- Emits an operation at the next address. -/
def push (op : Op) (emitted : Array Instr) : Array Instr :=
  emitted.push ⟨emitted.size, op, true⟩

/-- Emits operations one after the other. -/
def pushAll (ops : List Op) (emitted : Array Instr) : Array Instr :=
  ops.foldl (fun emitted op => push op emitted) emitted

/-- Points the jump that was emitted at an address to `target`. -/
def patch (address target : Nat) : Emitter := fun emitted =>
  match emitted[address]? with
  | none => .error (.notEmitted address emitted.size)
  | some instr =>
    if instr.op.target?.isSome then
      .ok (emitted.setIfInBounds address { instr with op := instr.op.retarget fun _ => target })
    else .error (.notAJump address)

/-- Emits a branch. The test skips the body on `skip`: to `otherwise`, if there is one, and to the
end of the branch if not. -/
def branch (placeholder : Nat) (cond : String) (skip : Polarity) (body : Emitter)
    (otherwise : Option Emitter) : Emitter := fun emitted => do
  let test := emitted.size
  let emitted ← body (push (.jumpIf cond skip placeholder) emitted)
  match otherwise with
  | none => patch test emitted.size (push .noop emitted)
  | some otherwise =>
    let jump := emitted.size
    let emitted ← patch test (jump + 1) (push (.jump placeholder) emitted)
    let emitted ← otherwise emitted
    patch jump emitted.size (push .noop emitted)

/-- Emits a loop. The test leaves the loop when the condition does not hold, and the end of each
round leads back to it. -/
def loop (placeholder : Nat) (init : List Op) (cond : String) (step : List Op) (body : Emitter) :
    Emitter := fun emitted => do
  let emitted := pushAll init emitted
  let test := emitted.size
  let emitted ← body (push (.jumpIf cond .onFalse placeholder) emitted)
  let emitted := push (.jump test) (pushAll step emitted)
  patch test emitted.size (push .noop emitted)

end Emission

/-- The operation in front of the first test of a loop, if there is one. -/
def Counting.initOps : Option Counting → List Op
  | some ⟨some init, _⟩ => [.action init]
  | _ => []

/-- The operation at the end of each round of a loop, if there is one. -/
def Counting.stepOps : Option Counting → List Op
  | some ⟨_, step⟩ => [.action step]
  | none => []

mutual
/-- Emits the instructions of a node. -/
def Node.emit (placeholder : Nat) : Node → Emitter
  | .action text => fun emitted => .ok (Emission.push (.action text) emitted)
  | .suspend => fun emitted => .ok (Emission.push .suspend emitted)
  | .branch polarity cond body otherwise =>
    Emission.branch placeholder cond polarity.flip (Flow.emit placeholder body)
      (if otherwise.isEmpty then none else some (Flow.emit placeholder otherwise))
  | .loop counting cond body =>
    Emission.loop placeholder (Counting.initOps counting) cond (Counting.stepOps counting)
      (Flow.emit placeholder body)

/-- Emits the instructions of the nodes of a flow. -/
def Flow.emit (placeholder : Nat) : Flow → Emitter
  | [] => .ok
  | node :: rest => fun emitted => do
    let emitted ← node.emit placeholder emitted
    Flow.emit placeholder rest emitted
end

namespace Flow

/-- The instructions of a flow as they are emitted, from address 0 on. -/
def emission (placeholder : Nat) (flow : Flow) : Except Fault Code :=
  (flow.emit placeholder #[]).map Array.toList

/-- The code of a well formed flow. -/
def linearize (flow : Flow) : Except Fault Code :=
  match flow.findings with
  | [] => do
    let code ← flow.emission Emission.unpatched
    match code.fault? with
    | none => .ok code
    | some fault => .error fault
  | findings => .error (.malformed findings)

end Flow

end Resumable
