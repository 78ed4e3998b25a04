import Resumable.Code.Emission
import Resumable.Proofs.Flow.Walk

/-!
# Laid out code

`Flow.layout` lays the nodes of a flow out as operations, one after the other. A branch becomes
a jump over its body, and a loop a test in front of its body and a jump back to that test; both
end with an operation that does nothing, on which the jumps out of them land. Every operation
is laid out from a known address on, so that jumps are written with their final targets.
`Flow.code` is the code of a flow.

A branch or a loop is taken apart into its pieces by `Node.layout_branch_cases` and
`Node.exists_layout_loop`, which name the addresses where the pieces begin and end. Jumps of laid
out code stay within it, so the code of a flow is well numbered (`Flow.wellNumbered_code`).
-/

namespace Resumable

mutual
/-- The operations of a node, the first one at address `origin`. -/
def Node.layout (origin : Nat) : Node → List Op
  | .action text => [.action text]
  | .suspend => [.suspend]
  | .branch polarity cond body otherwise =>
    let first := Flow.layout (origin + 1) body
    if otherwise.isEmpty then
      .jumpIf cond polarity.flip (origin + first.length + 1) :: first ++ [.noop]
    else
      let start := origin + first.length + 2
      let second := Flow.layout start otherwise
      .jumpIf cond polarity.flip start :: first
        ++ .jump (start + second.length) :: second ++ [.noop]
  | .loop counting cond body =>
    let init := Counting.initOps counting
    let step := Counting.stepOps counting
    let test := origin + init.length
    let inner := Flow.layout (test + 1) body
    init ++ .jumpIf cond .onFalse (test + inner.length + step.length + 2) :: inner
      ++ step ++ [.jump test, .noop]

/-- The operations of a flow, the first one at address `origin`. -/
def Flow.layout (origin : Nat) : Flow → List Op
  | [] => []
  | node :: rest =>
    let first := node.layout origin
    first ++ Flow.layout (origin + first.length) rest
end

/-- The code of a flow, laid out from address 0 on. -/
def Flow.code (flow : Flow) : Code :=
  Code.ofOps (flow.layout 0)

/-! ### Operations of a node -/

theorem Counting.initOps_of_init {counting : Option Counting}
    (h : counting.bind Counting.init = none) :
  initOps counting = []
  := by
  cases counting with
  | none => rfl
  | some counting =>
      obtain ⟨init, step⟩ := counting
      cases init with
      | none => rfl
      | some init => cases h

namespace Node

variable {origin start stop : Nat} {polarity : Polarity} {cond : String} {body otherwise : Flow}

theorem layout_branch_nil (hstop : origin + 1 + (Flow.layout (origin + 1) body).length = stop) :
  layout origin (.branch polarity cond body [])
    = .jumpIf cond polarity.flip stop :: (Flow.layout (origin + 1) body ++ [.noop])
  := by
  rw [layout, ← hstop, Nat.add_right_comm]
  rfl

theorem layout_branch_of_ne_nil (h : otherwise ≠ [])
    (hstart : origin + 1 + (Flow.layout (origin + 1) body).length + 1 = start)
    (hstop : start + (Flow.layout start otherwise).length = stop) :
  layout origin (.branch polarity cond body otherwise)
    = .jumpIf cond polarity.flip start :: (Flow.layout (origin + 1) body
      ++ .jump stop :: (Flow.layout start otherwise ++ [.noop]))
  := by
  have hempty : ¬ otherwise.isEmpty = true := fun hempty => h (List.isEmpty_iff.mp hempty)
  have hstart' : origin + (Flow.layout (origin + 1) body).length + 2 = start := by omega
  rw [layout, if_neg hempty]
  dsimp only
  rw [hstart', hstop, List.append_assoc]
  rfl

/-- The pieces of a branch. If it has one arm, the test leads over it to the end of the branch, at
`stop`. If it has two, the test leads to the second one, from `start` on, and the jump behind the
first one leads to the end. -/
theorem layout_branch_cases (origin : Nat) (polarity : Polarity) (cond : String)
    (body otherwise : Flow) :
  (otherwise = [] ∧ ∃ stop, origin + 1 + (Flow.layout (origin + 1) body).length = stop
    ∧ origin + (layout origin (.branch polarity cond body otherwise)).length = stop + 1
    ∧ layout origin (.branch polarity cond body otherwise)
      = .jumpIf cond polarity.flip stop :: (Flow.layout (origin + 1) body ++ [.noop]))
  ∨ (otherwise ≠ [] ∧ ∃ start stop,
    origin + 1 + (Flow.layout (origin + 1) body).length + 1 = start
    ∧ start + (Flow.layout start otherwise).length = stop
    ∧ origin + (layout origin (.branch polarity cond body otherwise)).length = stop + 1
    ∧ layout origin (.branch polarity cond body otherwise)
      = .jumpIf cond polarity.flip start :: (Flow.layout (origin + 1) body
        ++ .jump stop :: (Flow.layout start otherwise ++ [.noop])))
  := by
  by_cases h : otherwise = []
  · subst h
    refine .inl ⟨rfl, _, rfl, ?_, layout_branch_nil rfl⟩
    rw [layout_branch_nil rfl, List.length_cons, List.length_append, List.length_singleton]
    omega
  · refine .inr ⟨h, _, _, rfl, rfl, ?_, layout_branch_of_ne_nil h rfl rfl⟩
    rw [layout_branch_of_ne_nil h rfl rfl]
    simp only [List.length_cons, List.length_append, List.length_nil]
    omega

/-- A loop that is counted from an action on is that action and the loop without it. -/
theorem layout_loop_init {init step : String} :
  layout origin (.loop (some ⟨some init, step⟩) cond body)
    = .action init :: layout (origin + 1) (.loop (some ⟨none, step⟩) cond body)
  := by
  rw [layout, layout]
  rfl

/-- The pieces of a loop. The jump at `back` leads to the test again, and the test behind it. -/
theorem exists_layout_loop {counting : Option Counting} (h : counting.bind Counting.init = none)
    (origin : Nat) (cond : String) (body : Flow) :
  ∃ back, origin + 1 + (Flow.layout (origin + 1) body).length + (Counting.stepOps counting).length
      = back
    ∧ origin + (layout origin (.loop counting cond body)).length = back + 2
    ∧ layout origin (.loop counting cond body)
      = .jumpIf cond .onFalse (back + 1)
        :: (Flow.layout (origin + 1) body ++ (Counting.stepOps counting ++ [.jump origin, .noop]))
  := by
  have hlayout : layout origin (.loop counting cond body)
      = .jumpIf cond .onFalse (origin + 1 + (Flow.layout (origin + 1) body).length
          + (Counting.stepOps counting).length + 1)
        :: (Flow.layout (origin + 1) body
          ++ (Counting.stepOps counting ++ [.jump origin, .noop])) := by
    rw [layout, Counting.initOps_of_init h, List.append_assoc]
    simp +arith
  refine ⟨_, rfl, ?_, hlayout⟩
  rw [hlayout]
  simp only [List.length_cons, List.length_append, List.length_nil]
  omega

end Node

namespace Code

/-! ### Code of operations -/

theorem getElem?_ofOps (ops : List Op) (position : Nat) :
  (ofOps ops)[position]? = ops[position]?.map (⟨position, ·, true⟩)
  := by
  rw [ofOps, List.getElem?_mapIdx]

theorem length_ofOps (ops : List Op) :
  (ofOps ops).length = ops.length
  := by
  rw [ofOps, List.length_mapIdx]

/-! ### Jumps within laid out code -/

/-- The operations jump to addresses below the bound only. -/
def TargetsBelow (bound : Nat) (ops : List Op) : Prop :=
  ∀ op ∈ ops, ∀ target ∈ op.target?, target < bound

section TargetsBelow

variable {bound bound' : Nat} {ops ops' : List Op} {op : Op}

@[simp]
theorem targetsBelow_nil :
  TargetsBelow bound []
  := by
  simp [TargetsBelow]

@[simp]
theorem targetsBelow_cons :
  TargetsBelow bound (op :: ops)
    ↔ (∀ target ∈ op.target?, target < bound) ∧ TargetsBelow bound ops
  := by
  simp [TargetsBelow]

@[simp]
theorem targetsBelow_append :
  TargetsBelow bound (ops ++ ops') ↔ TargetsBelow bound ops ∧ TargetsBelow bound ops'
  := by
  simp only [TargetsBelow, List.forall_mem_append]

theorem TargetsBelow.mono (h : TargetsBelow bound ops) (hle : bound ≤ bound') :
  TargetsBelow bound' ops
  := by
  intro op hop target htarget
  apply Nat.lt_of_lt_of_le (h op hop target htarget) hle

theorem wellNumbered_ofOps (h : TargetsBelow ops.length ops) :
  (ofOps ops).WellNumbered
  := by
  intro position instr hinstr
  rw [getElem?_ofOps] at hinstr
  obtain ⟨op, hop, rfl⟩ := Option.map_eq_some_iff.mp hinstr
  rw [length_ofOps]
  exact ⟨rfl, h op (List.mem_of_getElem? hop)⟩

end TargetsBelow

end Code

namespace Flow

open Code

theorem targetsBelow_layout_cons {node : Node} {rest : Flow} {origin : Nat}
    (hnode : TargetsBelow (origin + (node.layout origin).length) (node.layout origin))
    (hrest : ∀ origin, TargetsBelow (origin + (layout origin rest).length) (layout origin rest)) :
  TargetsBelow (origin + (layout origin (node :: rest)).length) (layout origin (node :: rest))
  := by
  rw [layout, List.length_append, ← Nat.add_assoc]
  apply targetsBelow_append.mpr
  constructor
  · apply hnode.mono
    omega
  · apply hrest

theorem targetsBelow_stepOps {bound : Nat} (counting : Option Counting) :
  TargetsBelow bound (Counting.stepOps counting)
  := by
  cases counting with
  | none => apply targetsBelow_nil
  | some counting => simp [Counting.stepOps, Op.target?]

theorem targetsBelow_layout_branch {polarity : Polarity} {cond : String} {body otherwise : Flow}
    {origin : Nat}
    (hbody : ∀ origin, TargetsBelow (origin + (layout origin body).length) (layout origin body))
    (hotherwise : ∀ origin,
      TargetsBelow (origin + (layout origin otherwise).length) (layout origin otherwise)) :
  TargetsBelow (origin + (Node.layout origin (.branch polarity cond body otherwise)).length)
    (Node.layout origin (.branch polarity cond body otherwise))
  := by
  have hfirst := hbody (origin + 1)
  obtain ⟨-, stop, hstop, hend, hlayout⟩ | ⟨-, start, stop, hstart, hstop, hend, hlayout⟩ :=
    Node.layout_branch_cases origin polarity cond body otherwise
  · rw [hend, hlayout]
    simp only [targetsBelow_cons, targetsBelow_append, Op.target?]
    refine ⟨?_, hfirst.mono (by omega), ?_, targetsBelow_nil⟩
    · rintro _ ⟨⟩
      omega
    · rintro _ ⟨⟩
  · have hsecond := hotherwise start
    rw [hend, hlayout]
    simp only [targetsBelow_cons, targetsBelow_append, Op.target?]
    refine ⟨?_, hfirst.mono (by omega), ?_, hsecond.mono (by omega), ?_, targetsBelow_nil⟩
    · rintro _ ⟨⟩
      omega
    · rintro _ ⟨⟩
      omega
    · rintro _ ⟨⟩

theorem targetsBelow_layout_loop {counting : Option Counting} {cond : String} {body : Flow}
    {origin : Nat} (hinit : counting.bind Counting.init = none)
    (hbody : ∀ origin, TargetsBelow (origin + (layout origin body).length) (layout origin body)) :
  TargetsBelow (origin + (Node.layout origin (.loop counting cond body)).length)
    (Node.layout origin (.loop counting cond body))
  := by
  have hinner := hbody (origin + 1)
  obtain ⟨back, hback, hend, hlayout⟩ := Node.exists_layout_loop hinit origin cond body
  rw [hend, hlayout]
  simp only [targetsBelow_cons, targetsBelow_append, Op.target?]
  refine ⟨?_, hinner.mono (by omega), targetsBelow_stepOps counting, ?_, ?_, targetsBelow_nil⟩
  · rintro _ ⟨⟩
    omega
  · rintro _ ⟨⟩
    omega
  · rintro _ ⟨⟩

/-- The jumps of a flow that is laid out lead to the operations of the flow. -/
theorem targetsBelow_layout (flow : Flow) (origin : Nat) :
  TargetsBelow (origin + (flow.layout origin).length) (flow.layout origin)
  := by
  induction flow using Flow.induction generalizing origin with
  | nil => apply targetsBelow_nil
  | action text rest hrest =>
      apply targetsBelow_layout_cons _ hrest
      simp [Node.layout, Op.target?]
  | suspend rest hrest =>
      apply targetsBelow_layout_cons _ hrest
      simp [Node.layout, Op.target?]
  | branch polarity cond body otherwise rest hbody hotherwise hrest =>
      apply targetsBelow_layout_cons _ hrest
      apply targetsBelow_layout_branch hbody hotherwise
  | loop counting cond body rest hbody hrest =>
      apply targetsBelow_layout_cons _ hrest
      cases hinit : counting.bind Counting.init with
      | none => apply targetsBelow_layout_loop hinit hbody
      | some init =>
          obtain ⟨step, rfl⟩ := Counting.exists_eq_of_init hinit
          rw [Node.layout_loop_init, List.length_cons]
          apply targetsBelow_cons.mpr
          constructor
          · rintro _ ⟨⟩
          · apply (targetsBelow_layout_loop rfl hbody).mono
            omega

theorem layout_singleton (origin : Nat) (node : Node) :
  layout origin [node] = node.layout origin
  := by
  rw [layout, layout, List.append_nil]

theorem wellNumbered_code (flow : Flow) :
  flow.code.WellNumbered
  := by
  apply wellNumbered_ofOps
  have h := flow.targetsBelow_layout 0
  rw [Nat.zero_add] at h
  apply h

end Flow

end Resumable
