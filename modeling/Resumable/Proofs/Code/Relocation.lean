import Resumable.Proofs.Code.Emission

/-!
# Relocation of code

The code of a flow can be put together from the codes of its parts. `Code.relocate` moves code to
where it is put: it adds a distance to all addresses in it. Laying a flow out further on does just
that to its code (`Flow.layout_add`), so the code of two flows in a row is the code of the first one
and the relocated code of the second one (`Flow.code_append`), and the codes of branches and loops
are their own instructions around the relocated codes of their arms.

A flow is well formed if its nodes are (`Flow.wellFormed_iff`), so all of this holds for what flows
are linearized to.
-/

namespace Resumable

/-- The operation with `distance` added to the address that it jumps to. -/
def Op.relocate (distance : Nat) : Op → Op
  | .jumpIf cond polarity target => .jumpIf cond polarity (target + distance)
  | .jump target => .jump (target + distance)
  | .action text => .action text
  | .suspend => .suspend
  | .noop => .noop

/-- The instruction with `distance` added to its addresses. -/
def Instr.relocate (distance : Nat) (instr : Instr) : Instr :=
  { instr with address := instr.address + distance, op := instr.op.relocate distance }

/-- The code with `distance` added to all addresses. -/
def Code.relocate (distance : Nat) (code : Code) : Code :=
  code.map (Instr.relocate distance)

/-- The polarities of a branch and of the test that skips its body. -/
inductive Polarity.Skips : Polarity → Polarity → Prop where
  | onTrue : Skips .onTrue .onFalse
  | onFalse : Skips .onFalse .onTrue

/-- The codes of the actions of a loop: the one in front of its first test and the one at the end of
each round. -/
inductive Counting.Parts : Option Counting → Code → Code → Prop where
  | uncounted : Parts none [] []
  | step (step : String) : Parts (some ⟨none, step⟩) [] [⟨0, .action step, true⟩]
  | initStep (init step : String) :
      Parts (some ⟨some init, step⟩) [⟨0, .action init, true⟩] [⟨0, .action step, true⟩]

namespace Code

/-- The operations as code from `origin` on, with every address written. -/
def ofOpsFrom (origin : Nat) (ops : List Op) : Code :=
  ops.mapIdx fun i op => ⟨origin + i, op, true⟩

theorem ofOpsFrom_zero (ops : List Op) :
  ofOpsFrom 0 ops = ofOps ops
  := by
  simp only [ofOpsFrom, Nat.zero_add, ofOps]

theorem ofOpsFrom_nil (origin : Nat) :
  ofOpsFrom origin [] = []
  := rfl

theorem ofOpsFrom_append (origin : Nat) (ops ops' : List Op) :
  ofOpsFrom origin (ops ++ ops') = ofOpsFrom origin ops ++ ofOpsFrom (origin + ops.length) ops'
  := by
  simp only [ofOpsFrom, List.mapIdx_append, Nat.add_assoc, Nat.add_comm ops.length]

theorem ofOpsFrom_cons (origin : Nat) (op : Op) (ops : List Op) :
  ofOpsFrom origin (op :: ops) = ⟨origin, op, true⟩ :: ofOpsFrom (origin + 1) ops
  := ofOpsFrom_append origin [op] ops

/-- Operations whose jumps are moved along are relocated. -/
theorem ofOpsFrom_relocate (origin : Nat) (ops : List Op) :
  ofOpsFrom origin (ops.map (Op.relocate origin)) = (ofOps ops).relocate origin
  := by
  apply List.ext_getElem?
  intro i
  rw [relocate, List.getElem?_map, getElem?_ofOps, ofOpsFrom, List.getElem?_mapIdx,
    List.getElem?_map, Option.map_map, Option.map_map, Nat.add_comm origin i]
  rfl

theorem map_op_ofOps (ops : List Op) :
  (ofOps ops).map Instr.op = ops
  := by
  apply List.ext_getElem?
  intro i
  rw [List.getElem?_map, getElem?_ofOps, Option.map_map]
  apply congrFun Option.map_id

end Code

theorem Polarity.Skips.flip_eq {polarity skip : Polarity} (h : polarity.Skips skip) :
  polarity.flip = skip
  := by
  cases h with
  | onTrue => rfl
  | onFalse => rfl

theorem Counting.Parts.ofOps_eq {counting : Option Counting} {init step : Code}
    (h : Parts counting init step) :
  Code.ofOps (initOps counting) = init ∧ Code.ofOps (stepOps counting) = step
  := by
  cases h with
  | uncounted => exact ⟨rfl, rfl⟩
  | step step => exact ⟨rfl, rfl⟩
  | initStep init step => exact ⟨rfl, rfl⟩

namespace Flow

variable {flow flow' : Flow} {polarity : Polarity} {cond : String} {body otherwise : Flow}
  {counting : Option Counting}

/-! ### Defects of parts -/

/-- Where a node is does not matter to its defects. -/
theorem findings_node_eq_nil_iff (node : Node) (position : Nat) :
  node.findings position = [] ↔ WellFormed [node]
  := by
  rw [WellFormed, findings, findingsFrom, findingsFrom, List.append_nil]
  cases node <;> simp [Node.findings, Node.ownFindings]

theorem findingsFrom_eq_nil_iff (flow : Flow) (position : Nat) :
  flow.findingsFrom position = [] ↔ ∀ node ∈ flow, WellFormed [node]
  := by
  induction flow generalizing position with
  | nil => simp [findingsFrom]
  | cons node rest ih =>
      rw [findingsFrom, List.append_eq_nil_iff, findings_node_eq_nil_iff, ih, List.forall_mem_cons]

/-- A flow is well formed just if each of its nodes is. -/
theorem wellFormed_iff (flow : Flow) :
  flow.WellFormed ↔ ∀ node ∈ flow, WellFormed [node]
  := flow.findingsFrom_eq_nil_iff 0

theorem wellFormed_append :
  WellFormed (flow ++ flow') ↔ flow.WellFormed ∧ flow'.WellFormed
  := by
  rw [wellFormed_iff (flow ++ flow'), wellFormed_iff flow, wellFormed_iff flow',
    List.forall_mem_append]

theorem WellFormed.of_branch (h : WellFormed [.branch polarity cond body otherwise]) :
  body.WellFormed ∧ otherwise.WellFormed
  := by
  simp only [WellFormed, findings, findingsFrom, Node.findings, List.append_nil,
    List.append_eq_nil_iff, List.map_eq_nil_iff] at h
  exact ⟨h.1.2, h.2⟩

theorem WellFormed.of_loop (h : WellFormed [.loop counting cond body]) :
  body.WellFormed
  := by
  simp only [WellFormed, findings, findingsFrom, Node.findings, List.append_nil,
    List.append_eq_nil_iff, List.map_eq_nil_iff] at h
  apply h.2

/-! ### Layout of parts -/

theorem layout_append (origin : Nat) (flow flow' : Flow) :
  layout origin (flow ++ flow')
    = layout origin flow ++ layout (origin + (layout origin flow).length) flow'
  := by
  induction flow generalizing origin with
  | nil => rw [List.nil_append, layout, List.nil_append, List.length_nil, Nat.add_zero]
  | cons node rest ih =>
      rw [List.cons_append, layout, layout, ih, List.length_append, List.append_assoc,
        Nat.add_assoc]

variable {distance : Nat}

theorem relocate_stepOps (distance : Nat) (counting : Option Counting) :
  (Counting.stepOps counting).map (Op.relocate distance) = Counting.stepOps counting
  := by
  cases counting with
  | none => rfl
  | some counting => rfl

theorem layout_add_cons {node : Node} {rest : Flow} {origin : Nat}
    (hnode : node.layout (origin + distance)
      = (node.layout origin).map (Op.relocate distance))
    (hrest : ∀ origin, layout (origin + distance) rest
      = (layout origin rest).map (Op.relocate distance)) :
  layout (origin + distance) (node :: rest)
    = (layout origin (node :: rest)).map (Op.relocate distance)
  := by
  rw [layout, layout, hnode, List.length_map, Nat.add_right_comm, hrest, List.map_append]

theorem layout_add_branch {origin : Nat}
    (hbody : ∀ origin, layout (origin + distance) body
      = (layout origin body).map (Op.relocate distance))
    (hotherwise : ∀ origin, layout (origin + distance) otherwise
      = (layout origin otherwise).map (Op.relocate distance)) :
  Node.layout (origin + distance) (.branch polarity cond body otherwise)
    = (Node.layout origin (.branch polarity cond body otherwise)).map
        (Op.relocate distance)
  := by
  have hfirst : layout (origin + distance + 1) body
      = (layout (origin + 1) body).map (Op.relocate distance) := by
    rw [Nat.add_right_comm, hbody]
  obtain ⟨rfl, stop, hstop, -, hlayout⟩ | ⟨hne, start, stop, hstart, hstop, -, hlayout⟩ :=
    Node.layout_branch_cases origin polarity cond body otherwise
  · have hstop' : origin + distance + 1 + (layout (origin + distance + 1) body).length
        = stop + distance := by
      rw [hfirst, List.length_map]
      omega
    rw [hlayout, Node.layout_branch_nil hstop', hfirst]
    simp [Op.relocate]
  · have hstart' : origin + distance + 1 + (layout (origin + distance + 1) body).length + 1
        = start + distance := by
      rw [hfirst, List.length_map]
      omega
    have hstop' : start + distance + (layout (start + distance) otherwise).length
        = stop + distance := by
      rw [hotherwise, List.length_map]
      omega
    rw [hlayout, Node.layout_branch_of_ne_nil hne hstart' hstop', hfirst, hotherwise]
    simp [Op.relocate]

theorem layout_add_loop {origin : Nat} (hinit : counting.bind Counting.init = none)
    (hbody : ∀ origin, layout (origin + distance) body
      = (layout origin body).map (Op.relocate distance)) :
  Node.layout (origin + distance) (.loop counting cond body)
    = (Node.layout origin (.loop counting cond body)).map (Op.relocate distance)
  := by
  have hinner : layout (origin + distance + 1) body
      = (layout (origin + 1) body).map (Op.relocate distance) := by
    rw [Nat.add_right_comm, hbody]
  obtain ⟨back, hback, -, hlayout⟩ := Node.exists_layout_loop hinit origin cond body
  obtain ⟨back', hback', -, hlayout'⟩ :=
    Node.exists_layout_loop hinit (origin + distance) cond body
  rw [hinner, List.length_map] at hback'
  obtain rfl : back' = back + distance := by omega
  rw [hlayout, hlayout', hinner]
  simp [Op.relocate, Nat.add_right_comm, relocate_stepOps]

/-- A flow that is laid out further on has its jumps moved along. -/
theorem layout_add (flow : Flow) (origin distance : Nat) :
  layout (origin + distance) flow = (layout origin flow).map (Op.relocate distance)
  := by
  induction flow using Flow.induction generalizing origin with
  | nil => rfl
  | action text rest hrest => apply layout_add_cons rfl hrest
  | suspend rest hrest => apply layout_add_cons rfl hrest
  | branch polarity cond body otherwise rest hbody hotherwise hrest =>
      apply layout_add_cons _ hrest
      apply layout_add_branch hbody hotherwise
  | loop counting cond body rest hbody hrest =>
      apply layout_add_cons _ hrest
      cases hinit : counting.bind Counting.init with
      | none => apply layout_add_loop hinit hbody
      | some init =>
          obtain ⟨step, rfl⟩ := Counting.exists_eq_of_init hinit
          rw [Node.layout_loop_init, Node.layout_loop_init, Nat.add_right_comm,
            layout_add_loop rfl hbody, List.map_cons]
          rfl

/-! ### Code of parts -/

open Code

theorem length_layout (flow : Flow) (origin : Nat) :
  (layout origin flow).length = flow.code.length
  := by
  rw [code, length_ofOps, ← Nat.zero_add origin, layout_add, List.length_map]

/-- A flow that is laid out further on has its code relocated. -/
theorem ofOpsFrom_layout (origin : Nat) (flow : Flow) :
  ofOpsFrom origin (layout origin flow) = flow.code.relocate origin
  := by
  have hlayout := layout_add flow 0 origin
  rw [Nat.zero_add] at hlayout
  rw [hlayout, ofOpsFrom_relocate, code]

theorem code_append (flow flow' : Flow) :
  code (flow ++ flow') = flow.code ++ flow'.code.relocate flow.code.length
  := by
  rw [code, layout_append, ← ofOpsFrom_zero, ofOpsFrom_append, ofOpsFrom_zero, length_layout,
    ofOpsFrom_layout, Nat.zero_add, code]

theorem code_singleton (node : Node) :
  code [node] = ofOpsFrom 0 (node.layout 0)
  := by
  rw [code, layout_singleton, ofOpsFrom_zero]

/-- The test of a branch with one arm leads behind the code of the arm. -/
theorem code_branch_nil {skip : Polarity} (hskip : polarity.Skips skip) :
  code [.branch polarity cond body []]
    = ⟨0, .jumpIf cond skip (1 + body.code.length), true⟩
      :: body.code.relocate 1 ++ [⟨1 + body.code.length, .noop, true⟩]
  := by
  have hstop : 0 + 1 + (layout (0 + 1) body).length = 1 + body.code.length := by
    rw [length_layout]
  rw [code_singleton, Node.layout_branch_nil hstop, hskip.flip_eq]
  simp only [ofOpsFrom_cons, ofOpsFrom_append, ofOpsFrom_nil, ofOpsFrom_layout, length_layout,
    Nat.zero_add, List.cons_append]

/-- The test of a branch with two arms leads to the code of the second one, and a jump behind the
code of the first one leads behind it. -/
theorem code_branch_of_ne_nil {skip : Polarity} (hskip : polarity.Skips skip)
    (h : otherwise ≠ []) :
  code [.branch polarity cond body otherwise]
    = ⟨0, .jumpIf cond skip (2 + body.code.length), true⟩
      :: body.code.relocate 1
      ++ ⟨1 + body.code.length, .jump (2 + body.code.length + otherwise.code.length), true⟩
      :: otherwise.code.relocate (2 + body.code.length)
      ++ [⟨2 + body.code.length + otherwise.code.length, .noop, true⟩]
  := by
  have hjump : 1 + body.code.length + 1 = 2 + body.code.length := by omega
  have hstart : 0 + 1 + (layout (0 + 1) body).length + 1 = 2 + body.code.length := by
    rw [length_layout, Nat.zero_add, hjump]
  have hstop : 2 + body.code.length + (layout (2 + body.code.length) otherwise).length
      = 2 + body.code.length + otherwise.code.length := by
    rw [length_layout]
  rw [code_singleton, Node.layout_branch_of_ne_nil h hstart hstop, hskip.flip_eq]
  simp only [ofOpsFrom_cons, ofOpsFrom_append, ofOpsFrom_nil, ofOpsFrom_layout, length_layout,
    Nat.zero_add, hjump, List.cons_append, List.append_assoc]

/-- The test of a loop leads behind a jump back to it. -/
theorem code_loop {init step : Code} (h : Counting.Parts counting init step) :
  code [.loop counting cond body]
    = init
      ++ ⟨init.length,
          .jumpIf cond .onFalse (init.length + body.code.length + step.length + 2), true⟩
      :: body.code.relocate (init.length + 1)
      ++ step.relocate (init.length + body.code.length + 1)
      ++ [⟨init.length + body.code.length + step.length + 1, .jump init.length, true⟩,
        ⟨init.length + body.code.length + step.length + 2, .noop, true⟩]
  := by
  obtain ⟨hinit, hstep⟩ := h.ofOps_eq
  have hinit' : (Counting.initOps counting).length = init.length := by rw [← hinit, length_ofOps]
  have hstep' : (Counting.stepOps counting).length = step.length := by rw [← hstep, length_ofOps]
  have hsteps (origin : Nat) :
      ofOpsFrom origin (Counting.stepOps counting) = step.relocate origin := by
    rw [← hstep, ← ofOpsFrom_relocate, relocate_stepOps]
  have hround : init.length + 1 + body.code.length = init.length + body.code.length + 1 := by omega
  have hback : init.length + body.code.length + 1 + step.length
      = init.length + body.code.length + step.length + 1 := by omega
  rw [code_singleton, Node.layout]
  simp only [ofOpsFrom_cons, ofOpsFrom_append, ofOpsFrom_nil, ofOpsFrom_layout, length_layout,
    Nat.zero_add, hinit', hstep', hsteps, hround, hback, ofOpsFrom_zero, hinit, List.cons_append,
    List.append_assoc]

/-! ### Linearization of parts -/

theorem linearize_append (h : flow.WellFormed) (h' : flow'.WellFormed) :
  ∃ code code', flow.linearize = .ok code ∧ flow'.linearize = .ok code'
    ∧ linearize (flow ++ flow') = .ok (code ++ code'.relocate code.length)
  := by
  use flow.code, flow'.code, linearize_eq h, linearize_eq h'
  rw [linearize_eq (wellFormed_append.mpr ⟨h, h'⟩), code_append]

/-- What a flow is linearized to is put together from what its parts are linearized to, each of
them relocated to where it comes. The code of a sequence is the codes of its parts one after the
other, and the codes of branches and loops are their own instructions around those of their arms.
In all of them the instructions are numbered in order and labelled. -/
theorem linearize_compositional :
  linearize [] = .ok []
  ∧ (∀ flow flow' : Flow, flow.WellFormed → flow'.WellFormed →
    ∃ code code', flow.linearize = .ok code ∧ flow'.linearize = .ok code'
      ∧ linearize (flow ++ flow') = .ok (code ++ code'.relocate code.length))
  ∧ (∀ text, WellFormed [.action text] →
    linearize [.action text] = .ok [⟨0, .action text, true⟩])
  ∧ linearize [.suspend] = .ok [⟨0, .suspend, true⟩]
  ∧ (∀ polarity skip cond (body : Flow), polarity.Skips skip →
    WellFormed [.branch polarity cond body []] →
    ∃ first, body.linearize = .ok first
      ∧ linearize [.branch polarity cond body []]
        = .ok (⟨0, .jumpIf cond skip (1 + first.length), true⟩
          :: first.relocate 1 ++ [⟨1 + first.length, .noop, true⟩]))
  ∧ (∀ polarity skip cond (body otherwise : Flow), polarity.Skips skip → otherwise ≠ [] →
    WellFormed [.branch polarity cond body otherwise] →
    ∃ first second, body.linearize = .ok first ∧ otherwise.linearize = .ok second
      ∧ linearize [.branch polarity cond body otherwise]
        = .ok (⟨0, .jumpIf cond skip (2 + first.length), true⟩
          :: first.relocate 1
          ++ ⟨1 + first.length, .jump (2 + first.length + second.length), true⟩
          :: second.relocate (2 + first.length)
          ++ [⟨2 + first.length + second.length, .noop, true⟩]))
  ∧ (∀ counting init step cond (body : Flow), Counting.Parts counting init step →
    WellFormed [.loop counting cond body] →
    ∃ inner, body.linearize = .ok inner
      ∧ linearize [.loop counting cond body]
        = .ok (init
          ++ ⟨init.length,
              .jumpIf cond .onFalse (init.length + inner.length + step.length + 2), true⟩
          :: inner.relocate (init.length + 1)
          ++ step.relocate (init.length + inner.length + 1)
          ++ [⟨init.length + inner.length + step.length + 1, .jump init.length, true⟩,
            ⟨init.length + inner.length + step.length + 2, .noop, true⟩]))
  ∧ ∀ flow : Flow, flow.WellFormed →
    ∃ code, flow.linearize = .ok code
      ∧ ∀ (i : Nat) (instr : Instr), code[i]? = some instr →
        instr.address = i ∧ instr.labelled = true
  := by
  refine ⟨rfl, fun _ _ => linearize_append, ?_, ?_, ?_, ?_, ?_, ?_⟩
  · intro text h
    rw [linearize_eq h]
    rfl
  · rfl
  · intro polarity skip cond body hskip h
    use body.code, linearize_eq h.of_branch.1
    rw [linearize_eq h, code_branch_nil hskip]
  · intro polarity skip cond body otherwise hskip hne h
    use body.code, otherwise.code, linearize_eq h.of_branch.1, linearize_eq h.of_branch.2
    rw [linearize_eq h, code_branch_of_ne_nil hskip hne]
  · intro counting init step cond body hparts h
    use body.code, linearize_eq h.of_loop
    rw [linearize_eq h, code_loop hparts]
  · intro flow h
    use flow.code, linearize_eq h
    intro i instr hinstr
    use (flow.wellNumbered_code i instr hinstr).1
    apply labelled_of_mem_code (List.mem_of_getElem? hinstr)

/-- A branch on true in a counted loop behind an action: the jumps of the branch are moved along
twice. -/
theorem linearize_compositional_counted :
  let branch : Flow := [.branch .onTrue "c" [.suspend] [.action "b"]]
  let loop : Flow := [.loop (some ⟨some "i = 0", "i += 1"⟩) "i < 2" branch]
  let flow : Flow := [.action "a"] ++ loop
  branch.WellFormed ∧ loop.WellFormed ∧ flow.WellFormed
    ∧ ∃ first second code, branch.linearize = .ok first ∧ loop.linearize = .ok second
      ∧ flow.linearize = .ok code
      ∧ first.map Instr.op = [.jumpIf "c" .onFalse 3, .suspend, .jump 4, .action "b", .noop]
      ∧ second.map Instr.op = [.action "i = 0", .jumpIf "i < 2" .onFalse 9,
        .jumpIf "c" .onFalse 5, .suspend, .jump 6, .action "b", .noop, .action "i += 1", .jump 1,
        .noop]
      ∧ code.map Instr.op = [.action "a", .action "i = 0", .jumpIf "i < 2" .onFalse 10,
        .jumpIf "c" .onFalse 6, .suspend, .jump 7, .action "b", .noop, .action "i += 1", .jump 2,
        .noop]
      ∧ code.map Instr.address = List.range 11
  := by
  intro branch loop flow
  have haction : WellFormed [.action "a"] := by decide
  have hbranch : branch.WellFormed := by decide
  have hloop : loop.WellFormed := by decide
  obtain ⟨-, happend, hactions, hsuspend, -, hbranches, hloops, -⟩ := linearize_compositional
  obtain ⟨first, second, hfirst, hsecond, hcode⟩ :=
    hbranches .onTrue .onFalse "c" [.suspend] [.action "b"] .onTrue nofun hbranch
  cases hsuspend.symm.trans hfirst
  cases (hactions "b" (by decide)).symm.trans hsecond
  obtain ⟨inner, hinner, hcode'⟩ := hloops _ _ _ "i < 2" branch (.initStep "i = 0" "i += 1") hloop
  cases hcode.symm.trans hinner
  obtain ⟨before, after, hbefore, hafter, hboth⟩ := happend [.action "a"] loop haction hloop
  cases (hactions "a" haction).symm.trans hbefore
  cases hcode'.symm.trans hafter
  exact ⟨hbranch, hloop, wellFormed_append.mpr ⟨haction, hloop⟩, _, _, _, hcode, hcode', hboth,
    by decide, by decide, by decide, by decide⟩

end Flow

end Resumable
