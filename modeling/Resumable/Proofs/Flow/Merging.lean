import Resumable.Proofs.Code.Relocation
import Resumable.Proofs.Code.Settling

/-!
# Ends of branches and loops

Branches and loops are laid out with an operation without effect at their end, on which jumps out of
them land, and there are no other operations without effect (`Flow.count_noop_layout`). A flow does
not start with one (`Flow.exists_layout_eq_cons`), so the jump over the second arm of a branch leads
over an operation that stays, and the code of a flow settles at once (`Flow.settlesAtOnce_code`).
What compression leaves of it are all instructions but those ends, up to the end of the flow itself.
-/

namespace Resumable

/-- Whether flows are nested in the node. -/
def Node.isCompound : Node → Bool
  | .branch _ _ _ _ | .loop _ _ _ => true
  | .action _ | .suspend => false

mutual
/-- The number of branches and loops in the node, with the node itself. -/
def Node.compounds : Node → Nat
  | .action _ => 0
  | .suspend => 0
  | .branch _ _ body otherwise => Flow.compounds body + Flow.compounds otherwise + 1
  | .loop _ _ body => Flow.compounds body + 1

/-- The number of branches and loops in the flow, at any depth. -/
def Flow.compounds : Flow → Nat
  | [] => 0
  | node :: rest => node.compounds + Flow.compounds rest
end

/-- Whether the flow ends with a branch or a loop. -/
def Flow.endsCompound (flow : Flow) : Bool :=
  flow.getLast?.any Node.isCompound

/-! ### Jumps forward -/

namespace Placement

variable {origin target : Nat} {op : Op} {ops ops' : List Op}

theorem leapsForward_nil (origin : Nat) :
  LeapsForward (fromOps origin [])
  := by
  intro i target hop
  cases hop

theorem LeapsForward.append (h : LeapsForward (fromOps origin ops))
    (h' : LeapsForward (fromOps (origin + ops.length) ops')) :
  LeapsForward (fromOps origin (ops ++ ops'))
  := by
  intro i target hop
  rcases fromOps_append.mp hop with hop | hop
  · apply (h i target hop).imp_right
    rintro ⟨hleap, next, hnext, hne⟩
    exact ⟨hleap, next, fromOps_append.mpr (.inl hnext), hne⟩
  · apply (h' i target hop).imp_right
    rintro ⟨hleap, next, hnext, hne⟩
    exact ⟨hleap, next, fromOps_append.mpr (.inr hnext), hne⟩

/-- An operation that is not a jump, or is one back, can come first. -/
theorem LeapsForward.cons (h : LeapsForward (fromOps (origin + 1) ops))
    (hop : ∀ target, op = .jump target → target ≤ origin) :
  LeapsForward (fromOps origin (op :: ops))
  := by
  intro i target hjump
  rcases fromOps_cons.mp hjump with ⟨heq, rfl⟩ | hjump
  · left
    apply hop target heq.symm
  · apply (h i target hjump).imp_right
    rintro ⟨hleap, next, hnext, hne⟩
    exact ⟨hleap, next, fromOps_cons.mpr (.inr hnext), hne⟩

theorem leapsForward_singleton (hop : ∀ target, op = .jump target → target ≤ origin) :
  LeapsForward (fromOps origin [op])
  := (leapsForward_nil _).cons hop

/-- A jump can come first if it leads over an operation that is not one without effect. -/
theorem LeapsForward.jump (h : LeapsForward (fromOps (origin + 1) (op :: ops))) (hne : op ≠ .noop)
    (hle : origin + 2 ≤ target) :
  LeapsForward (fromOps origin (.jump target :: op :: ops))
  := by
  intro i target' hjump
  rcases fromOps_cons.mp hjump with ⟨⟨⟩, rfl⟩ | hjump
  · right
    use hle, op
    exact ⟨fromOps_cons.mpr (.inr (fromOps_cons.mpr (.inl ⟨rfl, rfl⟩))), hne⟩
  · apply (h i target' hjump).imp_right
    rintro ⟨hleap, next, hnext, hne'⟩
    exact ⟨hleap, next, fromOps_cons.mpr (.inr hnext), hne'⟩

end Placement

/-! ### Operations of a node -/

namespace Node

/-- A node is laid out as an operation that is not one without effect, and maybe others. -/
theorem exists_layout_eq_cons (node : Node) (origin : Nat) :
  ∃ op ops, node.layout origin = op :: ops ∧ op ≠ .noop
  := by
  cases node with
  | action text => exact ⟨_, _, rfl, nofun⟩
  | suspend => exact ⟨_, _, rfl, nofun⟩
  | branch polarity cond body otherwise =>
      obtain ⟨-, stop, -, -, hlayout⟩ | ⟨-, start, stop, -, -, -, hlayout⟩ :=
        layout_branch_cases origin polarity cond body otherwise
      · exact ⟨_, _, hlayout, nofun⟩
      · exact ⟨_, _, hlayout, nofun⟩
  | loop counting cond body =>
      cases hinit : counting.bind Counting.init with
      | none =>
          obtain ⟨back, -, -, hlayout⟩ := exists_layout_loop hinit origin cond body
          exact ⟨_, _, hlayout, nofun⟩
      | some init =>
          obtain ⟨step, rfl⟩ := Counting.exists_eq_of_init hinit
          exact ⟨_, _, layout_loop_init, nofun⟩

/-- A branch or a loop ends with an operation without effect, on which one of its jumps lands. -/
theorem exists_layout_eq_concat_noop {node : Node} (h : node.isCompound = true) (origin : Nat) :
  ∃ ops, node.layout origin = ops ++ [.noop]
    ∧ ∃ op ∈ ops, op.target? = some (origin + ops.length)
  := by
  cases node with
  | action text => cases h
  | suspend => cases h
  | branch polarity cond body otherwise =>
      obtain ⟨-, stop, hstop, -, hlayout⟩ | ⟨-, start, stop, hstart, hstop, -, hlayout⟩ :=
        layout_branch_cases origin polarity cond body otherwise
      · rw [hlayout, ← List.cons_append]
        refine ⟨_, rfl, _, List.mem_cons_self, ?_⟩
        rw [Op.target?, ← hstop, List.length_cons, Nat.add_assoc, Nat.add_comm 1]
      · -- the test leads to the second arm, and the jump in front of it to the end
        rw [hlayout, ← List.cons_append, ← List.cons_append, ← List.append_assoc]
        refine ⟨_, rfl, _, List.mem_append_right _ List.mem_cons_self, ?_⟩
        rw [Op.target?, ← hstop, ← hstart]
        simp +arith
  | loop counting cond body =>
      rw [layout, List.append_cons _ _ [Op.noop]]
      refine ⟨_, rfl, _, List.mem_append_left _ (List.mem_append_left _
        (List.mem_append_right _ List.mem_cons_self)), ?_⟩
      simp +arith [Op.target?]

/-- Other nodes are laid out as one operation. -/
theorem exists_layout_eq_singleton {node : Node} (h : node.isCompound = false) (origin : Nat) :
  ∃ op, node.layout origin = [op] ∧ op ≠ .noop
  := by
  cases node with
  | action text => exact ⟨_, rfl, nofun⟩
  | suspend => exact ⟨_, rfl, nofun⟩
  | _ => cases h

end Node

namespace Flow

open Placement Code

variable {flow : Flow} {origin : Nat}

theorem exists_layout_eq_cons (h : flow ≠ []) (origin : Nat) :
  ∃ op ops, flow.layout origin = op :: ops ∧ op ≠ .noop
  := by
  obtain ⟨node, rest, rfl⟩ := List.exists_cons_of_ne_nil h
  obtain ⟨op, ops, hlayout, hne⟩ := node.exists_layout_eq_cons origin
  rw [layout, hlayout]
  exact ⟨op, _, rfl, hne⟩

/-! ### Number of ends -/

theorem count_noop_stepOps (counting : Option Counting) :
  (Counting.stepOps counting).count .noop = 0
  := by
  cases counting with
  | none => rfl
  | some counting => rfl

theorem count_noop_initOps (counting : Option Counting) :
  (Counting.initOps counting).count .noop = 0
  := by
  cases hinit : counting.bind Counting.init with
  | none => rw [Counting.initOps_of_init hinit, List.count_nil]
  | some init =>
      obtain ⟨step, rfl⟩ := Counting.exists_eq_of_init hinit
      rfl

/-- There is an operation without effect for each branch and each loop, and no other. -/
theorem count_noop_layout (flow : Flow) (origin : Nat) :
  (flow.layout origin).count .noop = flow.compounds
  := by
  induction flow using Flow.induction generalizing origin with
  | nil => rfl
  | action text rest hrest => simp [layout, Node.layout, compounds, Node.compounds, hrest]
  | suspend rest hrest => simp [layout, Node.layout, compounds, Node.compounds, hrest]
  | branch polarity cond body otherwise rest hbody hotherwise hrest =>
      obtain ⟨rfl, stop, -, -, hlayout⟩ | ⟨-, start, stop, -, -, -, hlayout⟩ :=
        Node.layout_branch_cases origin polarity cond body otherwise
      · simp +arith [layout, hlayout, compounds, Node.compounds, hbody, hrest]
      · simp +arith [layout, hlayout, compounds, Node.compounds, hbody, hotherwise, hrest]
  | loop counting cond body rest hbody hrest =>
      simp +arith [layout, Node.layout, compounds, Node.compounds, hbody, hrest,
        count_noop_stepOps, count_noop_initOps]

/-! ### The last operation -/

theorem exists_eq_concat (h : flow ≠ []) :
  ∃ init node, flow = init ++ [node] ∧ flow.endsCompound = node.isCompound
  := by
  obtain rfl | ⟨init, node, rfl⟩ := List.eq_nil_or_concat flow
  · contradiction
  · use init, node, List.concat_eq_append
    rw [endsCompound, List.concat_eq_append, List.getLast?_concat]
    rfl

/-- If a flow ends with a branch or a loop, then with an operation without effect that is jumped
to. -/
theorem exists_layout_eq_concat_noop (h : flow.endsCompound = true) (origin : Nat) :
  ∃ ops, flow.layout origin = ops ++ [.noop]
    ∧ ∃ op ∈ ops, op.target? = some (origin + ops.length)
  := by
  have hne : flow ≠ [] := by
    rintro rfl
    cases h
  obtain ⟨init, node, rfl, hends⟩ := exists_eq_concat hne
  rw [layout_append, layout_singleton]
  obtain ⟨ops, hlayout, op, hop, htarget⟩ := Node.exists_layout_eq_concat_noop (hends.symm.trans h)
    (origin + (layout origin init).length)
  rw [hlayout, ← List.append_assoc]
  refine ⟨_, rfl, op, List.mem_append_right _ hop, ?_⟩
  rw [htarget, List.length_append, Nat.add_assoc]

theorem noop_ne_getLast (h : flow.endsCompound = false) (origin : Nat) :
  (flow.layout origin).getLast? ≠ some .noop
  := by
  by_cases hempty : flow = []
  · rw [hempty, layout, List.getLast?_nil]
    intro hnone
    contradiction
  · obtain ⟨init, node, rfl, hends⟩ := exists_eq_concat hempty
    rw [layout_append, layout_singleton]
    obtain ⟨op, hlayout, hne⟩ := Node.exists_layout_eq_singleton (hends.symm.trans h)
      (origin + (layout origin init).length)
    rw [hlayout, List.getLast?_concat]
    intro heq
    apply hne (Option.some.inj heq)

/-! ### Jumps of a flow -/

theorem leapsForward_layout_cons {node : Node} {rest : Flow}
    (hnode : LeapsForward (fromOps origin (node.layout origin)))
    (hrest : ∀ origin, LeapsForward (fromOps origin (layout origin rest))) :
  LeapsForward (fromOps origin (layout origin (node :: rest)))
  := by
  rw [layout]
  apply hnode.append
  apply hrest

theorem leapsForward_layout_branch {polarity : Polarity} {cond : String} {body otherwise : Flow}
    (hbody : ∀ origin, LeapsForward (fromOps origin (layout origin body)))
    (hotherwise : ∀ origin, LeapsForward (fromOps origin (layout origin otherwise))) :
  LeapsForward (fromOps origin (Node.layout origin (.branch polarity cond body otherwise)))
  := by
  have hend : ∀ origin, LeapsForward (fromOps origin [.noop]) := fun _ =>
    leapsForward_singleton nofun
  obtain ⟨-, stop, -, -, hlayout⟩ | ⟨hempty, start, stop, hstart, hstop, -, hlayout⟩ :=
    Node.layout_branch_cases origin polarity cond body otherwise
  · rw [hlayout]
    apply ((hbody _).append (hend _)).cons
    nofun
  · obtain ⟨op, ops, hsecond, hne⟩ := exists_layout_eq_cons hempty start
    have harm := (hotherwise start).append (hend _)
    rw [hsecond, ← hstart] at harm
    rw [hsecond, List.length_cons] at hstop
    rw [hlayout, hsecond]
    apply ((hbody _).append (harm.jump hne _)).cons
    · nofun
    · omega

theorem leapsForward_layout_loop {counting : Option Counting} {cond : String} {body : Flow}
    (hinit : counting.bind Counting.init = none)
    (hbody : ∀ origin, LeapsForward (fromOps origin (layout origin body))) :
  LeapsForward (fromOps origin (Node.layout origin (.loop counting cond body)))
  := by
  have hback : ∀ address, origin ≤ address →
      LeapsForward (fromOps address [.jump origin, .noop]) := by
    intro address hle
    apply LeapsForward.cons (leapsForward_singleton _)
    · rintro _ ⟨⟩
      apply hle
    · nofun
  have hstep : ∀ address, LeapsForward (fromOps address (Counting.stepOps counting)) := by
    intro address
    cases counting with
    | none => apply leapsForward_nil
    | some counting =>
        apply leapsForward_singleton
        nofun
  obtain ⟨back, -, -, hlayout⟩ := Node.exists_layout_loop hinit origin cond body
  rw [hlayout]
  apply ((hbody _).append ((hstep _).append (hback _ _))).cons
  · nofun
  · omega

/-- The jumps of a flow lead back, or over the second arm of a branch. -/
theorem leapsForward_layout (flow : Flow) (origin : Nat) :
  LeapsForward (fromOps origin (flow.layout origin))
  := by
  induction flow using Flow.induction generalizing origin with
  | nil => apply leapsForward_nil
  | action text rest hrest =>
      apply leapsForward_layout_cons _ hrest
      apply leapsForward_singleton
      nofun
  | suspend rest hrest =>
      apply leapsForward_layout_cons _ hrest
      apply leapsForward_singleton
      nofun
  | branch polarity cond body otherwise rest hbody hotherwise hrest =>
      apply leapsForward_layout_cons _ hrest
      apply leapsForward_layout_branch hbody hotherwise
  | loop counting cond body rest hbody hrest =>
      apply leapsForward_layout_cons _ hrest
      cases hinit : counting.bind Counting.init with
      | none => apply leapsForward_layout_loop hinit hbody
      | some init =>
          obtain ⟨step, rfl⟩ := Counting.exists_eq_of_init hinit
          rw [Node.layout_loop_init]
          apply (leapsForward_layout_loop rfl hbody).cons
          nofun

/-! ### Compression of a flow -/

/-- An operation without effect is the last one of the code just if the flow ends with a branch or a
loop. -/
theorem placement_noop_last_iff (flow : Flow) :
  (∃ i, flow.code.placement i .noop ∧ i + 1 = flow.code.length) ↔ flow.endsCompound = true
  := by
  rw [placement_code, ← length_layout flow 0]
  constructor
  · rintro ⟨i, hnoop, hlast⟩
    by_contra hends
    apply noop_ne_getLast (Bool.eq_false_iff.mpr hends) 0
    rw [List.getLast?_eq_getElem?, ← hlast]
    apply List.mk_mem_zipIdx_iff_getElem?.mp hnoop
  · intro hends
    obtain ⟨ops, hlayout, -⟩ := exists_layout_eq_concat_noop hends 0
    rw [hlayout]
    use ops.length
    rw [fromOps_concat, List.length_append]
    exact ⟨.inr ⟨rfl, (Nat.zero_add _).symm⟩, rfl⟩

theorem settlesAtOnce_code (flow : Flow) :
  flow.code.SettlesAtOnce
  := by
  constructor
  · rw [placement_code]
    by_cases hempty : flow = []
    · rw [hempty, layout]
      apply List.not_mem_nil
    · obtain ⟨op, ops, hlayout, hne⟩ := exists_layout_eq_cons hempty 0
      rw [hlayout, fromOps_cons]
      rintro (⟨heq, -⟩ | hlater)
      · apply hne heq.symm
      · have := le_of_fromOps hlater
        omega
  · intro i hnoop hlast
    have hends := flow.placement_noop_last_iff.mp ⟨i, hnoop, hlast⟩
    obtain ⟨ops, hlayout, op, hop, htarget⟩ := exists_layout_eq_concat_noop hends 0
    obtain ⟨k, hk⟩ := exists_fromOps (List.mem_append_left [Op.noop] hop) 0
    rw [← length_layout flow 0, hlayout, List.length_append, List.length_singleton] at hlast
    rw [mem_jumpTargets_iff, placement_code, hlayout]
    use k, op, hk
    rw [htarget, Nat.zero_add, Nat.succ.inj hlast]
  · rw [placement_code]
    apply leapsForward_layout

/-- An end is left just if it is the end of the flow. -/
theorem placement_noop_compact_iff (flow : Flow) :
  (∃ i, flow.code.compact.placement i .noop) ↔ flow.endsCompound = true
  := by
  have h := flow.settlesAtOnce_code.renumbers_compact flow.wellNumbered_code
  rw [← placement_noop_last_iff]
  constructor
  · rintro ⟨j, hnoop⟩
    obtain ⟨i, op, hop, hstays, -, heq⟩ := h.exists_placement hnoop
    obtain rfl := Op.eq_noop_of_retarget heq.symm
    use i, hop, hstays hop
  · rintro ⟨i, hnoop, hlast⟩
    exact ⟨_, h.placement_place hnoop fun _ => hlast⟩

theorem not_placement_noop_zero_compact (flow : Flow) :
  ¬ flow.code.compact.placement 0 .noop
  := by
  have hsettles := flow.settlesAtOnce_code
  have h := hsettles.renumbers_compact flow.wellNumbered_code
  intro hnoop
  obtain ⟨i, op, hop, -, hzero, heq⟩ := h.exists_placement hnoop
  obtain rfl := Op.eq_noop_of_retarget heq.symm
  have hpos : 0 < i := by
    apply Nat.pos_of_ne_zero
    rintro rfl
    apply hsettles.entry hop
  -- the first instruction stays where it is, in front of the others
  have hlt := h.place_lt_place (fun hentry => absurd hentry hsettles.entry) hpos
    (Nat.le_of_lt (lt_length_of_placement hop))
  rw [← hzero] at hlt
  cases hlt

theorem length_compact_add_compounds (flow : Flow) :
  flow.code.compact.length + flow.compounds
    = flow.code.length + if flow.endsCompound then 1 else 0
  := by
  have hsettles := flow.settlesAtOnce_code
  have h := hsettles.renumbers_compact flow.wellNumbered_code
  have hcount : (flow.code.compact.map Instr.op).count .noop
      = if flow.endsCompound then 1 else 0 := by
    by_cases hends : flow.endsCompound = true
    · obtain ⟨i, hnoop⟩ := flow.placement_noop_compact_iff.mpr hends
      rw [if_pos hends]
      apply count_noop_of_last hnoop
      intro j hj
      apply (h.noop_of_stays hsettles hj).1
    · rw [if_neg hends, List.count_eq_zero]
      intro hmem
      obtain ⟨instr, hinstr, hop⟩ := List.mem_map.mp hmem
      obtain ⟨i, hi⟩ := List.mem_iff_getElem?.mp hinstr
      apply hends (flow.placement_noop_compact_iff.mp ⟨i, instr, hi, hop⟩)
  have hops : (flow.code.map Instr.op).count .noop = flow.compounds := by
    rw [code, map_op_ofOps, count_noop_layout]
  rw [← hcount, ← hops, h.length_add_count]

/-- Compressing the code of a well formed flow takes out the ends of its branches and loops and
nothing else, no jump either, and all of them at once. The end of the flow itself is left if it is
one of a branch or a loop, and then a jump lands on it. -/
theorem WellFormed.compress_linearize_noops (h : flow.WellFormed) :
  ∃ linear compressed place, flow.linearize = .ok linear ∧ linear.compress = .ok compressed
    ∧ Renumbers linear compressed linear.Stays place
    ∧ ((∃ i, compressed.placement i .noop) ↔ flow.endsCompound = true)
    ∧ (∀ i, compressed.placement i .noop →
      i + 1 = compressed.length ∧ i ∈ compressed.jumpTargets)
    ∧ (∀ i target, linear.placement i (.jump target) →
      compressed.placement (place i) (.jump (place target)))
    ∧ compressed.entries = linear.pass.entries ∧ false ∉ linear.pass.marks
    ∧ ¬ linear.placement 0 .noop ∧ ¬ compressed.placement 0 .noop
    ∧ compressed.length + flow.compounds = linear.length + if flow.endsCompound then 1 else 0
  := by
  have hcode := flow.wellNumbered_code
  have hsettles := flow.settlesAtOnce_code
  have hcompact := hsettles.renumbers_compact hcode
  refine ⟨flow.code, flow.code.compact, _, linearize_eq h, hcode.compress_eq, hcompact,
    flow.placement_noop_compact_iff, fun i => hcompact.noop_of_stays hsettles, ?_,
    hsettles.entries_compact hcode, ?_, hsettles.entry, flow.not_placement_noop_zero_compact,
    flow.length_compact_add_compounds⟩
  · intro i target hjump
    apply hcompact.placement_place hjump
    apply stays_of_placement hjump
    nofun
  · apply hcode.renumbers_pass.wellNumbered.isCompressed_iff.mp
    apply hsettles.isCompressed_pass hcode

/-- Four ends, two of them at the end of the flow: one is left. -/
theorem WellFormed.compress_linearize_noops_nested :
  let flow : Flow := [.loop none "a" [.branch .onTrue "b" [.suspend] [.action "x"]],
    .branch .onFalse "c" [.loop none "d" []] []]
  flow.WellFormed ∧ flow.compounds = 4 ∧ flow.endsCompound = true
    ∧ ∃ linear compressed, flow.linearize = .ok linear ∧ linear.compress = .ok compressed
      ∧ linear.length = 13 ∧ compressed.length = 10 ∧ compressed.placement 9 .noop
      ∧ 9 ∈ compressed.jumpTargets
  := by
  intro flow
  have hflow : flow.WellFormed := by decide
  have hends : flow.endsCompound = true := by decide
  obtain ⟨linear, compressed, place, hlinear, hcompress, -, hnoop, hlast, -, -, -, -, -, hlength⟩ :=
    compress_linearize_noops hflow
  have hlength' : linear.length = 13 := by
    rw [← Except.ok.inj ((linearize_eq hflow).symm.trans hlinear)]
    decide
  have hcompressed : compressed.length = 10 := by
    have hcompounds : flow.compounds = 4 := by decide
    rw [hlength', hcompounds, if_pos hends] at hlength
    omega
  obtain ⟨i, hi⟩ := hnoop.mpr hends
  obtain ⟨hend, htarget⟩ := hlast i hi
  obtain rfl : i = 9 := by omega
  exact ⟨hflow, by decide, hends, linear, compressed, hlinear, hcompress, hlength', hcompressed, hi,
    htarget⟩

end Flow

end Resumable
