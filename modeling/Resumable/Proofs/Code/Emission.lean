import Resumable.Code.Emission
import Resumable.Proofs.Code.Layout

/-!
# Emitted code

What is emitted at any time is the code of some operations, numbered from the first one on, and
emitting a flow appends to them the operations that it is laid out as (`Flow.emits`): operations
that were there before stay as they are, no patch fails, and whatever the placeholder is, it is
patched everywhere. So linearizing a flow fails only if the flow is malformed.
-/

namespace Resumable

namespace Emission

open Code

variable {op : Op} {ops before after : List Op}

theorem push_ofOps (op : Op) (ops : List Op) :
  push op (ofOps ops).toArray = (ofOps (ops ++ [op])).toArray
  := by
  simp [push, ofOps, List.mapIdx_append]

theorem pushAll_ofOps (ops ops' : List Op) :
  pushAll ops' (ofOps ops).toArray = (ofOps (ops ++ ops')).toArray
  := by
  induction ops' generalizing ops with
  | nil => simp [pushAll]
  | cons op ops' ih =>
      have hrest := ih (ops ++ [op])
      rw [List.append_assoc, List.singleton_append, ← push_ofOps] at hrest
      apply hrest

theorem size_ofOps (ops : List Op) :
  (ofOps ops).toArray.size = ops.length
  := by
  rw [List.size_toArray, length_ofOps]

/-- A jump is patched where it is, and no other operation changes. -/
theorem patch_ofOps {address : Nat} (hops : ops = before ++ op :: after)
    (haddress : address = before.length) (hjump : op.target?.isSome) (target : Nat) :
  patch address target (ofOps ops).toArray
    = .ok (ofOps (before ++ op.retarget (fun _ => target) :: after)).toArray
  := by
  subst hops haddress
  have hinstr : (ofOps (before ++ op :: after)).toArray[before.length]?
      = some ⟨before.length, op, true⟩ := by
    rw [List.getElem?_toArray, getElem?_ofOps]
    simp
  have hset : (ofOps (before ++ op :: after)).set before.length
        ⟨before.length, op.retarget fun _ => target, true⟩
      = ofOps (before ++ op.retarget (fun _ => target) :: after) := by
    rw [ofOps, ofOps, ← List.mapIdx_set]
    simp
  rw [patch, hinstr]
  simp [hjump, hset]

/-- The emitter appends operations, which depend on the address of the first one only. -/
def Emits (emitter : Emitter) (layout : Nat → List Op) : Prop :=
  ∀ ops, emitter (ofOps ops).toArray = .ok (ofOps (ops ++ layout ops.length)).toArray

variable {placeholder : Nat} {cond : String} {skip : Polarity} {body otherwise : Emitter}
  {first second : Nat → List Op}

theorem emits_push (op : Op) :
  Emits (fun emitted => .ok (push op emitted)) fun _ => [op]
  := by
  intro ops
  dsimp only
  rw [push_ofOps]

theorem Emits.push (h : Emits body first) (op : Op) (ops : List Op) :
  body (push op (ofOps ops).toArray) = .ok (ofOps (ops ++ op :: first (ops.length + 1))).toArray
  := by
  rw [push_ofOps, h, List.append_assoc, List.length_append]
  rfl

theorem emits_branch_none (hbody : Emits body first) :
  Emits (branch placeholder cond skip body none) fun origin =>
    .jumpIf cond skip (origin + 1 + (first (origin + 1)).length)
      :: (first (origin + 1) ++ [.noop])
  := by
  intro ops
  dsimp only
  rw [branch, hbody.push]
  generalize first (ops.length + 1) = first
  have hops : ops ++ .jumpIf cond skip placeholder :: first ++ [.noop]
      = ops ++ .jumpIf cond skip placeholder :: (first ++ [.noop]) := by simp
  have hmerge : (ops ++ .jumpIf cond skip placeholder :: first).length
      = ops.length + 1 + first.length := by simp +arith
  dsimp only [bind, Except.bind]
  rw [push_ofOps, size_ofOps, size_ofOps, hmerge, patch_ofOps hops rfl rfl]
  rfl

theorem emits_branch_some (hbody : Emits body first) (hotherwise : Emits otherwise second) :
  Emits (branch placeholder cond skip body (some otherwise)) fun origin =>
    let start := origin + 1 + (first (origin + 1)).length + 1
    .jumpIf cond skip start :: (first (origin + 1)
      ++ .jump (start + (second start).length) :: (second start ++ [.noop]))
  := by
  intro ops
  dsimp only
  rw [branch, hbody.push]
  generalize first (ops.length + 1) = first
  obtain ⟨start, hstart⟩ : ∃ start, start = ops.length + 1 + first.length + 1 := ⟨_, rfl⟩
  have htest : ops ++ .jumpIf cond skip placeholder :: first ++ [.jump placeholder]
      = ops ++ .jumpIf cond skip placeholder :: (first ++ [.jump placeholder]) := by simp
  have hjump : (ops ++ .jumpIf cond skip placeholder :: first).length + 1 = start := by
    simp +arith [hstart]
  have hlength : (ops ++ Op.jumpIf cond skip start :: (first ++ [.jump placeholder])).length
      = start := by simp +arith [hstart]
  have hsecond := hotherwise (ops ++ .jumpIf cond skip start :: (first ++ [.jump placeholder]))
  rw [hlength] at hsecond
  rw [← hstart]
  generalize second start = second at hsecond ⊢
  -- the jump behind the body is still to be patched when `otherwise` is emitted
  have hskip : ops ++ .jumpIf cond skip start :: (first ++ [.jump placeholder]) ++ second ++ [.noop]
      = ops ++ .jumpIf cond skip start :: first ++ .jump placeholder :: (second ++ [.noop]) := by
    simp
  have hmerge :
      (ops ++ Op.jumpIf cond skip start :: (first ++ [.jump placeholder]) ++ second).length
      = start + second.length := by
    rw [List.length_append, hlength]
  dsimp only [bind, Except.bind]
  rw [push_ofOps, size_ofOps, size_ofOps, hjump, patch_ofOps htest rfl rfl]
  dsimp only [Op.retarget]
  rw [hsecond]
  dsimp only
  rw [push_ofOps, size_ofOps, hmerge, patch_ofOps hskip (by simp) rfl, List.append_assoc]
  rfl

theorem emits_loop (init step : List Op) (hbody : Emits body first) :
  Emits (loop placeholder init cond step body) fun origin =>
    init ++ .jumpIf cond .onFalse
        (origin + init.length + (first (origin + init.length + 1)).length + step.length + 2)
      :: (first (origin + init.length + 1) ++ (step ++ [.jump (origin + init.length), .noop]))
  := by
  intro ops
  dsimp only
  rw [loop, pushAll_ofOps, hbody.push, List.length_append]
  generalize first (ops.length + init.length + 1) = first
  have hops : ops ++ init ++ .jumpIf cond .onFalse placeholder :: first ++ step
        ++ [.jump (ops.length + init.length)] ++ [.noop]
      = ops ++ init ++ .jumpIf cond .onFalse placeholder
        :: (first ++ (step ++ [.jump (ops.length + init.length), .noop])) := by simp
  have hexit : (ops ++ init ++ Op.jumpIf cond .onFalse placeholder :: first ++ step
        ++ [Op.jump (ops.length + init.length)]).length
      = ops.length + init.length + first.length + step.length + 2 := by simp +arith
  dsimp only [bind, Except.bind]
  rw [pushAll_ofOps, push_ofOps, push_ofOps, size_ofOps, size_ofOps, List.length_append, hexit,
    patch_ofOps hops List.length_append.symm rfl, List.append_assoc]
  rfl

end Emission

theorem Code.WellNumbered.map_address {code : Code} (h : code.WellNumbered) :
  code.map Instr.address = List.range code.length
  := by
  apply List.ext_getElem (by simp)
  intro i hi hi'
  rw [List.getElem_map, List.getElem_range]
  rw [List.length_map] at hi
  apply (h i code[i] (List.getElem?_eq_getElem hi)).1

open Emission

/-! ### Emission of flows -/

theorem Node.emits_branch {placeholder : Nat} {polarity : Polarity} {cond : String}
    {body otherwise : Flow} (hbody : Emits (body.emit placeholder) body.layout)
    (hotherwise : Emits (otherwise.emit placeholder) otherwise.layout) :
  Emits (Node.emit placeholder (.branch polarity cond body otherwise))
    fun origin => layout origin (.branch polarity cond body otherwise)
  := by
  intro ops
  dsimp only
  by_cases hempty : otherwise = []
  · rw [hempty, Node.emit, layout_branch_nil rfl]
    apply emits_branch_none hbody
  · rw [Node.emit, if_neg (mt List.isEmpty_iff.mp hempty), layout_branch_of_ne_nil hempty rfl rfl]
    apply emits_branch_some hbody hotherwise

theorem Node.emits_loop {placeholder : Nat} {counting : Option Counting} {cond : String}
    {body : Flow} (hbody : Emits (body.emit placeholder) body.layout) :
  Emits (Node.emit placeholder (.loop counting cond body))
    fun origin => layout origin (.loop counting cond body)
  := by
  intro ops
  dsimp only
  rw [Node.emit, layout]
  simp only [List.append_assoc, List.cons_append]
  apply Emission.emits_loop _ _ hbody

namespace Flow

variable {placeholder : Nat} {flow : Flow}

theorem emits_cons {node : Node} {rest : Flow} (hnode : Emits (node.emit placeholder) node.layout)
    (hrest : Emits (rest.emit placeholder) rest.layout) :
  Emits (Flow.emit placeholder (node :: rest)) fun origin => Flow.layout origin (node :: rest)
  := by
  intro ops
  have hlater := hrest (ops ++ node.layout ops.length)
  rw [List.length_append] at hlater
  dsimp only [Flow.emit]
  rw [hnode, Flow.layout, ← List.append_assoc]
  apply hlater

/-- Emitting a flow appends the operations that it is laid out as. -/
theorem emits (placeholder : Nat) (flow : Flow) :
  Emits (flow.emit placeholder) flow.layout
  := by
  induction flow using Flow.induction with
  | nil =>
      intro ops
      dsimp only
      rw [Flow.emit, Flow.layout, List.append_nil]
  | action text rest hrest =>
      apply emits_cons _ hrest
      apply emits_push
  | suspend rest hrest =>
      apply emits_cons _ hrest
      apply emits_push
  | branch polarity cond body otherwise rest hbody hotherwise hrest =>
      apply emits_cons _ hrest
      apply Node.emits_branch hbody hotherwise
  | loop counting cond body rest hbody hrest =>
      apply emits_cons _ hrest
      apply Node.emits_loop hbody

/-! ### Linearization -/

theorem emission_eq (placeholder : Nat) (flow : Flow) :
  flow.emission placeholder = .ok flow.code
  := by
  have h := flow.emits placeholder []
  have hempty : (Code.ofOps []).toArray = #[] := rfl
  rw [hempty, List.nil_append, List.length_nil] at h
  rw [emission, h]
  rfl

/-- A well formed flow is linearized. -/
theorem linearize_eq (h : flow.WellFormed) :
  flow.linearize = .ok flow.code
  := by
  rw [linearize, h]
  dsimp only
  rw [emission_eq]
  dsimp only [bind, Except.bind]
  rw [Code.fault?_eq_none_iff.mpr flow.wellNumbered_code]

theorem diagnostics_eq_nil_iff :
  flow.diagnostics = [] ↔ flow.WellFormed
  := List.map_eq_nil_iff

theorem linearize_error_iff :
  (∃ fault, flow.linearize = .error fault) ↔ flow.diagnostics ≠ []
  := by
  rw [ne_eq, diagnostics_eq_nil_iff]
  constructor
  · rintro ⟨fault, hfault⟩ h
    rw [linearize_eq h] at hfault
    cases hfault
  · intro h
    unfold linearize
    split
    · next hfindings => exact absurd hfindings h
    · exact ⟨_, rfl⟩

theorem labelled_of_mem_code {instr : Instr} (h : instr ∈ flow.code) :
  instr.labelled = true
  := by
  obtain ⟨address, haddress, rfl⟩ := List.mem_mapIdx.mp h
  rfl

/-- Linearizing a flow fails if and only if the flow is malformed. If it is not, then no patch fails
and neither does the check of the addresses: the instructions are numbered in order, each of them
is labelled, the jumps lead to instructions, and the placeholder does not matter. -/
theorem linearize_addresses (flow : Flow) :
  ((∃ fault, flow.linearize = .error fault) ↔ flow.diagnostics ≠ [])
    ∧ (flow.diagnostics = [] → ∃ code : Code, flow.linearize = .ok code
      ∧ (∀ placeholder, flow.emission placeholder = .ok code)
      ∧ code.fault? = none
      ∧ code.map Instr.address = List.range code.length
      ∧ (∀ instr ∈ code, instr.labelled = true)
      ∧ ∀ instr ∈ code, ∀ target ∈ instr.op.target?, target < code.length)
  := by
  use linearize_error_iff
  intro hdiagnostics
  have hcode := flow.wellNumbered_code
  refine ⟨flow.code, linearize_eq (diagnostics_eq_nil_iff.mp hdiagnostics),
    fun placeholder => flow.emission_eq placeholder, Code.fault?_eq_none_iff.mpr hcode,
    hcode.map_address, fun _ => labelled_of_mem_code, ?_⟩
  intro instr hmem
  obtain ⟨address, haddress⟩ := List.mem_iff_getElem?.mp hmem
  apply (hcode address instr haddress).2

/-- While the branch in the loop is emitted, the test of the loop is still to be patched. -/
theorem linearize_addresses_nested :
  let flow : Flow := [.loop (some ⟨some "i = 0", "i += 1"⟩) "i < 2"
    [.branch .onTrue "c" [.suspend] [.action "a"]]]
  flow.diagnostics = [] ∧ ∃ code, flow.linearize = .ok code
    ∧ flow.emission 0 = .ok code
    ∧ code.map Instr.op = [.action "i = 0", .jumpIf "i < 2" .onFalse 9, .jumpIf "c" .onFalse 5,
      .suspend, .jump 6, .action "a", .noop, .action "i += 1", .jump 1, .noop]
    ∧ code.map Instr.address = List.range 10
  := by
  intro flow
  have hflow : flow.diagnostics = [] := by decide
  obtain ⟨code, hlinearize, hemission, -, haddress, -⟩ := (linearize_addresses flow).2 hflow
  have heq : code = flow.code := Except.ok.inj ((hemission 0).symm.trans (flow.emission_eq 0))
  have hlength : code.length = 10 := by
    rw [heq]
    decide
  refine ⟨hflow, code, hlinearize, hemission 0, ?_, ?_⟩
  · rw [heq]
    decide
  · rw [haddress, hlength]

end Flow

end Resumable
