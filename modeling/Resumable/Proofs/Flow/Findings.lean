import Resumable.Proofs.Flow.Paths
import Mathlib.Data.List.Nodup

/-!
# Findings

`Node.Deserves` says, in the words of a report, what can be wrong with a node. The findings of a
flow are the defects of the nodes at all paths through it (`Flow.mem_findings_iff`). They come in
the order in which the flow is gone through depth first, and no two of them are the same defect at
the same path (`Flow.pairwise_findings`).
-/

namespace Resumable

/-! ### Defects of a node -/

/-- The node itself, apart from what is nested in it, is to be reported with a code and a
message. -/
inductive Node.Deserves : Node → (code message : String) → Prop where
  | action {text : String} :
      Text.trim text = "" → Deserves (.action text) "E0002" "action is empty"
  | branchCondition {polarity : Polarity} {cond : String} {body otherwise : Flow} :
      Text.trim cond = "" →
      Deserves (.branch polarity cond body otherwise) "E0001" "branch condition is empty"
  | branchBody {polarity : Polarity} {cond : String} {otherwise : Flow} :
      Deserves (.branch polarity cond [] otherwise) "E0003"
        "branch body is empty, swap the branch polarity instead"
  | loopInit {init step cond : String} {body : Flow} :
      Text.trim init = "" →
      Deserves (.loop (some ⟨some init, step⟩) cond body) "E0004" "loop init is empty"
  | loopCondition {counting : Option Counting} {cond : String} {body : Flow} :
      Text.trim cond = "" →
      Deserves (.loop counting cond body) "E0001" "loop condition is empty"
  | loopStep {init : Option String} {step cond : String} {body : Flow} :
      Text.trim step = "" →
      Deserves (.loop (some ⟨init, step⟩) cond body) "E0004" "loop step is empty"

namespace Defect

variable {defect defect' : Defect} {text : String} {present : Bool}

@[simp]
theorem mem_presentIf :
  defect' ∈ presentIf present defect ↔ defect' = defect ∧ present = true
  := by
  cases present <;> simp [presentIf]

@[simp]
theorem mem_ofText :
  defect' ∈ ofText defect text ↔ defect' = defect ∧ Text.trim text = ""
  := by
  rw [ofText, mem_presentIf, Text.isBlank_iff_trim_eq_empty]

theorem presentIf_sublist (present : Bool) (defect : Defect) :
  (presentIf present defect).Sublist [defect]
  := by
  cases present <;> simp [presentIf]

theorem message_injective :
  Function.Injective message
  := by
  intro defect defect' h
  cases defect <;> cases defect' <;> first | rfl | exact absurd h (by decide)

end Defect

theorem Finding.within_eq_iff {inner : Finding} {i j : Nat} {arm arm' : Arm} {path : Path}
    {defect : Defect} :
  inner.within j arm' = ⟨path.within i arm, defect⟩ ↔ j = i ∧ arm' = arm ∧ inner = ⟨path, defect⟩
  := by
  obtain ⟨⟨enclosing, position⟩, defect'⟩ := inner
  obtain ⟨enclosing', position'⟩ := path
  simp [within, Path.within, and_assoc]

namespace Node

/-- The defects of a node are what it is to be reported with. -/
theorem deserves_iff {node : Node} {code message : String} :
  node.Deserves code message
    ↔ ∃ defect ∈ node.defects, defect.kind.code = code ∧ defect.message = message
  := by
  constructor
  · intro h
    cases h with
    | action h => exact ⟨.blankAction, by simp [defects, h], rfl, rfl⟩
    | branchCondition h => exact ⟨.blankBranchCondition, by simp [defects, h], rfl, rfl⟩
    | branchBody => exact ⟨.emptyBranchBody, by simp [defects], rfl, rfl⟩
    | loopInit h => exact ⟨.blankLoopInit, by simp [defects, h], rfl, rfl⟩
    | @loopCondition counting cond body h =>
        refine ⟨.blankLoopCondition, ?_, rfl, rfl⟩
        cases counting <;> simp [defects, h]
    | loopStep h => exact ⟨.blankLoopStep, by simp [defects, h], rfl, rfl⟩
  · rintro ⟨defect, hmem, rfl, rfl⟩
    cases node with
    | action text =>
        obtain ⟨rfl, h⟩ := Defect.mem_ofText.mp hmem
        apply Deserves.action h
    | suspend => cases hmem
    | branch polarity cond body otherwise =>
        rcases List.mem_append.mp hmem with hmem | hmem
        · obtain ⟨rfl, h⟩ := Defect.mem_ofText.mp hmem
          apply Deserves.branchCondition h
        · obtain ⟨rfl, h⟩ := Defect.mem_presentIf.mp hmem
          rw [List.isEmpty_iff.mp h]
          apply Deserves.branchBody
    | loop counting cond body =>
        cases counting with
        | none =>
            obtain ⟨rfl, h⟩ := Defect.mem_ofText.mp hmem
            apply Deserves.loopCondition h
        | some counting =>
            rcases List.mem_append.mp hmem with hmem | hmem
            · rcases List.mem_append.mp hmem with hmem | hmem
              · obtain ⟨init, hinit, hmem⟩ := List.mem_flatMap.mp hmem
                obtain ⟨rfl, h⟩ := Defect.mem_ofText.mp hmem
                obtain ⟨_, step⟩ := counting
                obtain rfl := Option.mem_toList.mp hinit
                apply Deserves.loopInit h
              · obtain ⟨rfl, h⟩ := Defect.mem_ofText.mp hmem
                apply Deserves.loopCondition h
            · obtain ⟨rfl, h⟩ := Defect.mem_ofText.mp hmem
              apply Deserves.loopStep h

/-- A node has no defect twice. -/
theorem nodup_defects (node : Node) :
  node.defects.Nodup
  := by
  have hpresent := Defect.presentIf_sublist
  cases node with
  | action text => apply (hpresent ..).nodup (List.nodup_singleton _)
  | suspend => apply List.nodup_nil
  | branch polarity cond body otherwise =>
      have hsublist := (hpresent (Text.isBlank cond) .blankBranchCondition).append
        (hpresent body.isEmpty .emptyBranchBody)
      apply hsublist.nodup (by decide)
  | loop counting cond body =>
      rcases counting with _ | ⟨init, step⟩
      · apply (hpresent ..).nodup (List.nodup_singleton _)
      · have hinit : (init.toList.flatMap (Defect.ofText .blankLoopInit)).Sublist
            [.blankLoopInit] := by
          cases init with
          | none => simp
          | some init =>
              rw [Option.toList_some, List.flatMap_singleton]
              apply hpresent
        have hsublist := (hinit.append (hpresent (Text.isBlank cond) .blankLoopCondition)).append
          (hpresent (Text.isBlank step) .blankLoopStep)
        apply hsublist.nodup (by decide)

/-- A node has its own findings first, then those in its body, then those in its other arm. -/
theorem findings_eq (node : Node) (i : Nat) :
  node.findings i = node.ownFindings i
    ++ ((node.arm .body).findings.map (Finding.within i .body)
      ++ (node.arm .otherwise).findings.map (Finding.within i .otherwise))
  := by
  cases node with
  | action text => simp [findings, arm, Flow.findings, Flow.findingsFrom]
  | suspend => simp [findings, arm, Flow.findings, Flow.findingsFrom]
  | branch polarity cond body otherwise => simp [findings, arm, Flow.findings]
  | loop counting cond body => simp [findings, arm, Flow.findings, Flow.findingsFrom]

variable {node : Node} {i : Nat} {finding : Finding}

theorem mem_ownFindings :
  finding ∈ node.ownFindings i ↔ finding.path = ⟨[], i⟩ ∧ finding.defect ∈ node.defects
  := by
  rw [ownFindings, List.mem_map]
  constructor
  · rintro ⟨defect, hmem, rfl⟩
    exact ⟨rfl, hmem⟩
  · rintro ⟨hpath, hmem⟩
    use finding.defect, hmem
    rw [← hpath]

/-- A finding in a node is one of its own, or one in an arm of it. -/
theorem mem_findings :
  finding ∈ node.findings i ↔ finding ∈ node.ownFindings i
    ∨ ∃ arm, ∃ inner ∈ (node.arm arm).findings, inner.within i arm = finding
  := by
  rw [findings_eq, List.mem_append, List.mem_append, List.mem_map, List.mem_map]
  apply or_congr_right
  constructor
  · rintro (h | h)
    · exact ⟨.body, h⟩
    · exact ⟨.otherwise, h⟩
  · rintro ⟨_ | _, h⟩
    · left
      apply h
    · right
      apply h

/-- All findings in the node at a position are at paths that start there. -/
theorem outermost_of_mem_findings (h : finding ∈ node.findings i) :
  finding.path.outermost = i
  := by
  rcases mem_findings.mp h with hown | ⟨arm, inner, -, rfl⟩
  · rw [(mem_ownFindings.mp hown).1]
    rfl
  · rfl

end Node

/-! ### Findings of a flow -/

namespace Flow

variable {flow : Flow} {finding : Finding} {position : Nat}

theorem mem_findingsFrom :
  finding ∈ flow.findingsFrom position
    ↔ ∃ (i : Nat) (node : Node), flow[i]? = some node ∧ finding ∈ node.findings (position + i)
  := by
  induction flow generalizing position with
  | nil => simp [findingsFrom]
  | cons node rest ih =>
      rw [findingsFrom, List.mem_append, ih]
      constructor
      · rintro (h | ⟨i, other, hother, h⟩)
        · use 0, node, rfl, h
        · use i + 1, other, hother
          rwa [← Nat.add_assoc, Nat.add_right_comm]
      · rintro ⟨_ | i, other, hother, h⟩
        · cases hother
          left
          apply h
        · right
          use i, other, hother
          rwa [Nat.add_right_comm, Nat.add_assoc]

theorem mem_findings :
  finding ∈ flow.findings
    ↔ ∃ (i : Nat) (node : Node), flow[i]? = some node ∧ finding ∈ node.findings i
  := by
  simp only [findings, mem_findingsFrom, Nat.zero_add]

/-- The findings of a flow are the defects of the nodes that paths lead to. -/
theorem mem_findings_iff {path : Path} {defect : Defect} :
  ⟨path, defect⟩ ∈ flow.findings
    ↔ ∃ node, flow.at? path = some node ∧ defect ∈ node.defects
  := by
  induction path using Path.induction generalizing flow with
  | top i =>
      rw [mem_findings]
      constructor
      · rintro ⟨j, node, hnode, hmem⟩
        rcases Node.mem_findings.mp hmem with hown | ⟨arm, inner, -, heq⟩
        · obtain ⟨⟨⟩, hdefect⟩ := Node.mem_ownFindings.mp hown
          use node, hnode, hdefect
        · cases heq
      · rintro ⟨node, hnode, hdefect⟩
        use i, node, hnode
        apply Node.mem_findings.mpr (.inl (Node.mem_ownFindings.mpr ⟨rfl, hdefect⟩))
  | within i arm path ih =>
      rw [mem_findings]
      constructor
      · rintro ⟨j, outer, houter, hmem⟩
        rcases Node.mem_findings.mp hmem with hown | ⟨arm', inner, hinner, heq⟩
        · obtain ⟨⟨⟩, -⟩ := Node.mem_ownFindings.mp hown
        · obtain ⟨rfl, rfl, rfl⟩ := Finding.within_eq_iff.mp heq
          obtain ⟨node, hnode, hdefect⟩ := ih.mp hinner
          refine ⟨node, ?_, hdefect⟩
          rw [at?_within, houter, Option.bind_some, hnode]
      · rintro ⟨node, hnode, hdefect⟩
        rw [at?_within] at hnode
        obtain ⟨outer, houter, hinner⟩ := Option.bind_eq_some_iff.mp hnode
        use i, outer, houter
        apply Node.mem_findings.mpr
        right
        exact ⟨arm, ⟨path, defect⟩, ih.mpr ⟨node, hinner, hdefect⟩, rfl⟩

end Flow

/-! ### Order of findings -/

/-- The one finding comes first when a flow is gone through depth first, or both are different
defects of one node. -/
def Finding.Before (finding finding' : Finding) : Prop :=
  finding.path.Before finding'.path
    ∨ finding.path = finding'.path ∧ finding.defect ≠ finding'.defect

theorem Finding.Before.within {finding finding' : Finding} (h : finding.Before finding') (i : Nat)
    (arm : Arm) :
  (finding.within i arm).Before (finding'.within i arm)
  := by
  rcases h with hbefore | ⟨hpath, hdefect⟩
  · left
    apply Path.Before.within hbefore
  · right
    exact ⟨Path.within_inj.mpr hpath, hdefect⟩

theorem Node.pairwise_ownFindings (node : Node) (i : Nat) :
  (node.ownFindings i).Pairwise Finding.Before
  := by
  apply List.pairwise_map.mpr
  apply node.nodup_defects.imp
  intro defect defect' hne
  right
  exact ⟨rfl, hne⟩

/-- The findings in a node are in order if those in each of its arms are. -/
theorem Node.pairwise_findings {node : Node}
    (h : ∀ arm, (node.arm arm).findings.Pairwise Finding.Before) (i : Nat) :
  (node.findings i).Pairwise Finding.Before
  := by
  have harm (arm : Arm) :
      ((node.arm arm).findings.map (Finding.within i arm)).Pairwise Finding.Before := by
    apply List.pairwise_map.mpr
    apply (h arm).imp
    intro finding finding' hbefore
    apply hbefore.within
  rw [findings_eq, List.pairwise_append, List.pairwise_append]
  refine ⟨node.pairwise_ownFindings i, ⟨harm .body, harm .otherwise, ?_⟩, ?_⟩
  · intro finding hbody finding' hotherwise
    obtain ⟨inner, -, rfl⟩ := List.mem_map.mp hbody
    obtain ⟨inner', -, rfl⟩ := List.mem_map.mp hotherwise
    left
    apply Path.Before.arms
  · intro finding hown finding' hnested
    have hpath := (mem_ownFindings.mp hown).1
    left
    rw [hpath]
    rcases List.mem_append.mp hnested with hmem | hmem
    · obtain ⟨inner, -, rfl⟩ := List.mem_map.mp hmem
      apply Path.Before.nested
    · obtain ⟨inner, -, rfl⟩ := List.mem_map.mp hmem
      apply Path.Before.nested

namespace Flow

theorem pairwise_findingsFrom (flow : Flow) (position : Nat) :
  (flow.findingsFrom position).Pairwise Finding.Before
  := by
  induction flow using Flow.induction_arms generalizing position with
  | nil => apply List.Pairwise.nil
  | cons node rest harms hrest =>
      rw [findingsFrom, List.pairwise_append]
      refine ⟨Node.pairwise_findings (fun arm => harms arm 0) position, hrest _, ?_⟩
      intro finding hfinding finding' hfinding'
      obtain ⟨i, other, -, hother⟩ := mem_findingsFrom.mp hfinding'
      left
      apply Path.Before.later
      rw [Node.outermost_of_mem_findings hfinding, Node.outermost_of_mem_findings hother]
      omega

/-- The findings of a flow come in the order in which it is gone through depth first, and none comes
twice. -/
theorem pairwise_findings (flow : Flow) :
  flow.findings.Pairwise Finding.Before
  := flow.pairwise_findingsFrom 0

/-! ### Diagnostics -/

variable {flow : Flow} {d : Diagnostic}

/-- The diagnostics are those that the nodes at the paths through the flow deserve. -/
theorem mem_diagnostics_iff :
  d ∈ flow.diagnostics ↔ ∃ path node code message, flow.at? path = some node
    ∧ node.Deserves code message ∧ d = ⟨.error, some code, message, [path.note]⟩
  := by
  rw [diagnostics, List.mem_map]
  constructor
  · rintro ⟨⟨path, defect⟩, hmem, rfl⟩
    obtain ⟨node, hnode, hdefect⟩ := mem_findings_iff.mp hmem
    refine ⟨path, node, _, _, hnode, ?_, rfl⟩
    apply Node.deserves_iff.mpr ⟨defect, hdefect, rfl, rfl⟩
  · rintro ⟨path, node, code, message, hnode, hdeserves, rfl⟩
    obtain ⟨defect, hdefect, rfl, rfl⟩ := Node.deserves_iff.mp hdeserves
    exact ⟨⟨path, defect⟩, mem_findings_iff.mpr ⟨node, hnode, hdefect⟩, rfl⟩

/-- No two diagnostics have the same note and the same message. -/
theorem nodup_diagnostics (flow : Flow) :
  (flow.diagnostics.map fun d => (d.notes, d.message)).Nodup
  := by
  rw [diagnostics, List.map_map]
  apply List.pairwise_map.mpr
  apply flow.pairwise_findings.imp
  intro finding finding' hbefore heq
  obtain ⟨hnotes, hmessage⟩ := Prod.mk.inj heq
  have hpath : finding.path = finding'.path := Path.note_injective (List.cons.inj hnotes).1
  rcases hbefore with hbefore | ⟨-, hdefect⟩
  · apply hbefore.ne hpath
  · apply hdefect (Defect.message_injective hmessage)

theorem pairwise_diagnostics (flow : Flow) :
  flow.diagnostics.Pairwise fun d d' => ∃ path path' : Path, d.notes = [path.note]
    ∧ d'.notes = [path'.note] ∧ (path = path' ∨ path.Before path')
  := by
  apply List.pairwise_map.mpr
  apply flow.pairwise_findings.imp
  intro finding finding' hbefore
  refine ⟨finding.path, finding'.path, rfl, rfl, ?_⟩
  rcases hbefore with hbefore | ⟨hpath, -⟩
  · right
    apply hbefore
  · left
    apply hpath

/-- A path can be read from the note of a diagnostic. It leads to a node that deserves to be
reported with the code and the message, and whatever a node at any depth deserves is reported
exactly once. The diagnostics come in the order in which the flow is gone through depth first, and
no two have the same path and the same message. There are none just if no node at any depth
deserves one. -/
theorem diagnostics_exact (flow : Flow) :
  (∀ path : Path, Path.read? path.note = some path)
  ∧ (∀ d ∈ flow.diagnostics, ∃ note path node code, d = ⟨.error, some code, d.message, [note]⟩
    ∧ Path.read? note = some path ∧ flow.at? path = some node ∧ node.Deserves code d.message)
  ∧ (∀ path node code message, flow.at? path = some node → node.Deserves code message →
    flow.diagnostics.count ⟨.error, some code, message, [path.note]⟩ = 1)
  ∧ (flow.diagnostics.map fun d => (d.notes, d.message)).Nodup
  ∧ (flow.diagnostics.Pairwise fun d d' => ∃ path path' : Path, d.notes = [path.note]
    ∧ d'.notes = [path'.note] ∧ (path = path' ∨ path.Before path'))
  ∧ (flow.diagnostics = [] ↔ ∀ node, flow.Contains node →
    ∀ code message, ¬ node.Deserves code message)
  := by
  refine ⟨Path.read?_note, ?_, ?_, flow.nodup_diagnostics, flow.pairwise_diagnostics, ?_⟩
  · intro d hd
    obtain ⟨path, node, code, message, hnode, hdeserves, rfl⟩ := mem_diagnostics_iff.mp hd
    exact ⟨path.note, path, node, code, rfl, path.read?_note, hnode, hdeserves⟩
  · intro path node code message hnode hdeserves
    apply List.count_eq_one_of_mem (List.Nodup.of_map _ flow.nodup_diagnostics)
    apply mem_diagnostics_iff.mpr ⟨path, node, code, message, hnode, hdeserves, rfl⟩
  · constructor
    · intro hnil node hcontains code message hdeserves
      obtain ⟨path, hpath⟩ := contains_iff.mp hcontains
      have hmem := mem_diagnostics_iff.mpr ⟨path, node, code, message, hpath, hdeserves, rfl⟩
      rw [hnil] at hmem
      cases hmem
    · intro h
      apply List.eq_nil_iff_forall_not_mem.mpr
      intro d hd
      obtain ⟨path, node, code, message, hnode, hdeserves, -⟩ := mem_diagnostics_iff.mp hd
      apply h node (contains_iff.mpr ⟨path, hnode⟩) code message hdeserves

/-- The loop has two defects with the same code, next to each other but for its blank condition. -/
theorem diagnostics_exact_loop :
  let loop : Node := .loop (some ⟨some "", "\t"⟩) " " []
  let flow : Flow := [.action "a", .branch .onTrue "c" [] [loop]]
  flow.at? ⟨[(1, .otherwise)], 0⟩ = some loop ∧ loop.Deserves "E0004" "loop step is empty"
    ∧ flow.diagnostics.count
        ⟨.error, some "E0004", "loop step is empty", ["at flow[1].otherwise[0]"]⟩ = 1
    ∧ flow.diagnostics.map Diagnostic.message
      = ["branch body is empty, swap the branch polarity instead", "loop init is empty",
        "loop condition is empty", "loop step is empty"]
  := by
  intro loop flow
  have hdeserves : loop.Deserves "E0004" "loop step is empty" := .loopStep (by decide)
  refine ⟨rfl, hdeserves, ?_, by decide⟩
  apply (diagnostics_exact flow).2.2.1 ⟨[(1, .otherwise)], 0⟩ loop _ _ rfl hdeserves

end Flow

end Resumable
