import Resumable.Proofs.Code.Texts
import Resumable.Proofs.Lowering
import Mathlib.Data.List.DropRight

/-!
# Texts of flows

The texts of a flow are opaque: all that matters of them is which are blank. `Flow.mapText g` is the
flow with `g` applied to every text in it. If `g` makes no text blank that is not and leaves none
blank that is, `Text.KeepsBlank`, then the flow has the same defects as before
(`Flow.findings_mapText`), and it is lowered to what it was lowered to before, with `g` applied to
the texts (`Flow.linearize_mapText`, `Flow.lower_mapText`).

Trimming is such a change. It does not change a text that is trimmed already (`Text.trim_trim`), so
the flows that come of building some nodes with the constructors that trim, `Flow.TrimsTo`, are all
the same when all their texts are trimmed.
-/

namespace Resumable

/-! ### Blank texts -/

namespace Text

/-- The texts that `g` makes blank are the blank ones. -/
def KeepsBlank (g : String → String) : Prop :=
  ∀ text, trim (g text) = "" ↔ trim text = ""

theorem KeepsBlank.isBlank_eq {g : String → String} (h : KeepsBlank g) (text : String) :
  isBlank (g text) = isBlank text
  := by
  apply Bool.eq_iff_iff.mpr
  rw [isBlank_iff_trim_eq_empty, isBlank_iff_trim_eq_empty]
  apply h text

/-- Trimming the end leaves the front trimmed. -/
theorem dropWhile_trimChars (cs : List Char) :
  (trimChars cs).dropWhile isSpace = trimChars cs
  := by
  have hstart : trimChars cs <+: cs.dropWhile isSpace := List.rdropWhile_prefix isSpace _
  apply List.dropWhile_eq_self_iff.mpr
  intro hlength
  have hlength' := Nat.lt_of_lt_of_le hlength hstart.length_le
  rw [hstart.getElem hlength]
  apply List.dropWhile_eq_self_iff.mp (List.dropWhile_idempotent isSpace cs) hlength'

/-- Trimming a text that is trimmed already changes nothing. -/
theorem trim_trim (s : String) :
  trim (trim s) = trim s
  := by
  have hchars : trimChars (trimChars s.toList) = trimChars s.toList := by
    rw [trimChars.eq_def (trimChars s.toList), dropWhile_trimChars]
    apply List.rdropWhile_idempotent
  rw [trim, trim, String.toList_ofList, hchars]

theorem keepsBlank_trim :
  KeepsBlank trim
  := by
  intro text
  rw [trim_trim]

end Text

/-! ### Changes of texts -/

/-- The actions of a counted loop with `g` applied to their texts. -/
def Counting.mapText (g : String → String) (counting : Counting) : Counting where
  init := counting.init.map g
  step := g counting.step

mutual
/-- The node with `g` applied to every text in it and in the nodes nested in it. -/
def Node.mapText (g : String → String) : Node → Node
  | .action text => .action (g text)
  | .suspend => .suspend
  | .branch polarity cond body otherwise =>
    .branch polarity (g cond) (Flow.mapText g body) (Flow.mapText g otherwise)
  | .loop counting cond body =>
    .loop (counting.map (Counting.mapText g)) (g cond) (Flow.mapText g body)

/-- The flow with `g` applied to every text in it. -/
def Flow.mapText (g : String → String) : Flow → Flow
  | [] => []
  | node :: rest => node.mapText g :: Flow.mapText g rest
end

/-- The second flow is the first one, with any of its nodes, at any depth, built by the constructors
that trim their texts. -/
inductive Flow.TrimsTo : Flow → Flow → Prop where
  | nil : TrimsTo [] []
  | suspend {rest rest' : Flow} :
      TrimsTo rest rest' → TrimsTo (.suspend :: rest) (.suspend :: rest')
  | action (text : String) {rest rest' : Flow} :
      TrimsTo rest rest' → TrimsTo (.action text :: rest) (.action text :: rest')
  | act (text : String) {rest rest' : Flow} :
      TrimsTo rest rest' → TrimsTo (.action text :: rest) (.act text :: rest')
  | branch (polarity : Polarity) (cond : String)
      {body body' otherwise otherwise' rest rest' : Flow} :
      TrimsTo body body' → TrimsTo otherwise otherwise' → TrimsTo rest rest' →
      TrimsTo (.branch polarity cond body otherwise :: rest)
        (.branch polarity cond body' otherwise' :: rest')
  | when (polarity : Polarity) (cond : String)
      {body body' otherwise otherwise' rest rest' : Flow} :
      TrimsTo body body' → TrimsTo otherwise otherwise' → TrimsTo rest rest' →
      TrimsTo (.branch polarity cond body otherwise :: rest)
        (.when polarity cond body' otherwise' :: rest')
  | loop (counting : Option Counting) (cond : String) {body body' rest rest' : Flow} :
      TrimsTo body body' → TrimsTo rest rest' →
      TrimsTo (.loop counting cond body :: rest) (.loop counting cond body' :: rest')
  | counted (init : Option String) (cond step : String) {body body' rest rest' : Flow} :
      TrimsTo body body' → TrimsTo rest rest' →
      TrimsTo (.loop (some ⟨init, step⟩) cond body :: rest)
        (.counted init cond step body' :: rest')
  | whilst (cond : String) {body body' rest rest' : Flow} :
      TrimsTo body body' → TrimsTo rest rest' →
      TrimsTo (.loop none cond body :: rest) (.whilst cond body' :: rest')

variable {g : String → String}

/-! ### Defects -/

theorem Flow.isEmpty_mapText (flow : Flow) :
  (flow.mapText g).isEmpty = flow.isEmpty
  := by
  cases flow with
  | nil => rfl
  | cons node rest => rfl

namespace Node

/-- A node has the same defects if the same texts are blank. -/
theorem defects_mapText (hg : Text.KeepsBlank g) (node : Node) :
  (node.mapText g).defects = node.defects
  := by
  cases node with
  | action text => simp [mapText, defects, Defect.ofText, hg.isBlank_eq]
  | suspend => rfl
  | branch polarity cond body otherwise =>
      simp [mapText, defects, Defect.ofText, hg.isBlank_eq, Flow.isEmpty_mapText]
  | loop counting cond body =>
      cases counting with
      | none => simp [mapText, defects, Defect.ofText, hg.isBlank_eq]
      | some counting =>
          obtain ⟨init, step⟩ := counting
          cases init with
          | none => simp [mapText, Counting.mapText, defects, Defect.ofText, hg.isBlank_eq]
          | some init => simp [mapText, Counting.mapText, defects, Defect.ofText, hg.isBlank_eq]

theorem ownFindings_mapText (hg : Text.KeepsBlank g) (position : Nat) (node : Node) :
  ownFindings position (node.mapText g) = ownFindings position node
  := by
  rw [ownFindings, defects_mapText hg, ownFindings]

end Node

namespace Flow

theorem findingsFrom_mapText (hg : Text.KeepsBlank g) (flow : Flow) (position : Nat) :
  (flow.mapText g).findingsFrom position = flow.findingsFrom position
  := by
  induction flow using Flow.induction generalizing position with
  | nil => rfl
  | action text rest ih =>
      have hown := Node.ownFindings_mapText hg position (.action text)
      rw [Node.mapText] at hown
      simp only [mapText, Node.mapText, findingsFrom, Node.findings, hown, ih]
  | suspend rest ih =>
      simp only [mapText, Node.mapText, findingsFrom, ih]
  | branch polarity cond body otherwise rest ihbody ihotherwise ih =>
      have hown := Node.ownFindings_mapText hg position (.branch polarity cond body otherwise)
      rw [Node.mapText] at hown
      simp only [mapText, Node.mapText, findingsFrom, Node.findings, hown, ihbody, ihotherwise, ih]
  | loop counting cond body rest ihbody ih =>
      have hown := Node.ownFindings_mapText hg position (.loop counting cond body)
      rw [Node.mapText] at hown
      simp only [mapText, Node.mapText, findingsFrom, Node.findings, hown, ihbody, ih]

/-- A flow has the same defects, at the same paths, if the same texts are blank. -/
theorem findings_mapText (hg : Text.KeepsBlank g) (flow : Flow) :
  (flow.mapText g).findings = flow.findings
  :=
  flow.findingsFrom_mapText hg 0

theorem diagnostics_mapText (hg : Text.KeepsBlank g) (flow : Flow) :
  (flow.mapText g).diagnostics = flow.diagnostics
  := by
  rw [diagnostics, findings_mapText hg, diagnostics]

end Flow

/-! ### Suspensions -/

theorem Flow.suspends_mapText (flow : Flow) :
  (flow.mapText g).suspends = flow.suspends
  := by
  induction flow using Flow.induction with
  | nil => rfl
  | action text rest ih => simp only [mapText, Node.mapText, suspends, Node.suspends, ih]
  | suspend rest ih => simp only [mapText, Node.mapText, suspends, Node.suspends, ih]
  | branch polarity cond body otherwise rest ihbody ihotherwise ih =>
      simp only [mapText, Node.mapText, suspends, Node.suspends, ihbody, ihotherwise, ih]
  | loop counting cond body rest ihbody ih =>
      simp only [mapText, Node.mapText, suspends, Node.suspends, ihbody, ih]

/-- Whether a node suspends does not depend on texts. -/
theorem Node.suspends_mapText (node : Node) :
  (node.mapText g).suspends = node.suspends
  := by
  cases node with
  | action text => rfl
  | suspend => rfl
  | branch polarity cond body otherwise =>
      simp only [mapText, suspends, Flow.suspends_mapText]
  | loop counting cond body => simp only [mapText, suspends, Flow.suspends_mapText]

theorem Flow.map_suspends_mapText (flow : Flow) :
  (flow.mapText g).map Node.suspends = flow.map Node.suspends
  := by
  induction flow with
  | nil => rfl
  | cons node rest ih => rw [mapText, List.map_cons, ih, Node.suspends_mapText, List.map_cons]

namespace Flow

/-! ### Layout -/

theorem layout_mapText (flow : Flow) (origin : Nat) :
  (flow.mapText g).layout origin = (flow.layout origin).map (Op.mapText g)
  := by
  have hinit : ∀ counting : Option Counting,
      Counting.initOps (counting.map (Counting.mapText g))
        = (Counting.initOps counting).map (Op.mapText g) := by
    rintro (_ | ⟨_ | init, step⟩)
    · rfl
    · rfl
    · rfl
  have hstep : ∀ counting : Option Counting,
      Counting.stepOps (counting.map (Counting.mapText g))
        = (Counting.stepOps counting).map (Op.mapText g) := by
    rintro (_ | counting)
    · rfl
    · rfl
  induction flow using Flow.induction generalizing origin with
  | nil => rfl
  | action text rest ih =>
      simp [mapText, Node.mapText, layout, Node.layout, Op.mapText, ih]
  | suspend rest ih =>
      simp [mapText, Node.mapText, layout, Node.layout, Op.mapText, ih]
  | branch polarity cond body otherwise rest ihbody ihotherwise ih =>
      by_cases hempty : otherwise.isEmpty = true
      · simp [mapText, Node.mapText, layout, Node.layout, isEmpty_mapText, hempty, Op.mapText,
          ihbody, ih]
      · simp [mapText, Node.mapText, layout, Node.layout, isEmpty_mapText, hempty, Op.mapText,
          ihbody, ihotherwise, ih]
  | loop counting cond body rest ihbody ih =>
      simp [mapText, Node.mapText, layout, Node.layout, Op.mapText, hinit, hstep, ihbody, ih]

/-! ### Lowering -/

theorem code_mapText (flow : Flow) :
  (flow.mapText g).code = flow.code.mapText g
  := by
  rw [code, layout_mapText, code, Code.ofOps, Code.ofOps, Code.mapText,
    List.mapIdx_eq_zipIdx_map, List.mapIdx_eq_zipIdx_map, List.zipIdx_map, List.map_map,
    List.map_map]
  rfl

/-- The code of a flow has the texts of the flow, and a flow that is malformed is refused for the
same reason. -/
theorem linearize_mapText (hg : Text.KeepsBlank g) (flow : Flow) :
  (flow.mapText g).linearize = flow.linearize.map (Code.mapText g)
  := by
  by_cases h : flow.WellFormed
  · have h' : (flow.mapText g).WellFormed := by
      rw [WellFormed, findings_mapText hg]
      apply h
    rw [linearize_eq h', linearize_eq h, code_mapText]
    rfl
  · obtain ⟨finding, findings, hfindings⟩ := List.exists_cons_of_ne_nil h
    have hfindings' := findings_mapText hg flow
    rw [hfindings] at hfindings'
    simp only [linearize, hfindings, hfindings']
    rfl

theorem compress_linearize_mapText (hg : Text.KeepsBlank g) (flow : Flow) :
  ((flow.mapText g).linearize >>= Code.compress)
    = (flow.linearize >>= Code.compress).map (Code.mapText g)
  := by
  rw [linearize_mapText hg]
  cases flow.linearize with
  | error fault => rfl
  | ok code => apply Code.compress_mapText

theorem lower_mapText (hg : Text.KeepsBlank g) (flow : Flow) :
  (flow.mapText g).lower = flow.lower.map (Table.mapText g)
  := by
  have hlower : ∀ flow : Flow,
      flow.lower = (flow.linearize >>= Code.compress) >>= Code.partition := by
    intro flow
    rw [bind_assoc]
    rfl
  rw [hlower, compress_linearize_mapText hg, hlower]
  cases flow.linearize >>= Code.compress with
  | error fault => rfl
  | ok code => apply Code.partition_mapText

/-! ### Trimming -/

/-- Whichever nodes are built by the constructors that trim, trimming all texts leads to the same
flow. -/
theorem TrimsTo.mapText_eq {flow flow' : Flow} (h : flow.TrimsTo flow') :
  flow'.mapText Text.trim = flow.mapText Text.trim
  := by
  induction h with
  | nil => rfl
  | suspend _ ih => simp only [mapText, ih]
  | action text _ ih => simp only [mapText, ih]
  | act text _ ih => simp only [mapText, Node.act, Node.mapText, Text.trim_trim, ih]
  | branch polarity cond _ _ _ ihbody ihotherwise ih =>
      simp only [mapText, Node.mapText, ihbody, ihotherwise, ih]
  | when polarity cond _ _ _ ihbody ihotherwise ih =>
      simp only [mapText, Node.when, Node.mapText, Text.trim_trim, ihbody, ihotherwise, ih]
  | loop counting cond _ _ ihbody ih => simp only [mapText, Node.mapText, ihbody, ih]
  | counted init cond step _ _ ihbody ih =>
      have hinit : (init.map Text.trim).map Text.trim = init.map Text.trim := by
        have hcomp : Text.trim ∘ Text.trim = Text.trim := funext Text.trim_trim
        rw [Option.map_map, hcomp]
      simp only [mapText, Node.counted, Node.mapText, Option.map_some, Counting.mapText, hinit,
        Text.trim_trim, ihbody, ih]
  | whilst cond _ _ ihbody ih =>
      simp only [mapText, Node.whilst, Node.mapText, Option.map_none, Text.trim_trim, ihbody, ih]

/-- No stage of the lowering looks into texts. A flow in which the same texts are blank as before
has the same diagnostics, and each node suspends if it did; the code that it is linearized to has
the new texts in place of the old ones, or it is refused for the same reason. Compressing code and
cutting it commute with every change of texts. So whichever nodes of a flow are built by the
constructors that trim, nothing changes but the white space around texts. -/
theorem lowering_ignores_texts (hg : Text.KeepsBlank g) (flow : Flow) :
  (flow.mapText g).diagnostics = flow.diagnostics
  ∧ (∀ node : Node, (node.mapText g).suspends = node.suspends)
  ∧ (flow.mapText g).linearize = flow.linearize.map (Code.mapText g)
  ∧ (∀ (f : String → String) (code : Code),
    (code.mapText f).compress = code.compress.map (Code.mapText f)
    ∧ (code.mapText f).partition = code.partition.map (Table.mapText f))
  ∧ ∀ flow' : Flow, flow.TrimsTo flow' →
    flow'.diagnostics = flow.diagnostics
    ∧ flow'.map Node.suspends = flow.map Node.suspends
    ∧ flow'.linearize.map (Code.mapText Text.trim) = flow.linearize.map (Code.mapText Text.trim)
    ∧ (flow'.linearize >>= Code.compress).map (Code.mapText Text.trim)
      = (flow.linearize >>= Code.compress).map (Code.mapText Text.trim)
    ∧ flow'.lower.map (Table.mapText Text.trim) = flow.lower.map (Table.mapText Text.trim)
  := by
  refine ⟨diagnostics_mapText hg flow, Node.suspends_mapText, linearize_mapText hg flow, ?_, ?_⟩
  · intro f code
    exact ⟨code.compress_mapText f, code.partition_mapText f⟩
  · intro flow' htrims
    have htrim := Text.keepsBlank_trim
    have heq := htrims.mapText_eq
    refine ⟨?_, ?_, ?_, ?_, ?_⟩
    · rw [← diagnostics_mapText htrim, heq, diagnostics_mapText htrim]
    · rw [← map_suspends_mapText, heq, map_suspends_mapText]
    · rw [← linearize_mapText htrim, heq, linearize_mapText htrim]
    · rw [← compress_linearize_mapText htrim, heq, compress_linearize_mapText htrim]
    · rw [← lower_mapText htrim, heq, lower_mapText htrim]

/-- A change after which all texts are the same, and a branch that is built with its condition
trimmed. -/
theorem lowering_ignores_texts_uniform :
  let g : String → String := fun text => if Text.trim text = "" then "" else "x"
  let flow : Flow := [.loop (some ⟨some "i = 0", "i += 1"⟩) "i < n"
    [.branch .onFalse " c " [.action "a"] [.suspend]]]
  let flow' : Flow := [.loop (some ⟨some "i = 0", "i += 1"⟩) "i < n"
    [.when .onFalse " c " [.action "a"] [.suspend]]]
  Text.KeepsBlank g ∧ flow.TrimsTo flow'
    ∧ (flow.mapText g).diagnostics = flow.diagnostics
    ∧ (flow.mapText g).linearize = flow.linearize.map (Code.mapText g)
    ∧ (flow.linearize.map (Code.mapText g)).map (List.map Instr.op)
      = .ok [.action "x", .jumpIf "x" .onFalse 9, .jumpIf "x" .onTrue 5, .action "x", .jump 6,
        .suspend, .noop, .action "x", .jump 1, .noop]
    ∧ flow'.lower.map (Table.mapText Text.trim) = flow.lower.map (Table.mapText Text.trim)
  := by
  intro g flow flow'
  have hg : Text.KeepsBlank g := by
    intro text
    by_cases hblank : Text.trim text = ""
    · simp only [g, if_pos hblank, hblank]
      decide
    · simp only [g, if_neg hblank, hblank]
      decide
  have htrims : flow.TrimsTo flow' := by
    apply TrimsTo.loop _ _ _ .nil
    apply TrimsTo.when _ _ _ _ .nil
    · exact .action _ .nil
    · exact .suspend .nil
  obtain ⟨hdiagnostics, -, hlinearize, -, htrimmed⟩ := lowering_ignores_texts hg flow
  refine ⟨hg, htrims, hdiagnostics, hlinearize, ?_, (htrimmed flow' htrims).2.2.2.2⟩
  rw [linearize_eq (by decide)]
  decide

end Flow

end Resumable
