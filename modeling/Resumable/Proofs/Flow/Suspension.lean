import Resumable.Proofs.Lowering
import Resumable.Proofs.Machine.Progress
import Resumable.Script

/-!
# Which flows suspend

`Flow.suspends` looks for a suspension point and for nothing else, but it tells exactly whether
the machine over the table of the flow can suspend. Without a suspension point there is no
operation in the code that suspends (`Flow.suspend_not_mem_layout`), so no machine over the table
does. With one, some answers lead there: a flow without suspension points can be run through
(`Flow.exists_passesOn`), and the way to a suspension point leads through such flows and into arms
of branches and bodies of loops (`Flow.exists_suspendsOn`).
-/

universe u

namespace Resumable

open Process

theorem Polarity.exists_accepts_eq (polarity : Polarity) (taken : Bool) :
  ∃ holds, polarity.accepts holds = taken
  := by
  cases polarity with
  | onTrue => exact ⟨taken, rfl⟩
  | onFalse => exact ⟨!taken, Bool.not_not taken⟩

namespace Flow

/-- With these answers, the flow is run through without a suspension, and no answer is left. -/
def PassesOn (answers : List Bool) (flow : Flow) : Prop :=
  ∀ rest tail, ∃ calls,
    Moves Flow.next Host.answering (flow ++ rest) (answers ++ tail) calls rest tail

/-- With these answers, the flow is run up to a suspension. -/
def SuspendsOn (answers : List Bool) (flow : Flow) : Prop :=
  ∀ rest, ∃ calls left t,
    Advances Flow.next Host.answering (flow ++ rest) answers calls (.suspended left) t

variable {flow : Flow}

theorem suspends_eq_any (flow : Flow) :
  flow.suspends = flow.any Node.suspends
  := by
  induction flow with
  | nil => rfl
  | cons node flow ih => rw [suspends, ih, List.any_cons]

/-! ### Flows that do not suspend -/

/-- Only suspension points are laid out as suspensions. -/
theorem suspend_not_mem_layout (h : flow.suspends = false) (origin : Nat) :
  .suspend ∉ flow.layout origin
  := by
  induction flow using Flow.induction generalizing origin with
  | nil => simp [layout]
  | action text rest ih =>
      simp only [suspends, Node.suspends, Bool.false_or] at h
      simp [layout, Node.layout, ih h]
  | suspend rest ih => simp [suspends, Node.suspends] at h
  | branch polarity cond body otherwise rest ihbody ihotherwise ih =>
      simp only [suspends, Node.suspends, Bool.or_eq_false_iff] at h
      obtain ⟨⟨hbody, hotherwise⟩, hrest⟩ := h
      simp only [layout, Node.layout, List.mem_append]
      split
      · simp [ihbody hbody, ih hrest]
      · simp [ihbody hbody, ihotherwise hotherwise, ih hrest]
  | loop counting cond body rest ihbody ih =>
      simp only [suspends, Node.suspends, Bool.or_eq_false_iff] at h
      obtain ⟨hbody, hrest⟩ := h
      have hinit : .suspend ∉ Counting.initOps counting := by
        unfold Counting.initOps
        split
        · simp
        · simp
      have hstep : .suspend ∉ Counting.stepOps counting := by
        unfold Counting.stepOps
        split
        · simp
        · simp
      simp [layout, Node.layout, hinit, hstep, ihbody hbody, ih hrest]

/-- Compression does not bring suspensions in. -/
theorem not_placement_suspend (h : flow.suspends = false) (i : Nat) :
  ¬ flow.code.compact.placement i .suspend
  := by
  intro hplaced
  obtain ⟨kept, place, hrenumbers⟩ := flow.wellNumbered_code.exists_renumbers_compact
  obtain ⟨j, op, hop, -, -, hretarget⟩ := hrenumbers.exists_placement hplaced
  obtain rfl : op = .suspend := Op.eq_suspend_of_retarget hretarget.symm
  rw [placement_code] at hop
  apply suspend_not_mem_layout h 0 (Placement.mem_of_fromOps hop)

/-! ### Ways to a suspension -/

theorem moves_branch (polarity : Polarity) (cond : String) (body otherwise rest : Flow)
    (holds : Bool) (answers : List Bool) :
  Moves Flow.next Host.answering (.branch polarity cond body otherwise :: rest) (holds :: answers)
    [.evaluated cond holds] ((if polarity.accepts holds then body else otherwise) ++ rest) answers
  := by
  have hnext : next (.branch polarity cond body otherwise :: rest)
      = .evaluate cond fun holds => (if polarity.accepts holds then body else otherwise) ++ rest :=
    rfl
  apply Moves.head (.evaluate hnext) (.refl _ _)

/-- The answer to the condition of a loop starts a round, or leads behind the loop. -/
theorem exists_moves_loop (counting : Option Counting) (cond : String) (body rest : Flow)
    (holds : Bool) (answers : List Bool) :
  ∃ again calls, Moves Flow.next Host.answering (.loop counting cond body :: rest)
    (holds :: answers) calls (if holds then body ++ again else rest) answers
  := by
  have htest : ∀ {counting : Option Counting}, counting.bind Counting.init = none →
      Moves Flow.next Host.answering (.loop counting cond body :: rest) (holds :: answers)
        [.evaluated cond holds]
        (if holds then body ++ (Counting.steps counting ++ .loop counting cond body :: rest)
          else rest) answers := by
    intro counting hinit
    rw [← List.append_assoc]
    apply Moves.head (.evaluate (next_loop hinit)) (.refl _ _)
  cases hinit : counting.bind Counting.init with
  | none => exact ⟨_, _, htest hinit⟩
  | some init =>
      obtain ⟨step, rfl⟩ := Counting.exists_eq_of_init hinit
      exact ⟨_, _, .head (.perform rfl) (htest rfl)⟩

/-- There are answers that lead through a flow without suspension points. -/
theorem exists_passesOn (h : flow.suspends = false) :
  ∃ answers, flow.PassesOn answers
  := by
  induction flow using Flow.induction with
  | nil => exact ⟨[], fun rest tail => ⟨[], .refl rest tail⟩⟩
  | action text rest ih =>
      simp only [suspends, Node.suspends, Bool.false_or] at h
      obtain ⟨answers, hrest⟩ := ih h
      use answers
      intro later tail
      obtain ⟨calls, hmoves⟩ := hrest later tail
      exact ⟨_, .head (.perform rfl) hmoves⟩
  | suspend rest ih => simp [suspends, Node.suspends] at h
  | branch polarity cond body otherwise rest ihbody ihotherwise ih =>
      simp only [suspends, Node.suspends, Bool.or_eq_false_iff] at h
      obtain ⟨⟨hbody, hotherwise⟩, hrest⟩ := h
      -- Either arm can be run through, so the answer to the condition does not matter.
      have harm : ∃ answers,
          PassesOn answers (if polarity.accepts false then body else otherwise) := by
        split
        · exact ihbody hbody
        · exact ihotherwise hotherwise
      obtain ⟨inside, harm⟩ := harm
      obtain ⟨behind, hrest⟩ := ih hrest
      use false :: (inside ++ behind)
      intro later tail
      have htest := moves_branch polarity cond body otherwise (rest ++ later) false
        (inside ++ (behind ++ tail))
      obtain ⟨calls, hinside⟩ := harm (rest ++ later) (behind ++ tail)
      obtain ⟨calls', hbehind⟩ := hrest later tail
      rw [List.cons_append, List.cons_append, List.append_assoc]
      exact ⟨_, htest.trans (hinside.trans hbehind)⟩
  | loop counting cond body rest ihbody ih =>
      simp only [suspends, Node.suspends, Bool.or_eq_false_iff] at h
      obtain ⟨answers, hrest⟩ := ih h.2
      use false :: answers
      intro later tail
      obtain ⟨again, calls, htest⟩ :=
        exists_moves_loop counting cond body (rest ++ later) false (answers ++ tail)
      obtain ⟨calls', hbehind⟩ := hrest later tail
      exact ⟨_, htest.trans hbehind⟩

/-- The way to a suspension behind a node that does not suspend. -/
theorem exists_suspendsOn_cons {node : Node} {rest : Flow} (hnode : node.suspends = false)
    (hrest : ∃ answers, rest.SuspendsOn answers) :
  ∃ answers, SuspendsOn answers (node :: rest)
  := by
  have hpasses : ∃ answers, PassesOn answers [node] := by
    apply exists_passesOn
    simp only [suspends, hnode, Bool.or_false]
  obtain ⟨through, hpasses⟩ := hpasses
  obtain ⟨answers, hrest⟩ := hrest
  use through ++ answers
  intro later
  obtain ⟨calls, hmoves⟩ := hpasses (rest ++ later) answers
  obtain ⟨calls', left, t, hadvances⟩ := hrest later
  exact ⟨_, left, t, hmoves.advances hadvances⟩

/-- The way to a suspension in an arm of a branch, which is taken on one of the two answers. -/
theorem exists_suspendsOn_branch {body otherwise : Flow} (taken : Bool)
    (harm : ∃ answers, SuspendsOn answers (if taken then body else otherwise))
    (polarity : Polarity) (cond : String) (rest : Flow) :
  ∃ answers, SuspendsOn answers (.branch polarity cond body otherwise :: rest)
  := by
  obtain ⟨holds, rfl⟩ := polarity.exists_accepts_eq taken
  obtain ⟨answers, harm⟩ := harm
  use holds :: answers
  intro later
  obtain ⟨calls, left, t, hadvances⟩ := harm (rest ++ later)
  have htest := moves_branch polarity cond body otherwise (rest ++ later) holds answers
  exact ⟨_, left, t, htest.advances hadvances⟩

/-- The way to a suspension in the body of a loop. -/
theorem exists_suspendsOn_loop {body : Flow} (hbody : ∃ answers, body.SuspendsOn answers)
    (counting : Option Counting) (cond : String) (rest : Flow) :
  ∃ answers, SuspendsOn answers (.loop counting cond body :: rest)
  := by
  obtain ⟨answers, hbody⟩ := hbody
  use true :: answers
  intro later
  obtain ⟨again, calls, htest⟩ :=
    exists_moves_loop counting cond body (rest ++ later) true answers
  obtain ⟨calls', left, t, hadvances⟩ := hbody again
  exact ⟨_, left, t, htest.advances hadvances⟩

/-- There are answers that lead to a suspension point. -/
theorem exists_suspendsOn (h : flow.suspends = true) :
  ∃ answers, flow.SuspendsOn answers
  := by
  induction flow using Flow.induction with
  | nil => cases h
  | action text rest ih =>
      simp only [suspends, Node.suspends, Bool.false_or] at h
      exact exists_suspendsOn_cons rfl (ih h)
  | suspend rest ih => exact ⟨[], fun later => ⟨_, _, _, .suspend rfl⟩⟩
  | branch polarity cond body otherwise rest ihbody ihotherwise ih =>
      cases hbody : body.suspends with
      | true => exact exists_suspendsOn_branch true (ihbody hbody) polarity cond rest
      | false =>
          cases hotherwise : otherwise.suspends with
          | true => exact exists_suspendsOn_branch false (ihotherwise hotherwise) polarity cond rest
          | false =>
              simp only [suspends, Node.suspends, hbody, hotherwise, Bool.false_or] at h
              apply exists_suspendsOn_cons _ (ih h)
              simp only [Node.suspends, hbody, hotherwise, Bool.or_false]
  | loop counting cond body rest ihbody ih =>
      cases hbody : body.suspends with
      | true => exact exists_suspendsOn_loop (ihbody hbody) counting cond rest
      | false =>
          simp only [suspends, Node.suspends, hbody, Bool.false_or] at h
          apply exists_suspendsOn_cons _ (ih h)
          rw [Node.suspends, hbody]

/-! ### Machines over the table of a flow -/

open Machine

variable {σ : Type u} {host : Host σ} {fuel : Nat} {s : σ}

/-- Wherever its counter stands, a machine over the table of a flow without suspension points does
not suspend. -/
theorem resume_ne_suspended (h : flow.suspends = false) {machine : Machine}
    (htable : machine.table = flow.code.compact.table) {outcome : Outcome Resumption σ}
    (hresume : machine.resume host fuel s = some outcome) :
  outcome.result ≠ .ok .suspended
  := by
  intro hsuspended
  rw [resume, htable, flow.wellNumbered_code.compact.next_table] at hresume
  split at hresume
  · cases hresume
    cases hsuspended
  · split at hresume
    · obtain ⟨⟨stop, t⟩, hadvance, rfl⟩ := Option.map_eq_some_iff.mp hresume
      obtain ⟨calls, hadvances⟩ := exists_advances hadvance
      cases stop with
      | ended ending =>
          cases ending with
          | finished => cases hsuspended
          | strayed => cases hsuspended
      | suspended next =>
          obtain ⟨i, instr, hinstr, hop, -⟩ := Code.exists_suspend_of_advances hadvances
          apply not_placement_suspend h i ⟨instr, hinstr, hop⟩
    · cases hresume
      cases hsuspended

/-- The machine over the table of a well formed flow can suspend just if the flow has a suspension
point. If it has none, then no resume of a machine over the table suspends, and the first one
completes if it returns. If there is one, then there are answers to the conditions with which the
first resume suspends. -/
theorem WellFormed.resume_lower_suspends (h : flow.WellFormed) :
  ∃ table, flow.lower = .ok table
    ∧ ((∀ node ∈ flow, node.suspends = false) →
      ∀ {σ : Type u} (host : Host σ) (fuel : Nat) (s : σ) (outcome : Outcome Resumption σ),
        (∀ machine : Machine, machine.table = table →
          machine.resume host fuel s = some outcome → outcome.result ≠ .ok .suspended)
        ∧ ((ofTable table).resume host fuel s = some outcome → outcome.result = .ok .completed))
    ∧ ((∃ node ∈ flow, node.suspends = true) →
      ∃ answers fuel machine rest,
        (ofTable table).resume Host.answering fuel answers = some ⟨.ok .suspended, machine, rest⟩)
  := by
  use flow.code.compact.table, lower_eq h
  constructor
  · intro hnodes σ host fuel s outcome
    have hflow : flow.suspends = false := by
      rw [suspends_eq_any, List.any_eq_false]
      intro node hmem
      rw [hnodes node hmem]
      exact Bool.false_ne_true
    constructor
    · intro machine htable hresume
      exact resume_ne_suspended hflow htable hresume
    · intro hresume
      have hgoes := GoesOnWith.ofTable.{u} flow
      rcases hgoes.exists_advances hresume with ⟨hcompleted, -⟩ | ⟨hsuspended, -⟩
      · exact hcompleted
      · exact absurd hsuspended (resume_ne_suspended hflow rfl hresume)
  · intro hnode
    have hflow : flow.suspends = true := by
      rw [suspends_eq_any, List.any_eq_true]
      exact hnode
    obtain ⟨answers, hsuspends⟩ := exists_suspendsOn hflow
    obtain ⟨calls, left, rest, hadvances⟩ := hsuspends []
    rw [List.append_nil] at hadvances
    obtain ⟨fuel, machine, hresume, -⟩ := (GoesOnWith.ofTable flow).resume_suspended hadvances
    exact ⟨answers, fuel, machine, rest, hresume⟩

/-- A suspension in a loop, in the arm that a branch takes if its condition does not hold, behind a
loop that does not suspend. -/
theorem WellFormed.resume_lower_suspends_nested :
  let flow : Flow := [.loop none "busy" [.action "wait"],
    .loop (some ⟨some "i = 0", "i += 1"⟩) "i < n"
      [.branch .onTrue "done" [.action "stop"] [.suspend]]]
  let silent : Flow := [.loop none "busy" [.action "wait"]]
  flow.WellFormed ∧ silent.WellFormed
    ∧ (∃ table, flow.lower = .ok table ∧ ∃ answers fuel machine rest,
      (ofTable table).resume Host.answering fuel answers = some ⟨.ok .suspended, machine, rest⟩)
    ∧ ∃ table, silent.lower = .ok table ∧ ∀ fuel answers outcome,
      (ofTable table).resume Host.answering fuel answers = some outcome →
      outcome.result = .ok .completed
  := by
  intro flow silent
  have hflow : flow.WellFormed := by decide
  have hsilent : silent.WellFormed := by decide
  obtain ⟨table, hlower, -, hsuspends⟩ := resume_lower_suspends.{0} hflow
  obtain ⟨table', hlower', hcompletes, -⟩ := resume_lower_suspends.{0} hsilent
  refine ⟨hflow, hsilent, ⟨table, hlower, hsuspends (by decide)⟩, table', hlower', ?_⟩
  intro fuel answers outcome
  exact (hcompletes (by decide) Host.answering fuel answers outcome).2

end Flow

end Resumable
