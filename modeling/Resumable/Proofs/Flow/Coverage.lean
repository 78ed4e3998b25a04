import Resumable.Proofs.Flow.Suspension

/-!
# Lowered flows have no dead code

The answers of a host decide which way a process goes. `Process.Reaches` says that there is a way
from one state to another, and a host that gives the answers of a list can be made to take it
(`Reaches.exists_visits`), with as many resumes as there are suspensions on the way.

In the code of a flow there is a way from its start to every address (`Flow.covers_layout`): an arm
of a branch is entered from the test in front of it, and what is behind a loop from the test of the
loop. Renumbering keeps ways (`Renumbers.reaches`), so there is a way to every instruction of the
compressed code as well.
-/

universe u v

namespace Resumable

/-- Where a request leads, a request for the same leads to a related state. -/
theorem Request.Rel.exists_leadsTo {α : Type u} {β : Type v} {R : α → β → Prop}
    {request : Request α} {request' : Request β} (h : Request.Rel R request request') {a : α}
    (hleads : request.LeadsTo a) :
  ∃ b, request'.LeadsTo b ∧ R a b
  := by
  cases h with
  | finish => cases hleads
  | stray => cases hleads
  | silent h =>
      cases hleads
      exact ⟨_, rfl, h⟩
  | perform action h =>
      cases hleads
      exact ⟨_, rfl, h⟩
  | evaluate condition h =>
      obtain ⟨holds, rfl⟩ := hleads
      exact ⟨_, ⟨holds, rfl⟩, h holds⟩
  | suspend h =>
      cases hleads
      exact ⟨_, rfl, h⟩

/-! ### Ways of a process -/

namespace Process

/-- There is a way for the process from one state to the other. -/
def Reaches {α : Type u} (process : Process α) : α → α → Prop :=
  Relation.ReflTransGen fun a b => (process a).LeadsTo b

/-- From the state `a`, on the host in state `s`, the process comes to the state `b` before it
stops, or it suspends and comes to it from where it goes on then. -/
inductive Visits {α : Type u} {σ : Type v} (process : Process α) (host : Host σ) (b : α) :
    α → σ → Prop where
  | now {a : α} {s t : σ} {calls : List Call} :
      Moves process host a s calls b t → Visits process host b a s
  | later {a a' : α} {s s' : σ} {calls : List Call} :
      Advances process host a s calls (.suspended a') s' → Visits process host b a' s' →
      Visits process host b a s

variable {α : Type u} {σ : Type v} {process : Process α} {host : Host σ} {a a' b : α} {s s' : σ}

theorem Visits.move {now : List Call} (hmove : Move process host a s now a' s')
    (h : Visits process host b a' s') :
  Visits process host b a s
  := by
  cases h with
  | now hmoves => exact .now (.head hmove hmoves)
  | later hadvances hlater => exact .later (.move hmove hadvances) hlater

/-- If there is a way to a state, then the process takes it with some answers. -/
theorem Reaches.exists_visits (h : Reaches process a b) :
  ∃ answers, Visits process Host.answering b a answers
  := by
  induction h using Relation.ReflTransGen.head_induction_on with
  | refl => exact ⟨[], .now (.refl b [])⟩
  | @head a c hleads _ ih =>
      obtain ⟨answers, hvisits⟩ := ih
      cases ha : process a with
      | finish =>
          rw [ha] at hleads
          cases hleads
      | stray =>
          rw [ha] at hleads
          cases hleads
      | silent next =>
          rw [ha] at hleads
          cases hleads
          exact ⟨answers, hvisits.move (.silent ha)⟩
      | perform action next =>
          rw [ha] at hleads
          cases hleads
          exact ⟨answers, hvisits.move (.perform ha)⟩
      | evaluate condition next =>
          rw [ha] at hleads
          obtain ⟨holds, rfl⟩ := hleads
          exact ⟨holds :: answers, hvisits.move (.evaluate ha)⟩
      | suspend next =>
          rw [ha] at hleads
          cases hleads
          exact ⟨answers, .later (.suspend ha) hvisits⟩

end Process

/-! ### Ways through code -/

namespace Code

open Process

variable {code code' : Code} {first middle last : Nat}

/-- There are ways from the first address to all addresses up to the last one. -/
structure Covers (code : Code) (first last : Nat) : Prop where
  le : first ≤ last
  reaches : ∀ i, first ≤ i → i ≤ last → Reaches code.next first i

theorem Covers.refl (code : Code) (first : Nat) :
  Covers code first first
  := by
  use Nat.le_refl first
  intro i hlo hhi
  obtain rfl := Nat.le_antisymm hlo hhi
  apply Relation.ReflTransGen.refl

theorem Covers.trans (h : Covers code first middle) (h' : Covers code middle last) :
  Covers code first last
  := by
  use Nat.le_trans h.le h'.le
  intro i hlo hhi
  rcases Nat.le_total i middle with hle | hle
  · apply h.reaches i hlo hle
  · apply Relation.ReflTransGen.trans (h.reaches middle h.le (Nat.le_refl middle))
    apply h'.reaches i hle hhi

/-- One more address is covered if an operation at the first one leads there. -/
theorem Covers.succ (h : Covers code first last) (hleads : (code.next first).LeadsTo (last + 1)) :
  Covers code first (last + 1)
  := by
  use Nat.le_succ_of_le h.le
  intro i hlo hhi
  rcases Nat.le_or_eq_of_le_succ hhi with hle | rfl
  · apply h.reaches i hlo hle
  · apply Relation.ReflTransGen.single hleads

/-- An operation other than a jump may go on at the next address. -/
theorem leadsTo_succ {op : Op} (h : ∀ target, op ≠ .jump target) (address : Nat) :
  (op.request address).LeadsTo (address + 1)
  := by
  cases op with
  | action text => rfl
  | suspend => rfl
  | noop => rfl
  | jump target => exact absurd rfl (h target)
  | jumpIf cond polarity target =>
      obtain ⟨holds, hholds⟩ := polarity.exists_accepts_eq false
      use holds
      simp [hholds]

theorem leadsTo_target (address : Nat) (cond : String) (polarity : Polarity) (target : Nat) :
  (Op.request address (.jumpIf cond polarity target)).LeadsTo target
  := by
  obtain ⟨holds, hholds⟩ := polarity.exists_accepts_eq true
  use holds
  simp [hholds]

theorem Covers.op {op : Op} (hnext : code.next first = op.request first)
    (hop : ∀ target, op ≠ .jump target) :
  Covers code first (first + 1)
  := by
  apply (Covers.refl code first).succ
  rw [hnext]
  apply leadsTo_succ hop

/-- A way stays one when addresses are moved: a removed instruction leads to an address that is
moved to the same place. -/
theorem Renumbers.reaches {kept : Nat → Prop} {place : Nat → Nat}
    (h : Renumbers code code' kept place) (hcode : code.WellNumbered) {i j : Nat}
    (hi : i ≤ code.length) (hreaches : Reaches code.next i j) :
  Reaches code'.next (place i) (place j)
  := by
  induction hreaches using Relation.ReflTransGen.head_induction_on with
  | refl => apply Relation.ReflTransGen.refl
  | @head i k hleads _ ih =>
      have hrest := ih (hcode.le_of_leadsTo hleads)
      rcases h.rel_next_or_silent hcode hi with hrel | ⟨next, hsilent, -, -, hplace⟩
      · obtain ⟨_, hleads', -, rfl⟩ := hrel.exists_leadsTo hleads
        apply Relation.ReflTransGen.head hleads' hrest
      · rw [hsilent] at hleads
        cases hleads
        rw [hplace]
        apply hrest

end Code

/-! ### Ways through the code of a flow -/

namespace Flow

open Process Code

variable {code : Code} {origin : Nat}

theorem covers_stepOps {counting : Option Counting}
    (h : Holds code origin (Counting.stepOps counting)) :
  Covers code origin (origin + (Counting.stepOps counting).length)
  := by
  cases counting with
  | none => apply Covers.refl
  | some counting =>
      apply Covers.op h.1
      rintro _ ⟨⟩

theorem covers_layout_branch {polarity : Polarity} {cond : String} {body otherwise : Flow}
    (hbody : ∀ origin, Holds code origin (layout origin body) →
      Covers code origin (origin + (layout origin body).length))
    (hotherwise : ∀ origin, Holds code origin (layout origin otherwise) →
      Covers code origin (origin + (layout origin otherwise).length))
    (h : Holds code origin (Node.layout origin (.branch polarity cond body otherwise))) :
  Covers code origin
    (origin + (Node.layout origin (.branch polarity cond body otherwise)).length)
  := by
  obtain ⟨-, stop, hstop, hend, hlayout⟩ | ⟨-, start, stop, hstart, hstop, hend, hlayout⟩ :=
    Node.layout_branch_cases origin polarity cond body otherwise
  · rw [hend]
    rw [hlayout] at h
    simp only [holds_cons, holds_append, hstop] at h
    obtain ⟨htest, hfirst, hnoop, -⟩ := h
    have hinner := hbody (origin + 1) hfirst
    rw [hstop] at hinner
    apply Covers.trans
    · apply Covers.op htest
      rintro _ ⟨⟩
    · apply hinner.trans
      apply Covers.op hnoop
      rintro _ ⟨⟩
  · rw [hend]
    rw [hlayout] at h
    simp only [holds_cons, holds_append, hstart, hstop] at h
    obtain ⟨htest, hfirst, -, hsecond, hnoop, -⟩ := h
    have hbehind : Covers code origin (origin + 1 + (layout (origin + 1) body).length) := by
      apply Covers.trans _ (hbody (origin + 1) hfirst)
      apply Covers.op htest
      rintro _ ⟨⟩
    -- the second arm is entered from the test, over the jump behind the first one
    have hskip : Covers code origin start := by
      rw [← hstart]
      apply hbehind.succ
      rw [hstart, htest]
      apply leadsTo_target
    have hinner := hotherwise start hsecond
    rw [hstop] at hinner
    apply hskip.trans
    apply hinner.trans
    apply Covers.op hnoop
    rintro _ ⟨⟩

theorem covers_layout_loop {counting : Option Counting} {cond : String} {body : Flow}
    (hinit : counting.bind Counting.init = none)
    (hbody : ∀ origin, Holds code origin (layout origin body) →
      Covers code origin (origin + (layout origin body).length))
    (h : Holds code origin (Node.layout origin (.loop counting cond body))) :
  Covers code origin (origin + (Node.layout origin (.loop counting cond body)).length)
  := by
  obtain ⟨back, hback, hend, hlayout⟩ := Node.exists_layout_loop hinit origin cond body
  rw [hend]
  rw [hlayout] at h
  simp only [holds_cons, holds_append, hback] at h
  obtain ⟨htest, hinner, hstep, -, hnoop, -⟩ := h
  have hround : Covers code origin back := by
    rw [← hback]
    apply Covers.trans
    · apply Covers.op htest
      rintro _ ⟨⟩
    · apply (hbody (origin + 1) hinner).trans (covers_stepOps hstep)
  -- what is behind the loop is entered from the test, over the jump back
  have hbehind : Covers code origin (back + 1) := by
    apply hround.succ
    rw [htest]
    apply leadsTo_target
  apply hbehind.trans
  apply Covers.op hnoop
  rintro _ ⟨⟩

theorem covers_layout_cons {node : Node} {rest : Flow}
    (hnode : Holds code origin (node.layout origin) →
      Covers code origin (origin + (node.layout origin).length))
    (hrest : ∀ origin, Holds code origin (layout origin rest) →
      Covers code origin (origin + (layout origin rest).length))
    (h : Holds code origin (layout origin (node :: rest))) :
  Covers code origin (origin + (layout origin (node :: rest)).length)
  := by
  rw [layout, holds_append] at h
  rw [layout, List.length_append, ← Nat.add_assoc]
  apply (hnode h.1).trans (hrest _ h.2)

/-- From the address of the first operation of a flow there are ways to all its operations, and to
the address behind them. -/
theorem covers_layout (flow : Flow) (origin : Nat) (h : Holds code origin (flow.layout origin)) :
  Covers code origin (origin + (flow.layout origin).length)
  := by
  induction flow using Flow.induction generalizing origin with
  | nil => apply Covers.refl
  | action text rest hrest =>
      apply covers_layout_cons _ hrest h
      intro hnode
      apply Covers.op hnode.1
      rintro _ ⟨⟩
  | suspend rest hrest =>
      apply covers_layout_cons _ hrest h
      intro hnode
      apply Covers.op hnode.1
      rintro _ ⟨⟩
  | branch polarity cond body otherwise rest hbody hotherwise hrest =>
      apply covers_layout_cons _ hrest h
      apply covers_layout_branch hbody hotherwise
  | loop counting cond body rest hbody hrest =>
      apply covers_layout_cons _ hrest h
      intro hnode
      cases hinit : counting.bind Counting.init with
      | none => apply covers_layout_loop hinit hbody hnode
      | some init =>
          obtain ⟨step, rfl⟩ := Counting.exists_eq_of_init hinit
          rw [Node.layout_loop_init] at hnode ⊢
          rw [List.length_cons, Nat.add_comm _ 1, ← Nat.add_assoc]
          apply Covers.trans _ (covers_layout_loop rfl hbody hnode.2)
          apply Covers.op hnode.1
          rintro _ ⟨⟩

/-- There is a way from the start of the compressed code of a flow to each of its instructions. -/
theorem reaches_compact (flow : Flow) {i : Nat} (hi : i < flow.code.compact.length) :
  Reaches flow.code.compact.next 0 i
  := by
  have hcode := flow.wellNumbered_code
  obtain ⟨kept, place, hrenumbers⟩ := hcode.exists_renumbers_compact
  obtain ⟨j, hj, -, rfl⟩ := hrenumbers.exists_place_eq hi
  have hcovers := flow.covers_layout 0 (holds_ofOps (flow.layout 0))
  rw [Nat.zero_add, ← length_ofOps] at hcovers
  have hreaches := hcovers.reaches j (Nat.zero_le j) (Nat.le_of_lt hj)
  rw [← hrenumbers.place_zero]
  apply hrenumbers.reaches hcode (Nat.zero_le _) hreaches

end Flow

/-! ### Machines over the table of a flow -/

/-- What the operation at an address does on a host: it suspends, or goes on from an address as
`next` says. -/
def Op.execute {σ : Type u} (host : Host σ) (address : Nat) (s : σ)
    (next : Nat → σ → Option (Process.Stop Nat × σ)) : Op → Option (Process.Stop Nat × σ)
  | .action text => next (address + 1) (host.perform text s)
  | .suspend => some (.suspended (address + 1), host.suspend s)
  | .noop => next (address + 1) s
  | .jumpIf cond polarity target =>
    let answer := host.evaluate cond s
    next (if polarity.accepts answer.1 then target else address + 1) answer.2
  | .jump target => next target s

theorem Process.advance_succ_of_request {σ : Type u} {process : Process Nat} {op : Op}
    {address : Nat} (h : process address = op.request address) (host : Host σ) (fuel : Nat)
    (s : σ) :
  advance process host (fuel + 1) address s
    = op.execute host address s (advance process host fuel)
  := by
  rw [advance, h]
  cases op with
  | action text => rfl
  | suspend => rfl
  | noop => rfl
  | jumpIf cond polarity target => rfl
  | jump target => rfl

namespace Machine

open Process

variable {σ : Type u} {host : Host σ} {code : Code} {machine : Machine} {start i : Nat} {s t : σ}
  {op : Op} {calls : List Call}

/-- The machine can be resumed, and on the host in state `s` the resume comes to the operation at
the address: it makes some calls on the way and, whatever number of steps it may take then, goes on
with what the operation does. -/
def ComesTo (host : Host σ) (machine : Machine) (s : σ) (address : Nat) (op : Op) : Prop :=
  ∃ start calls t, machine.counter = .ready start ∧ canResumeAt machine.table start
    ∧ Moves machine.table.next host start s calls address t
    ∧ ∃ steps, ∀ fuel, machine.resume host.recorded (steps + fuel + 1) (s, #[])
      = (op.execute host.recorded address (t, calls.toArray)
          (advance machine.table.next host.recorded fuel)).map machine.ofStop

/-- A resume that may take enough steps makes the moves that there are from its start, with their
calls, and then does what the operation does that they lead to. -/
theorem exists_resume_eq_execute (hcounter : machine.counter = .ready start)
    (hresume : canResumeAt machine.table start)
    (hmoves : Moves machine.table.next host start s calls i t)
    (hop : machine.table.next i = op.request i) :
  ∃ steps, ∀ fuel, machine.resume host.recorded (steps + fuel + 1) (s, #[])
    = (op.execute host.recorded i (t, calls.toArray)
        (advance machine.table.next host.recorded fuel)).map machine.ofStop
  := by
  have hrecorded := hmoves.recorded #[]
  rw [Array.empty_append] at hrecorded
  obtain ⟨steps, hsteps⟩ := hrecorded.exists_advance_eq
  use steps
  intro fuel
  rw [resume, hcounter]
  dsimp only
  rw [if_pos hresume, Nat.add_assoc, hsteps, advance_succ_of_request hop]

/-- If the code comes to an operation, then a machine that executes it does after some resumes. -/
theorem Executes.exists_comesTo (h : Executes code machine)
    (hcounter : machine.counter = .ready start) (hop : code.next i = op.request i)
    (hvisits : Visits code.next host i start s) :
  ∃ episodes after t, History host machine s episodes after t
    ∧ (∀ episode ∈ episodes, episode.result = .ok .suspended) ∧ after.ComesTo host t i op
  := by
  induction hvisits generalizing machine with
  | @now start s t calls hmoves =>
      have hresume := h.canResume start hcounter
      rw [← h.table_eq] at hresume
      rw [← h.wellNumbered.next_table, ← h.table_eq] at hmoves hop
      exact ⟨[], machine, s, .nil machine s, List.forall_mem_nil _, start, calls, t, hcounter,
        hresume, hmoves, exists_resume_eq_execute hcounter hresume hmoves hop⟩
  | @later start next s s' calls hadvances _ ih =>
      obtain ⟨fuel, hresume⟩ := h.exists_resume hcounter hadvances.recorded
      obtain ⟨episodes, after, t, hhistory, hsuspended, hcomes⟩ :=
        ih (h.of_suspended hadvances) rfl
      refine ⟨_, after, t, .cons hresume hhistory, ?_, hcomes⟩
      rw [List.forall_mem_cons]
      exact ⟨rfl, hsuspended⟩

end Machine

namespace Flow

open Machine

variable {flow : Flow}

/-- No instruction that a well formed flow is lowered to is dead: there are answers with which the
machine over the table of the flow suspends some times and then, when it is resumed once more,
comes to the instruction and executes it. -/
theorem WellFormed.lower_comesTo (h : flow.WellFormed) :
  ∃ linear code table, flow.linearize = .ok linear ∧ linear.compress = .ok code
    ∧ code.partition = .ok table
    ∧ ∀ (i : Nat) (instr : Instr), code[i]? = some instr →
      table.next i = instr.op.request i
      ∧ ∃ answers episodes machine rest,
        History Host.answering (ofTable table) answers episodes machine rest
        ∧ (∀ episode ∈ episodes, episode.result = .ok .suspended)
        ∧ machine.ComesTo Host.answering rest i instr.op
  := by
  have hcode := flow.wellNumbered_code
  have hcompact := hcode.compact
  refine ⟨flow.code, flow.code.compact, flow.code.compact.table, linearize_eq h,
    hcode.compress_eq, hcompact.partition_eq, ?_⟩
  intro i instr hinstr
  have hop := Code.next_of_getElem? hinstr
  constructor
  · rw [hcompact.next_table]
    apply hop
  · have hreaches := flow.reaches_compact (List.getElem?_eq_some_iff.mp hinstr).1
    obtain ⟨answers, hvisits⟩ := hreaches.exists_visits
    use answers
    apply (Executes.ofTable hcompact).exists_comesTo _ hop hvisits
    apply congrArg Counter.ready hcompact.start_table

/-- The second arm of a branch behind a suspension in a loop, which the machine comes to when it is
resumed again. -/
theorem WellFormed.lower_comesTo_second_arm :
  let flow : Flow := [.loop none "a"
    [.suspend, .branch .onTrue "b" [.action "x"] [.action "y"]]]
  flow.WellFormed ∧ ∃ linear code table, flow.linearize = .ok linear
    ∧ linear.compress = .ok code ∧ code.partition = .ok table
    ∧ code[5]? = some ⟨5, .action "y", true⟩
    ∧ ∃ answers episodes machine rest,
      History Host.answering (ofTable table) answers episodes machine rest
      ∧ (∀ episode ∈ episodes, episode.result = .ok .suspended)
      ∧ machine.ComesTo Host.answering rest 5 (.action "y")
  := by
  intro flow
  have hflow : flow.WellFormed := by decide
  obtain ⟨linear, code, table, hlinear, hcompress, hpartition, hcomes⟩ := lower_comesTo hflow
  have hinstr : code[5]? = some ⟨5, .action "y", true⟩ := by
    rw [(hflow.eq_compact hlinear hcompress hpartition).1]
    decide
  exact ⟨hflow, linear, code, table, hlinear, hcompress, hpartition, hinstr, (hcomes 5 _ hinstr).2⟩

end Flow

end Resumable
