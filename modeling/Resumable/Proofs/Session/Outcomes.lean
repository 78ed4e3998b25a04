import Resumable.Session
import Resumable.Proofs.Lowering

/-!
# What the operations of a session do

`Step.Gives` says what comes of a step in a session: its result, and what it does to the reporter.
Such a step leaves the settings alone, and all that it writes are notices about its progress, if the
session is verbose. Steps are put together with `Gives.bind`, `Gives.bind_error` and
`Gives.andThen`, so one lemma for each of them says all of this.

`Operation.exists_outcome` says the same of the operations. What an operation answers depends on the
settings and on the reporter only (`Operation.answer`), and it changes each of the two on its own
(`Operation.settings`, `Operation.report`).
-/

namespace Resumable

/-- The notices about progress. -/
def Notice.isProgress : Notice → Bool
  | diagnostics _ => false
  | _ => true

/-- The listing of what the flow is lowered to at the stage. -/
def Flow.listing (flow : Flow) : Stage → Except Fault String
  | .linear => return (← flow.linearize).listing
  | .compressed => return (← (← flow.linearize).compress).listing
  | .subroutines => return (← flow.lower).listing

theorem Flow.listing_eq (flow : Flow) (stage : Stage) :
  flow.listing stage
    = do
      let linear ← flow.linearize
      if stage = .linear then return linear.listing
      let compressed ← linear.compress
      if stage = .compressed then return compressed.listing
      let table ← compressed.partition
      return table.listing
  := by
  cases stage with
  | linear => rfl
  | compressed => rfl
  | subroutines =>
      rw [listing, lower]
      simp only [bind_assoc]
      rfl

section Checks

variable {α β : Type}

/-- The result of a step that checks the flow first. -/
def Reporter.afterCheck (r : Reporter) (flow : Flow) (result : Except SessionError α) :
    Except SessionError α :=
  if (r.emitAll flow.diagnostics).hasErrors then .error .rejected else result

theorem Reporter.map_afterCheck (f : α → β) (r : Reporter) (flow : Flow)
    (result : Except SessionError α) :
  (r.afterCheck flow result).map f = r.afterCheck flow (result.map f)
  := by
  apply apply_ite

end Checks

namespace Step

variable {α β : Type}

/-- The result of a step in a session, and the session after it. -/
def outcome (step : Step α) (session : Session) : Except SessionError α × Session :=
  match step session with
  | .ok a after => (.ok a, after)
  | .error error after => (.error error, after)

/-- In the session, the step has this result and leaves the reporter like this. The settings are the
same afterwards, and nothing is written but progress, if the session is verbose. -/
def Gives (step : Step α) (session : Session) (result : Except SessionError α)
    (reporter : Reporter) : Prop :=
  ∃ told, step.outcome session
      = (result, { session with reporter := reporter, notices := session.notices ++ told })
    ∧ ∀ notice ∈ told, notice.isProgress ∧ session.config.verbose

variable {step : Step α} {next : α → Step β} {session : Session} {reporter reporter' : Reporter}

theorem outcome_bind (step : Step α) (next : α → Step β) (session : Session) :
  outcome (step >>= next) session
    = match step.outcome session with
      | (.ok a, after) => (next a).outcome after
      | (.error error, after) => (.error error, after)
  := by
  change outcome (EStateM.bind step next) session = _
  unfold outcome EStateM.bind
  cases step session with
  | ok a after => rfl
  | error error after => rfl

namespace Gives

theorem of_outcome {result : Except SessionError α}
    (h : step.outcome session = (result, { session with reporter := reporter })) :
  step.Gives session result reporter
  := by
  use []
  rw [List.append_nil]
  exact ⟨h, List.forall_mem_nil _⟩

theorem pure (a : α) (session : Session) :
  Gives (Pure.pure a) session (.ok a) session.reporter
  := of_outcome rfl

theorem throw (error : SessionError) (session : Session) :
  Gives (α := α) (throwThe SessionError error) session (.error error) session.reporter
  := of_outcome rfl

theorem get_bind {next : Session → Step α} {result : Except SessionError α}
    (h : (next session).Gives session result reporter) :
  Gives (get >>= next) session result reporter
  := h

/-- After a step with a result, the next one goes on with the same settings. -/
theorem bind {a : α} {result : Except SessionError β} (h : step.Gives session (.ok a) reporter)
    (hnext : ∀ after : Session, after.config = session.config → after.reporter = reporter →
      (next a).Gives after result reporter') :
  Gives (step >>= next) session result reporter'
  := by
  obtain ⟨told, houtcome, htold⟩ := h
  obtain ⟨told', houtcome', htold'⟩ := hnext
    { session with reporter := reporter, notices := session.notices ++ told } rfl rfl
  use told ++ told'
  rw [outcome_bind, houtcome]
  constructor
  · rw [← List.append_assoc]
    apply houtcome'
  · rw [List.forall_mem_append]
    exact ⟨htold, htold'⟩

/-- After a step that failed, there is no next one. -/
theorem bind_error {error : SessionError} (h : step.Gives session (.error error) reporter) :
  Gives (step >>= next) session (.error error) reporter
  := by
  obtain ⟨told, houtcome, htold⟩ := h
  use told
  rw [outcome_bind, houtcome]
  exact ⟨rfl, htold⟩

/-- Stages that are done one after the other stop at the first fault. -/
theorem andThen {r : Except Fault α} {f : α → Except Fault β}
    (h : step.Gives session (r.mapError .fault) reporter)
    (hnext : ∀ a, ∀ after : Session, after.config = session.config → after.reporter = reporter →
      (next a).Gives after ((f a).mapError .fault) reporter) :
  Gives (step >>= next) session ((r >>= f).mapError .fault) reporter
  := by
  cases r with
  | ok a => apply h.bind (hnext a)
  | error fault => apply h.bind_error

theorem map {result : Except SessionError α} (f : α → β)
    (h : step.Gives session result reporter) :
  Gives (do return f (← step)) session (result.map f) reporter
  := by
  cases result with
  | ok a =>
      apply h.bind
      rintro after _ rfl
      apply Gives.pure
  | error error => apply h.bind_error

end Gives

end Step

namespace Session

open Step

variable {α : Type}

theorem gives_tell {notice : Notice} (h : notice.isProgress) (session : Session) :
  (tell notice).Gives session (.ok ()) session.reporter
  := by
  apply Gives.get_bind
  split
  case isTrue hverbose =>
    use [notice], rfl
    rw [List.forall_mem_singleton]
    exact ⟨h, hverbose⟩
  case isFalse => apply Gives.pure

theorem gives_report (diagnostics : List Diagnostic) (session : Session) :
  (report diagnostics).Gives session (.ok ()) (session.reporter.emitAll diagnostics)
  := Gives.of_outcome rfl

theorem gives_accept (result : Except Fault α) (session : Session) :
  (accept result).Gives session (result.mapError .fault) session.reporter
  := by
  cases result with
  | ok a => apply Gives.pure
  | error fault => apply Gives.throw

/-- The progress of a stage is told before and after it. -/
theorem gives_stage {start : Notice} {done : α → Notice} (hstart : start.isProgress)
    (hdone : ∀ a, (done a).isProgress) (result : Except Fault α) (session : Session) :
  Gives (do tell start; let a ← accept result; tell (done a); return a) session
    (result.mapError .fault) session.reporter
  := by
  apply (gives_tell hstart session).bind
  intro started _ hstarted
  rw [← hstarted]
  cases result with
  | ok a =>
      apply (gives_accept (.ok a) started).bind
      intro ended _ hended
      rw [← hended]
      apply (gives_tell (hdone a) ended).bind
      intro told _ htold
      rw [← htold]
      apply Gives.pure
  | error fault => apply (gives_accept (.error fault) started).bind_error

/-- A check reports the defects of the flow. Whether it fails depends on all that was reported. -/
theorem gives_check (flow : Flow) (session : Session) :
  (check flow).Gives session (session.reporter.afterCheck flow (.ok ()))
    (session.reporter.emitAll flow.diagnostics)
  := by
  apply (gives_tell rfl session).bind
  intro started _ hstarted
  rw [← hstarted]
  apply (gives_report flow.diagnostics started).bind
  intro reported _ hreported
  rw [Reporter.afterCheck, ← hreported]
  apply (gives_tell rfl reported).bind
  intro told _ htold
  rw [← htold]
  split
  · apply Gives.throw
  · apply Gives.pure

/-- What comes after a check is done if the check does not fail. -/
theorem gives_check_bind {next : Unit → Step α} {flow : Flow} {session : Session}
    {result : Except SessionError α}
    (hnext : ∀ after : Session, after.config = session.config →
      after.reporter = session.reporter.emitAll flow.diagnostics →
      (next ()).Gives after result (session.reporter.emitAll flow.diagnostics)) :
  Gives (check flow >>= next) session (session.reporter.afterCheck flow result)
    (session.reporter.emitAll flow.diagnostics)
  := by
  have hcheck := gives_check flow session
  unfold Reporter.afterCheck at hcheck ⊢
  split
  case isTrue herrors =>
    rw [if_pos herrors] at hcheck
    apply hcheck.bind_error
  case isFalse herrors =>
    rw [if_neg herrors] at hcheck
    apply hcheck.bind hnext

theorem gives_linearize (flow : Flow) (session : Session) :
  (linearize flow).Gives session (flow.linearize.mapError .fault) session.reporter
  := gives_stage rfl (fun _ => rfl) flow.linearize session

theorem gives_compress (code : Code) (session : Session) :
  (compress code).Gives session (code.compress.mapError .fault) session.reporter
  := gives_stage rfl (fun _ => rfl) code.compress session

theorem gives_partition (code : Code) (session : Session) :
  (partition code).Gives session (code.partition.mapError .fault) session.reporter
  := gives_stage rfl (fun _ => rfl) code.partition session

theorem gives_lower (flow : Flow) (session : Session) :
  (lower flow).Gives session
    (session.reporter.afterCheck flow (flow.lower.mapError .fault))
    (session.reporter.emitAll flow.diagnostics)
  := by
  apply gives_check_bind
  intro checked _ hchecked
  rw [← hchecked]
  apply (gives_linearize flow checked).andThen
  intro linear after _ hafter
  rw [← hafter]
  apply (gives_compress linear after).andThen
  intro compressed after _ hafter
  rw [← hafter, ← bind_pure compressed.partition]
  apply (gives_partition compressed after).andThen
  intro table after _ hafter
  rw [← hafter]
  split
  · apply (gives_tell rfl after).bind
    intro told _ htold
    rw [← htold]
    apply Gives.pure
  · apply Gives.pure

theorem gives_list (flow : Flow) (session : Session) :
  (list flow).Gives session
    (session.reporter.afterCheck flow ((flow.listing session.config.stage).mapError .fault))
    (session.reporter.emitAll flow.diagnostics)
  := by
  apply gives_check_bind
  intro checked hconfig hchecked
  rw [← hchecked, Flow.listing_eq]
  apply (gives_linearize flow checked).andThen
  intro linear after hconfig' hafter
  -- the stage is read only now, and it is still the one of the session
  apply Gives.get_bind
  rw [hconfig', hconfig, ← hafter]
  dsimp only
  split
  · apply Gives.pure
  · apply (gives_compress linear after).andThen
    intro compressed after _ hafter
    rw [← hafter]
    split
    · apply Gives.pure
    · apply (gives_partition compressed after).andThen
      intro table after _ hafter
      rw [← hafter]
      apply Gives.pure

end Session

namespace Operation

open Step

/-- The result of an operation in a session, and the session after it. -/
def outcome (operation : Operation) (session : Session) : Except SessionError Reply × Session :=
  operation.perform.outcome session

/-- The diagnostics that an operation reports. -/
def produced : Operation → List Diagnostic
  | emit diagnostic => [diagnostic]
  | check flow | lower flow | list flow => flow.diagnostics
  | _ => []

/-- The settings after an operation. -/
def settings : Operation → Config → Config
  | reset, _ => {}
  | configure config, _ => config
  | _, config => config

/-- The reporter after an operation. -/
def report : Operation → Reporter → Reporter
  | reset, _ | flush, _ | flushAndDisplay, _ => .empty
  | display, r => { r with pending := [] }
  | operation, r => r.emitAll operation.produced

/-- The result of an operation with these settings and this reporter. -/
def answer : Operation → Config → Reporter → Except SessionError Reply
  | check flow, _, r => r.afterCheck flow (.ok .accepted)
  | lower flow, _, r => r.afterCheck flow ((flow.lower.mapError .fault).map .table)
  | list flow, config, r =>
    r.afterCheck flow (((flow.listing config.stage).mapError .fault).map .text)
  | linearize flow, _, _ => (flow.linearize.mapError .fault).map .code
  | compress code, _, _ => (code.compress.mapError .fault).map .code
  | partition code, _, _ => (code.partition.mapError .fault).map .table
  | flush, _, r => .ok (.diagnostics r.pending)
  | _, _, _ => .ok .nothing

/-- The diagnostics that an operation takes out of the reporter for its user. -/
def drained : Operation → Reporter → List Diagnostic
  | flush, r | flushAndDisplay, r | display, r => r.pending
  | _, _ => []

/-- The diagnostics that an operation writes, as a notice. -/
def shown : Operation → Reporter → List Notice
  | flushAndDisplay, r | display, r =>
    [.diagnostics ("\r" ++ String.join (r.pending.map Diagnostic.render))]
  | _, _ => []

/-- The outcome of an operation that has told of its progress with these notices. -/
def outcomeTelling (operation : Operation) (session : Session) (told : List Notice) :
    Except SessionError Reply × Session :=
  (operation.answer session.config session.reporter,
    { config := operation.settings session.config
      reporter := operation.report session.reporter
      notices := session.notices ++ (told ++ operation.shown session.reporter) })

theorem exists_outcome_of_gives {operation : Operation} {session : Session}
    (hsettings : operation.settings session.config = session.config)
    (hshown : operation.shown session.reporter = [])
    (h : operation.perform.Gives session (operation.answer session.config session.reporter)
      (operation.report session.reporter)) :
  ∃ told, operation.outcome session = operation.outcomeTelling session told
    ∧ ∀ notice ∈ told, notice.isProgress ∧ session.config.verbose
  := by
  obtain ⟨told, houtcome, htold⟩ := h
  use told
  rw [outcomeTelling, hsettings, hshown, List.append_nil]
  exact ⟨houtcome, htold⟩

/-- All that an operation does: its result, and the session that it leaves. -/
theorem exists_outcome (operation : Operation) (session : Session) :
  ∃ told, operation.outcome session = operation.outcomeTelling session told
    ∧ ∀ notice ∈ told, notice.isProgress ∧ session.config.verbose
  := by
  cases operation with
  | reset | configure config =>
      use []
      simp only [outcomeTelling, shown, List.append_nil]
      exact ⟨rfl, List.forall_mem_nil _⟩
  | flushAndDisplay | display => exact ⟨[], rfl, List.forall_mem_nil _⟩
  | flush =>
      apply exists_outcome_of_gives rfl rfl
      apply Gives.of_outcome rfl
  | emit diagnostic =>
      apply exists_outcome_of_gives rfl rfl
      apply (Session.gives_report [diagnostic] session).map
  | check flow =>
      apply exists_outcome_of_gives rfl rfl
      apply Session.gives_check_bind
      intro checked _ hchecked
      rw [← hchecked]
      apply Gives.pure
  | lower flow =>
      apply exists_outcome_of_gives rfl rfl
      rw [answer, ← Reporter.map_afterCheck]
      apply (Session.gives_lower flow session).map
  | list flow =>
      apply exists_outcome_of_gives rfl rfl
      rw [answer, ← Reporter.map_afterCheck]
      apply (Session.gives_list flow session).map
  | linearize flow =>
      apply exists_outcome_of_gives rfl rfl
      apply (Session.gives_linearize flow session).map
  | compress code =>
      apply exists_outcome_of_gives rfl rfl
      apply (Session.gives_compress code session).map
  | partition code =>
      apply exists_outcome_of_gives rfl rfl
      apply (Session.gives_partition code session).map

theorem config_outcome (operation : Operation) (session : Session) :
  (operation.outcome session).2.config = operation.settings session.config
  := by
  obtain ⟨told, houtcome, -⟩ := operation.exists_outcome session
  rw [houtcome, outcomeTelling]

theorem reporter_outcome (operation : Operation) (session : Session) :
  (operation.outcome session).2.reporter = operation.report session.reporter
  := by
  obtain ⟨told, houtcome, -⟩ := operation.exists_outcome session
  rw [houtcome, outcomeTelling]

theorem result_outcome (operation : Operation) (session : Session) :
  (operation.outcome session).1 = operation.answer session.config session.reporter
  := by
  obtain ⟨told, houtcome, -⟩ := operation.exists_outcome session
  rw [houtcome, outcomeTelling]

end Operation

end Resumable
