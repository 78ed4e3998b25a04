import Resumable.Proofs.Session.Reports
import Mathlib.Data.List.Forall2

/-!
# Settings of sessions

What is seen of the operations of a session does not depend on whether the session is verbose, and
its stage shows in the texts of listings only (`Session.observations_of_settings`). Both follow from
`Session.forall₂_observations`: two sessions with the same reports, in which the same is done with
other settings, have the same reports after every operation.
-/

namespace Resumable

/-- What is seen of an operation, apart from what it has written. -/
structure Observation where
  /-- The result of the operation. -/
  result : Except SessionError Reply
  /-- Whether there is an error in the reporter afterwards. -/
  hasErrors : Bool
  /-- The diagnostics that were flushed or displayed. -/
  drained : List Diagnostic

/-- The same is seen of both operations, or both have listed a flow, maybe at other stages. -/
inductive Observation.AgreesUpToText : Observation → Observation → Prop where
  | refl (seen : Observation) : AgreesUpToText seen seen
  | listed (text text' : String) (hasErrors : Bool) (drained : List Diagnostic) :
      AgreesUpToText ⟨.ok (.text text), hasErrors, drained⟩ ⟨.ok (.text text'), hasErrors, drained⟩

namespace Operation

/-- The operations are the same, or change the settings in related ways. -/
inductive Alike (R : Config → Config → Prop) : Operation → Operation → Prop where
  | refl (operation : Operation) : Alike R operation operation
  | configure {config config' : Config} (h : R config config') :
      Alike R (.configure config) (.configure config')

/-- What is seen of the operation in a session. -/
def observation (operation : Operation) (session : Session) : Observation where
  result := (operation.outcome session).1
  hasErrors := (operation.outcome session).2.reporter.hasErrors
  drained := operation.drained session.reporter

theorem observation_eq (operation : Operation) (session : Session) :
  operation.observation session
    = { result := operation.answer session.config session.reporter
        hasErrors := (operation.report session.reporter).hasErrors
        drained := operation.drained session.reporter }
  := by
  rw [observation, result_outcome, reporter_outcome]

variable {R : Config → Config → Prop} {operation operation' : Operation} {config config' : Config}

/-! ### Answers -/

/-- The stage is all of the settings that an answer depends on. -/
theorem answer_eq_of_stage_eq (h : config.stage = config'.stage) (operation : Operation)
    (r : Reporter) :
  operation.answer config r = operation.answer config' r
  := by
  cases operation with
  | list flow => rw [answer, h, answer]
  | _ => rfl

/-- Whether a flow can be listed does not depend on the stage. -/
theorem answer_list_cases (flow : Flow) (config config' : Config) (r : Reporter) :
  (list flow).answer config r = (list flow).answer config' r
  ∨ ∃ text text', (list flow).answer config r = .ok (.text text)
    ∧ (list flow).answer config' r = .ok (.text text')
  := by
  by_cases herrors : (r.emitAll flow.diagnostics).hasErrors
  · left
    rw [answer, answer, Reporter.afterCheck, Reporter.afterCheck, if_pos herrors, if_pos herrors]
  · right
    obtain ⟨-, -, text, -, htext⟩ := @Session.accepted_of_not_hasErrors ⟨config, r, []⟩ flow herrors
    obtain ⟨-, -, text', -, htext'⟩ :=
      @Session.accepted_of_not_hasErrors ⟨config', r, []⟩ flow herrors
    rw [result_outcome] at htext htext'
    exact ⟨text, text', htext, htext'⟩

/-- Only a listing is answered with a text. -/
theorem exists_eq_list_of_text {session : Session} {text : String}
    (h : (operation.outcome session).1 = .ok (.text text)) :
  ∃ flow, operation = .list flow
  := by
  rw [result_outcome] at h
  cases operation with
  | list flow => exact ⟨flow, rfl⟩
  | check flow =>
      apply absurd h
      apply Reporter.afterCheck_ne_ok
      nofun
  | lower flow =>
      apply absurd h
      apply Reporter.afterCheck_ne_ok
      apply Reporter.map_fault_ne_ok
      nofun
  | linearize flow | compress code | partition code =>
      apply absurd h
      apply Reporter.map_fault_ne_ok
      nofun
  | _ => nomatch h

/-! ### Operations with other settings -/

theorem Alike.report_eq (h : Alike R operation operation') (r : Reporter) :
  operation.report r = operation'.report r
  := by
  cases h with
  | refl => rfl
  | configure => rfl

theorem Alike.drained_eq (h : Alike R operation operation') (r : Reporter) :
  operation.drained r = operation'.drained r
  := by
  cases h with
  | refl => rfl
  | configure => rfl

theorem Alike.settings (hrefl : ∀ config, R config config) (h : Alike R operation operation')
    (hconfig : R config config') :
  R (operation.settings config) (operation'.settings config')
  := by
  cases h with
  | configure hnew => apply hnew
  | refl =>
      cases operation with
      | reset => apply hrefl
      | configure new => apply hrefl
      | _ => apply hconfig

/-- With the same stage, the same is seen of an operation. -/
theorem Alike.observation_eq (h : Alike (fun c c' => c.stage = c'.stage) operation operation')
    {session session' : Session} (hstage : session.config.stage = session'.config.stage)
    (hreporter : session.reporter = session'.reporter) :
  operation.observation session = operation'.observation session'
  := by
  rw [Operation.observation_eq, Operation.observation_eq, hreporter, h.report_eq, h.drained_eq,
    answer_eq_of_stage_eq hstage]
  cases h with
  | refl => rfl
  | configure => rfl

/-- With any settings, the same is seen of an operation up to the text of a listing. -/
theorem Alike.agreesUpToText (h : Alike R operation operation') {session session' : Session}
    (hreporter : session.reporter = session'.reporter) :
  (operation.observation session).AgreesUpToText (operation'.observation session')
  := by
  rw [Operation.observation_eq, Operation.observation_eq, hreporter, h.report_eq, h.drained_eq]
  cases h with
  | configure => apply Observation.AgreesUpToText.refl
  | refl =>
      cases operation with
      | list flow =>
          rcases answer_list_cases flow session.config session'.config session'.reporter with
            heq | ⟨text, text', htext, htext'⟩
          · rw [heq]
            apply Observation.AgreesUpToText.refl
          · rw [htext, htext']
            apply Observation.AgreesUpToText.listed
      | _ => apply Observation.AgreesUpToText.refl

/-- Unless the session is verbose, an operation writes nothing but the diagnostics it displays. -/
theorem notices_outcome {session : Session} (h : session.config.verbose = false)
    (operation : Operation) :
  (operation.outcome session).2.notices = session.notices ++ operation.shown session.reporter
  := by
  obtain ⟨told, houtcome, htold⟩ := operation.exists_outcome session
  have hnone : told = [] := by
    apply List.eq_nil_iff_forall_not_mem.mpr
    intro notice hnotice
    have hverbose := (htold notice hnotice).2
    rw [h] at hverbose
    contradiction
  rw [houtcome, outcomeTelling, hnone]
  rfl

end Operation

namespace Session

open Operation

/-- What is seen of the operations that are done one after the other. -/
def observations (session : Session) : List Operation → List Observation
  | [] => []
  | operation :: rest =>
    operation.observation session :: observations (operation.outcome session).2 rest

variable {R : Config → Config → Prop} {S : Observation → Observation → Prop}
  {session session' : Session} {operations operations' : List Operation}

theorem flatMap_drained_observations (session : Session) (operations : List Operation) :
  (session.observations operations).flatMap Observation.drained = session.drained operations
  := by
  induction operations generalizing session with
  | nil => rfl
  | cons operation rest ih =>
      rw [observations, List.flatMap_cons, ih]
      rfl

/-- If operations with related settings are seen in a related way in all sessions with the same
reports, then so are any number of them: the reports stay the same. -/
theorem forall₂_observations (hoperations : List.Forall₂ (Alike R) operations operations')
    (hrefl : ∀ config, R config config)
    (hstep : ∀ {operation operation' : Operation} {session session' : Session},
      Alike R operation operation' → R session.config session'.config →
      session.reporter = session'.reporter →
      S (operation.observation session) (operation'.observation session'))
    (hconfig : R session.config session'.config)
    (hreporter : session.reporter = session'.reporter) :
  List.Forall₂ S (session.observations operations) (session'.observations operations')
  := by
  induction hoperations generalizing session session' with
  | nil => apply List.Forall₂.nil
  | @cons operation operation' operations operations' hfirst _ ih =>
      apply List.Forall₂.cons
      · apply hstep hfirst hconfig hreporter
      · apply ih
        · rw [config_outcome, config_outcome]
          apply hfirst.settings hrefl hconfig
        · rw [reporter_outcome, reporter_outcome, hreporter, hfirst.report_eq]

/-- What is seen of the operations of a session are their results, whether there are errors, and the
diagnostics that are drained. If two sessions do the same, but for the settings, then the same is
seen in both as long as the stages are the same; if they are not, it is the same up to the texts of
listings. A session that is not verbose writes nothing but diagnostics that it displays. -/
theorem observations_of_settings (hreporter : session.reporter = session'.reporter)
    (hoperations : List.Forall₂ (Alike fun _ _ => True) operations operations') :
  Drains session operations ((session.observations operations).flatMap Observation.drained)
  ∧ (session.config.stage = session'.config.stage →
    List.Forall₂ (Alike fun c c' => c.stage = c'.stage) operations operations' →
    session.observations operations = session'.observations operations')
  ∧ List.Forall₂ Observation.AgreesUpToText (session.observations operations)
    (session'.observations operations')
  ∧ (∀ (operation : Operation) (current : Session) (text : String),
    (operation.outcome current).1 = .ok (.text text) → ∃ flow, operation = .list flow)
  ∧ ∀ (operation : Operation) (quiet : Session), quiet.config.verbose = false →
    operation ≠ .display → operation ≠ .flushAndDisplay →
    (operation.outcome quiet).2.notices = quiet.notices
  := by
  refine ⟨?_, ?_, ?_, fun _ _ _ => exists_eq_list_of_text, ?_⟩
  · rw [flatMap_drained_observations]
    apply drains_drained
  · intro hstage hsame
    rw [← List.forall₂_eq_eq_eq]
    apply forall₂_observations hsame (fun _ => rfl) _ hstage hreporter
    intro operation operation' session session' halike hconfig hreports
    apply halike.observation_eq hconfig hreports
  · apply forall₂_observations hoperations (fun _ => trivial) _ trivial hreporter
    intro operation operation' session session' halike _ hreports
    apply halike.agreesUpToText hreports
  · intro operation quiet hquiet hdisplay hflush
    rw [notices_outcome hquiet]
    cases operation with
    | display | flushAndDisplay => contradiction
    | _ => apply List.append_nil

/-- A malformed flow is rejected, and then refused by the layout, whether or not the session tells
about it. A listing of another stage follows. -/
theorem observations_of_settings_rejected :
  let malformed : Flow := [.action ""]
  let operations : Config → List Operation := fun config =>
    [.check malformed, .linearize malformed, .flush, .configure config, .list [.suspend]]
  let silent : Session := {}
  let verbose : Session := { config := { verbose := true } }
  silent.observations (operations {}) = verbose.observations (operations { verbose := true })
  ∧ List.Forall₂ Observation.AgreesUpToText (silent.observations (operations {}))
    (verbose.observations (operations { verbose := true, stage := .linear }))
  ∧ Drains silent (operations {}) malformed.diagnostics
  ∧ ((Operation.check malformed).outcome silent).2.notices = []
  ∧ ((Operation.check malformed).outcome verbose).2.notices = [.checking, .checked]
  := by
  intro malformed operations silent verbose
  have halike : ∀ {R : Config → Config → Prop} (config config' : Config), R config config' →
      List.Forall₂ (Alike R) (operations config) (operations config') := fun _ _ h =>
    .cons (.refl _) (.cons (.refl _) (.cons (.refl _)
      (.cons (.configure h) (.cons (.refl _) .nil))))
  have hreporter : silent.reporter = verbose.reporter := rfl
  have hdrained : (silent.observations (operations {})).flatMap Observation.drained
      = malformed.diagnostics := by decide
  obtain ⟨hdrains, hsame, -, -, hquiet⟩ := observations_of_settings hreporter
    (halike {} { verbose := true } trivial)
  obtain ⟨-, -, hagrees, -⟩ := observations_of_settings hreporter
    (halike {} { verbose := true, stage := .linear } trivial)
  rw [hdrained] at hdrains
  exact ⟨hsame rfl (halike _ _ rfl), hagrees, hdrains, hquiet _ silent rfl nofun nofun, by decide⟩

end Session

end Resumable
