import Resumable.Proofs.Session.Outcomes

/-!
# Reports in sessions

What has become of the reports after any operations, one after the other.

There is an error in the reporter if one was reported that no later operation has cleared
(`Operation.FailureStands`), also if the diagnostics were displayed since. A check fails just then,
and if it does not fail, then the flow is well formed, so that no stage refuses its input.

As long as the session is not started over, all diagnostics that were reported come out of the
reporter once and in order (`Session.drained`). What has come out of it in an operation is told from
the outside, by the result of the operation and the notices that it wrote (`Session.Drained`,
`Session.Drains`).
-/

namespace Resumable

/-- The headline of a diagnostic ends with its message. -/
theorem Diagnostic.exists_render_eq (d : Diagnostic) :
  ∃ label notes, d.render = label ++ ": " ++ d.message ++ "\n" ++ notes
  := by
  use d.severity.name ++ codeText d.code, String.join (d.notes.map noteText) ++ "\n"
  apply String.append_assoc

theorem Severity.isFailure_iff (severity : Severity) :
  severity.isFailure ↔ severity = .error ∨ severity = .bug
  := by
  cases severity <;> decide

namespace Flow

variable {flow : Flow}

theorem any_isFailure_diagnostics (flow : Flow) :
  (flow.diagnostics.any fun d => d.severity.isFailure) ↔ flow.diagnostics ≠ []
  := by
  unfold diagnostics
  cases flow.findings with
  | nil => simp
  | cons finding rest => simp [Finding.diagnostic, Severity.isFailure]

theorem hasErrors_emitAll_diagnostics (r : Reporter) (flow : Flow) :
  (r.emitAll flow.diagnostics).hasErrors ↔ r.hasErrors ∨ flow.diagnostics ≠ []
  := by
  rw [Reporter.hasErrors_emitAll, Bool.or_eq_true, any_isFailure_diagnostics]

theorem WellFormed.exists_listing (h : flow.WellFormed) (stage : Stage) :
  ∃ text, flow.listing stage = .ok text
  := by
  cases stage with
  | linear =>
      use flow.code.listing
      rw [listing, linearize_eq h]
      rfl
  | compressed =>
      use flow.code.compact.listing
      rw [listing, linearize_eq h]
      change (do return (← flow.code.compress).listing) = _
      rw [flow.wellNumbered_code.compress_eq]
      rfl
  | subroutines =>
      use flow.code.compact.table.listing
      rw [listing, lower_eq h]
      rfl

end Flow

namespace Reporter

variable {α β : Type}

theorem afterCheck_eq_rejected_iff {result : Except SessionError α}
    (h : result ≠ .error .rejected) (r : Reporter) (flow : Flow) :
  r.afterCheck flow result = .error .rejected ↔ (r.emitAll flow.diagnostics).hasErrors
  := by
  unfold afterCheck
  split
  case isTrue herrors => apply iff_of_true rfl herrors
  case isFalse herrors => apply iff_of_false h herrors

theorem map_fault_ne_rejected (result : Except Fault α) (f : α → β) :
  (result.mapError SessionError.fault).map f ≠ .error .rejected
  := by
  cases result with
  | ok a => nofun
  | error fault => nofun

theorem afterCheck_ne_ok {result : Except SessionError α} {a : α} (h : result ≠ .ok a)
    (r : Reporter) (flow : Flow) :
  r.afterCheck flow result ≠ .ok a
  := by
  unfold afterCheck
  split
  case isTrue => nofun
  case isFalse => apply h

theorem map_fault_ne_ok {f : α → β} {b : β} (h : ∀ a, f a ≠ b) (result : Except Fault α) :
  (result.mapError SessionError.fault).map f ≠ .ok b
  := by
  cases result with
  | ok a =>
      intro hmap
      apply h a (Except.ok.inj hmap)
  | error fault => nofun

end Reporter

namespace Operation

/-- The operations after which the session has forgotten about errors. -/
def Clears : Operation → Prop
  | reset | flush | flushAndDisplay => True
  | _ => False

/-- The operations that report an error or a bug. -/
def ReportsFailure : Operation → Prop
  | emit diagnostic => diagnostic.severity = .error ∨ diagnostic.severity = .bug
  | check flow | lower flow | list flow => flow.diagnostics ≠ []
  | _ => False

/-- One of the operations has reported a failure, and none after it has cleared it. -/
def FailureStands (operations : List Operation) : Prop :=
  ∃ earlier operation later, operations = earlier ++ operation :: later
    ∧ operation.ReportsFailure ∧ ∀ other ∈ later, ¬ other.Clears

theorem hasErrors_report (operation : Operation) (r : Reporter) :
  (operation.report r).hasErrors
    ↔ operation.ReportsFailure ∨ (r.hasErrors ∧ ¬ operation.Clears)
  := by
  cases operation with
  | reset | flush | flushAndDisplay => simp [report, Reporter.empty, ReportsFailure, Clears]
  | configure | linearize | compress | partition | display =>
      simp [report, produced, ReportsFailure, Clears]
  | emit diagnostic =>
      simp [report, produced, ReportsFailure, Clears, Severity.isFailure_iff, or_comm]
  | check flow | lower flow | list flow =>
      change (r.emitAll flow.diagnostics).hasErrors
        ↔ flow.diagnostics ≠ [] ∨ (r.hasErrors ∧ ¬ False)
      rw [Flow.hasErrors_emitAll_diagnostics, not_false_iff, and_true, or_comm]

theorem answer_ne_diagnostics {operation : Operation} (h : operation ≠ .flush) (config : Config)
    (r : Reporter) (diagnostics : List Diagnostic) :
  operation.answer config r ≠ .ok (.diagnostics diagnostics)
  := by
  cases operation with
  | flush => contradiction
  | check flow =>
      apply Reporter.afterCheck_ne_ok
      nofun
  | lower flow | list flow =>
      apply Reporter.afterCheck_ne_ok
      apply Reporter.map_fault_ne_ok
      nofun
  | linearize flow | compress code | partition code =>
      apply Reporter.map_fault_ne_ok
      nofun
  | _ => nofun

/-- Progress apart, what an operation has written is what it shows. -/
theorem filter_shown (operation : Operation) (r : Reporter) {told : List Notice}
    (htold : ∀ notice ∈ told, notice.isProgress) :
  (told ++ operation.shown r).filter (fun notice => !notice.isProgress) = operation.shown r
  := by
  have hnone : told.filter (fun notice => !notice.isProgress) = [] := by
    rw [List.filter_eq_nil_iff]
    intro notice hnotice
    rw [htold notice hnotice]
    decide
  rw [List.filter_append, hnone, List.nil_append]
  cases operation <;> rfl

theorem failureStands_concat (operations : List Operation) (operation : Operation) :
  FailureStands (operations ++ [operation])
    ↔ operation.ReportsFailure ∨ (FailureStands operations ∧ ¬ operation.Clears)
  := by
  constructor
  · rintro ⟨earlier, reporting, later, hsplit, hreports, hlater⟩
    rcases List.eq_nil_or_concat later with rfl | ⟨later, last, rfl⟩
    · obtain ⟨-, hlast⟩ := List.append_inj' hsplit rfl
      obtain ⟨rfl, -⟩ := List.cons.inj hlast
      left
      apply hreports
    · rw [List.concat_eq_append] at hsplit hlater
      rw [List.forall_mem_append, List.forall_mem_singleton] at hlater
      rw [← List.cons_append, ← List.append_assoc] at hsplit
      obtain ⟨rfl, hlast⟩ := List.append_inj' hsplit rfl
      obtain ⟨rfl, -⟩ := List.cons.inj hlast
      right
      exact ⟨⟨earlier, reporting, later, rfl, hreports, hlater.1⟩, hlater.2⟩
  · rintro (hreports | ⟨⟨earlier, reporting, later, rfl, hreports, hlater⟩, hkeeps⟩)
    · exact ⟨operations, operation, [], rfl, hreports, List.forall_mem_nil _⟩
    · use earlier, reporting, later ++ [operation]
      rw [List.forall_mem_append, List.forall_mem_singleton]
      exact ⟨List.append_assoc _ _ _, hreports, hlater, hkeeps⟩

end Operation

namespace Session

open Operation

/-- The session after some operations. -/
def after (session : Session) (operations : List Operation) : Session :=
  operations.foldl (fun current operation => (operation.outcome current).2) session

theorem after_cons (session : Session) (operation : Operation) (operations : List Operation) :
  session.after (operation :: operations) = (operation.outcome session).2.after operations
  := rfl

theorem after_concat (session : Session) (operations : List Operation) (operation : Operation) :
  session.after (operations ++ [operation]) = (operation.outcome (session.after operations)).2
  := by
  rw [after, List.foldl_append]
  rfl

/-! ### Errors -/

theorem config_after (session : Session) (operations : List Operation) :
  (session.after operations).config
    = operations.foldl (fun config operation => operation.settings config) session.config
  := by
  induction operations generalizing session with
  | nil => rfl
  | cons operation rest ih => rw [after_cons, ih, config_outcome, List.foldl_cons]

/-- In a new session, there is an error in the reporter just if the last word on failures is that
one was reported. -/
theorem hasErrors_after (config : Config) (operations : List Operation) :
  (after { config := config } operations).reporter.hasErrors ↔ FailureStands operations
  := by
  -- from the end, since what clears a failure comes after it
  induction operations using List.reverseRecOn with
  | nil =>
      constructor
      · intro herrors
        contradiction
      · rintro ⟨earlier, reporting, later, hsplit, -⟩
        have hlength := congrArg List.length hsplit
        simp at hlength
  | append_singleton operations operation ih =>
      rw [after_concat, reporter_outcome, hasErrors_report, ih, failureStands_concat]

/-- The operations that check a flow report its defects, and fail just if there is an error in the
reporter then. -/
theorem rejected_iff {operation : Operation} {flow : Flow}
    (h : operation ∈ [.check flow, .lower flow, .list flow]) (session : Session) :
  (operation.outcome session).2.reporter = session.reporter.emitAll flow.diagnostics
  ∧ ((operation.outcome session).1 = .error .rejected
    ↔ (session.reporter.emitAll flow.diagnostics).hasErrors)
  := by
  rw [reporter_outcome, result_outcome]
  simp only [List.mem_cons, List.not_mem_nil, or_false] at h
  have haccepted : (.ok .accepted : Except SessionError Reply) ≠ .error .rejected := nofun
  rcases h with rfl | rfl | rfl
  · exact ⟨rfl, Reporter.afterCheck_eq_rejected_iff haccepted _ flow⟩
  · exact ⟨rfl, Reporter.afterCheck_eq_rejected_iff (Reporter.map_fault_ne_rejected _ _) _ flow⟩
  · exact ⟨rfl, Reporter.afterCheck_eq_rejected_iff (Reporter.map_fault_ne_rejected _ _) _ flow⟩

/-- Without an error in the reporter, the flow is well formed, and then no stage has a fault. -/
theorem accepted_of_not_hasErrors {session : Session} {flow : Flow}
    (h : ¬ (session.reporter.emitAll flow.diagnostics).hasErrors) :
  ((Operation.check flow).outcome session).1 = .ok .accepted
  ∧ (∃ table, flow.lower = .ok table
    ∧ ((Operation.lower flow).outcome session).1 = .ok (.table table))
  ∧ ∃ text, flow.listing session.config.stage = .ok text
    ∧ ((Operation.list flow).outcome session).1 = .ok (.text text)
  := by
  have hflow : flow.WellFormed := by
    rw [Flow.hasErrors_emitAll_diagnostics, not_or, not_not] at h
    apply Flow.diagnostics_eq_nil_iff.mp h.2
  obtain ⟨text, htext⟩ := hflow.exists_listing session.config.stage
  simp only [result_outcome]
  refine ⟨if_neg h, ⟨flow.code.compact.table, Flow.lower_eq hflow, ?_⟩, text, htext, ?_⟩
  · rw [answer, Reporter.afterCheck, if_neg h, Flow.lower_eq hflow]
    rfl
  · rw [answer, Reporter.afterCheck, if_neg h, htext]
    rfl

/-- Whatever was done before, the error of a check says that a failure stands, be it of this flow or
an earlier one. Otherwise nothing fails, and the result is that of the stages. -/
theorem outcomes_from_history (config : Config) (operations : List Operation) :
  let session := after { config := config } operations
  session.config = operations.foldl (fun config operation => operation.settings config) config
  ∧ (session.reporter.hasErrors ↔ FailureStands operations)
  ∧ SessionError.message .rejected = "found malformed flow nodes"
  ∧ ∀ flow : Flow,
    let reported := session.reporter.emitAll flow.diagnostics
    (reported.hasErrors ↔ session.reporter.hasErrors ∨ flow.diagnostics ≠ [])
    ∧ (∀ operation ∈ [Operation.check flow, .lower flow, .list flow],
      (operation.outcome session).2.reporter = reported
      ∧ ((operation.outcome session).1 = .error .rejected ↔ reported.hasErrors))
    ∧ (¬ reported.hasErrors →
      ((Operation.check flow).outcome session).1 = .ok .accepted
      ∧ (∃ table, flow.lower = .ok table
        ∧ ((Operation.lower flow).outcome session).1 = .ok (.table table))
      ∧ ∃ text, flow.listing session.config.stage = .ok text
        ∧ ((Operation.list flow).outcome session).1 = .ok (.text text))
  := by
  intro session
  refine ⟨config_after _ operations, hasErrors_after config operations, rfl, fun flow => ?_⟩
  exact ⟨Flow.hasErrors_emitAll_diagnostics session.reporter flow,
    fun _ hoperation => rejected_iff hoperation session, accepted_of_not_hasErrors⟩

/-- After a malformed flow was checked and its diagnostics were displayed, a well formed one is
rejected too, until the reports are flushed. -/
theorem outcomes_from_history_unflushed :
  let malformed : Flow := [.loop none " " []]
  let flow : Flow := [.action "a", .suspend]
  let displayed := after {} [.check malformed, .display]
  let flushed := after {} [.check malformed, .display, .flush]
  displayed.reporter.pending = []
  ∧ ((Operation.lower flow).outcome displayed).1 = .error .rejected
  ∧ ∃ table, ((Operation.lower flow).outcome flushed).1 = .ok (.table table)
  := by
  intro malformed flow displayed flushed
  have hmalformed : malformed.diagnostics ≠ [] := by decide
  have hflow : flow.diagnostics = [] := by decide
  obtain ⟨-, hdisplayed, -, hrejected⟩ := outcomes_from_history {} [.check malformed, .display]
  obtain ⟨-, hflushed, -, haccepted⟩ :=
    outcomes_from_history {} [.check malformed, .display, .flush]
  have hstands : FailureStands [.check malformed, .display] :=
    ⟨[], .check malformed, [.display], rfl, hmalformed, by simp [Clears]⟩
  have hcleared : ¬ FailureStands [.check malformed, .display, .flush] := by
    have hconcat := failureStands_concat [.check malformed, .display] .flush
    simpa [ReportsFailure, Clears] using hconcat
  refine ⟨rfl, ?_, ?_⟩
  · apply ((hrejected flow).2.1 (.lower flow) (by simp)).2.mpr
    apply (hrejected flow).1.mpr
    left
    apply hdisplayed.mpr hstands
  · have hnone := mt (haccepted flow).1.mp (not_or.mpr ⟨mt hflushed.mp hcleared, not_not.mpr hflow⟩)
    obtain ⟨-, ⟨table, -, htable⟩, -⟩ := (haccepted flow).2.2 hnone
    exact ⟨table, htable⟩

/-! ### Diagnostics -/

/-- The diagnostics that the operations take out of the reporter for their user, in this order. -/
def drained (session : Session) : List Operation → List Diagnostic
  | [] => []
  | operation :: rest =>
    operation.drained session.reporter ++ drained (operation.outcome session).2 rest

/-- The diagnostics that an operation has taken out of the reporter, told from its result and from
what it has shown: they were handed over, or displayed one after the other on a line that is started
over, or there were none. -/
inductive Drained : Except SessionError Reply → List Notice → List Diagnostic → Prop where
  | flushed {diagnostics : List Diagnostic} :
      Drained (.ok (.diagnostics diagnostics)) [] diagnostics
  | displayed {diagnostics : List Diagnostic} :
      Drained (.ok .nothing)
        [.diagnostics ("\r" ++ String.join (diagnostics.map Diagnostic.render))] diagnostics
  | none {result : Except SessionError Reply}
      (hresult : ∀ diagnostics, result ≠ .ok (.diagnostics diagnostics)) : Drained result [] []

/-- From the session on, these diagnostics were taken out of the reporter in the operations. What an
operation has shown is all that it wrote, but for its progress. -/
inductive Drains : Session → List Operation → List Diagnostic → Prop where
  | nil {session : Session} : Drains session [] []
  | cons {session : Session} {operation : Operation} {operations : List Operation}
      {written : List Notice} {first rest : List Diagnostic}
      (hwritten : (operation.outcome session).2.notices = session.notices ++ written)
      (hfirst : Drained (operation.outcome session).1
        (written.filter fun notice => !notice.isProgress) first)
      (hrest : Drains (operation.outcome session).2 operations rest) :
      Drains session (operation :: operations) (first ++ rest)

/-- What is taken out of the reporter is what can be told from the outside to be taken out. -/
theorem drained_outcome (operation : Operation) (session : Session) :
  Drained (operation.outcome session).1 (operation.shown session.reporter)
    (operation.drained session.reporter)
  := by
  rw [result_outcome]
  cases operation with
  | flush => apply Drained.flushed
  | flushAndDisplay | display => apply Drained.displayed
  | _ =>
      apply Drained.none
      apply answer_ne_diagnostics
      nofun

theorem drains_drained (session : Session) (operations : List Operation) :
  Drains session operations (session.drained operations)
  := by
  induction operations generalizing session with
  | nil => apply Drains.nil
  | cons operation rest ih =>
      obtain ⟨told, houtcome, htold⟩ := operation.exists_outcome session
      have hwritten : (operation.outcome session).2.notices
          = session.notices ++ (told ++ operation.shown session.reporter) := by
        rw [houtcome, outcomeTelling]
      rw [drained]
      apply Drains.cons hwritten _ (ih _)
      rw [filter_shown _ _ fun notice hnotice => (htold notice hnotice).1]
      apply drained_outcome

/-- What an operation takes out of the reporter and what it leaves there is what was there, and
after it what the operation has reported. -/
theorem drained_append_pending {operation : Operation} (h : operation ≠ .reset) (r : Reporter) :
  operation.drained r ++ (operation.report r).pending = r.pending ++ operation.produced
  := by
  cases operation with
  | reset => contradiction
  | flush | flushAndDisplay | display => rfl
  | _ =>
      -- nothing is taken out, and what is reported goes to the end
      apply Reporter.pending_emitAll

theorem drained_append_pending_after {operations : List Operation} (h : .reset ∉ operations)
    (session : Session) :
  session.drained operations ++ (session.after operations).reporter.pending
    = session.reporter.pending ++ operations.flatMap Operation.produced
  := by
  induction operations generalizing session with
  | nil => apply (List.append_nil _).symm
  | cons operation rest ih =>
      rw [List.mem_cons, not_or] at h
      rw [drained, after_cons, List.append_assoc, ih h.2, reporter_outcome, ← List.append_assoc,
        drained_append_pending (Ne.symm h.1), List.flatMap_cons, List.append_assoc]

/-- In a session that is not started over, the diagnostics that were flushed or displayed and those
that are left are the ones that were reported, in the same order. What is displayed of a diagnostic
has its message in it. -/
theorem diagnostics_conserved (config : Config) {operations : List Operation}
    (h : .reset ∉ operations) :
  let session : Session := { config := config }
  Drains session operations (session.drained operations)
  ∧ session.drained operations ++ (session.after operations).reporter.pending
    = operations.flatMap Operation.produced
  ∧ ∀ d : Diagnostic, ∃ label notes, d.render = label ++ ": " ++ d.message ++ "\n" ++ notes
  := by
  intro session
  exact ⟨drains_drained session operations, drained_append_pending_after h session,
    Diagnostic.exists_render_eq⟩

/-- A flow is rejected three times, and the settings change in between; the last diagnostics are not
flushed. -/
theorem diagnostics_conserved_rejected :
  let malformed : Flow := [.loop none " " []]
  let warning : Diagnostic := { severity := .warning, code := none, message := "w", notes := [] }
  let operations : List Operation := [.emit warning, .lower malformed, .display,
    .configure { verbose := true }, .check malformed, .flush, .list malformed]
  .reset ∉ operations
  ∧ Drains {} operations (warning :: (malformed.diagnostics ++ malformed.diagnostics))
  ∧ (after {} operations).reporter.pending = malformed.diagnostics
  := by
  intro malformed warning operations
  have hreset : .reset ∉ operations := by simp [operations]
  have hpending : (after {} operations).reporter.pending = malformed.diagnostics := by decide
  obtain ⟨hdrains, hconserved, -⟩ := diagnostics_conserved {} hreset
  have hproduced : operations.flatMap produced
      = warning :: (malformed.diagnostics ++ malformed.diagnostics) ++ malformed.diagnostics := by
    simp [operations, produced]
  rw [hpending, hproduced] at hconserved
  rw [← List.append_cancel_right hconserved]
  exact ⟨hreset, hdrains, hpending⟩

end Session

end Resumable
