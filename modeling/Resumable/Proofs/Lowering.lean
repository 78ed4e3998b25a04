import Resumable.Proofs.Code.Compression
import Resumable.Proofs.Code.Continuation
import Resumable.Proofs.Code.Emission
import Resumable.Proofs.Machine.Completion

/-!
# Lowering keeps the meaning of flows

The machine over the table of a well formed flow does what the flow does. Its counter, a number,
stands for the flow that is left to be run: `Machine.GoesOnWith` says so of a machine over
compressed code, and a resume leads to a machine that goes on with what is left then
(`GoesOnWith.resume_suspended`, `GoesOnWith.resume_ended`, `GoesOnWith.exists_advances`).

It follows that completing the machine comes to an end if the walk of the flow does, with the same
calls and with the number of suspensions as its result, and that the resumes cut the calls of the
walk behind its suspensions, also if the walk does not end.
-/

universe u

namespace Resumable

namespace Flow

variable {flow : Flow}

theorem lower_eq (h : flow.WellFormed) :
  flow.lower = .ok flow.code.compact.table
  := by
  have hcode := flow.wellNumbered_code
  unfold lower
  rw [linearize_eq h]
  show flow.code.compress >>= Code.partition = _
  rw [hcode.compress_eq]
  apply hcode.compact.partition_eq

theorem alike_compact (flow : Flow) :
  Process.Alike.{0, 0, u} flow.code.compact.next Flow.next 0 flow
  := by
  apply flow.wellNumbered_code.alike_compact.symm.trans
  apply flow.alike_code

end Flow

namespace Machine

variable {σ : Type u} {host : Host σ} {code : Code} {machine : Machine} {flow flow' : Flow}
  {s t : σ} {calls : List Call}

/-- The machine executes the code from where it behaves like the flow. -/
structure GoesOnWith (code : Code) (machine : Machine) (flow : Flow) : Prop where
  executes : Executes code machine
  ready : ∃ address, machine.counter = .ready address
    ∧ Process.Alike.{0, 0, u} code.next Flow.next address flow

namespace GoesOnWith

theorem ofTable (flow : Flow) :
  GoesOnWith.{u} flow.code.compact (Machine.ofTable flow.code.compact.table) flow
  := by
  have hcompact := flow.wellNumbered_code.compact
  constructor
  · apply Executes.ofTable hcompact
  · use 0, congrArg Counter.ready hcompact.start_table
    apply flow.alike_compact

/-! ### One resume -/

/-- If the flow suspends, then the machine does, after the same calls, and it goes on with what is
left of the flow. -/
theorem resume_suspended (h : GoesOnWith.{u} code machine flow)
    (hadvances : Process.Advances Flow.next host flow s calls (.suspended flow') t) :
  ∃ fuel machine', machine.resume host fuel s = some ⟨.ok .suspended, machine', t⟩
    ∧ GoesOnWith.{u} code machine' flow'
  := by
  obtain ⟨address, hcounter, halike⟩ := h.ready
  obtain ⟨stop, hadvances', hstop⟩ := halike.symm.advances hadvances
  obtain ⟨fuel, hresume⟩ := h.executes.exists_resume hcounter hadvances'
  cases hstop with
  | @suspended _ address' halike' =>
      refine ⟨fuel, _, hresume, ?_, address', rfl, halike'.symm⟩
      apply h.executes.of_suspended hadvances'

/-- If the flow comes to its end, then the machine completes, after the same calls. -/
theorem resume_ended (h : GoesOnWith.{u} code machine flow) {ending : Process.Ending}
    (hadvances : Process.Advances Flow.next host flow s calls (.ended ending) t) :
  ∃ fuel, machine.resume host fuel s = some ⟨.ok .completed, ⟨code.table, .done⟩, t⟩
  := by
  obtain ⟨address, hcounter, halike⟩ := h.ready
  obtain ⟨stop, hadvances', hstop⟩ := halike.symm.advances hadvances
  obtain ⟨fuel, hresume⟩ := h.executes.exists_resume hcounter hadvances'
  obtain rfl := Flow.ending_eq_finished hadvances
  cases hstop with
  | ended =>
      use fuel
      rw [hresume, ← h.executes.table_eq]
      rfl

/-- The machine does nothing but what the flow does. -/
theorem exists_advances (h : GoesOnWith.{u} code machine flow) {fuel : Nat}
    {outcome : Outcome Resumption σ} (hresume : machine.resume host fuel s = some outcome) :
  (outcome.result = .ok .completed ∧ ∃ calls,
      Process.Advances Flow.next host flow s calls (.ended .finished) outcome.host)
    ∨ (outcome.result = .ok .suspended ∧ ∃ calls flow',
      Process.Advances Flow.next host flow s calls (.suspended flow') outcome.host
      ∧ GoesOnWith.{u} code outcome.machine flow')
  := by
  obtain ⟨address, hcounter, halike⟩ := h.ready
  obtain ⟨calls, stop, t, hadvances, rfl⟩ := h.executes.exists_advances hcounter hresume
  obtain ⟨stop', hadvances', hstop⟩ := halike.advances hadvances
  cases hstop with
  | ended ending =>
      obtain rfl := Flow.ending_eq_finished hadvances'
      left
      exact ⟨rfl, calls, hadvances'⟩
  | @suspended address' flow' halike' =>
      right
      refine ⟨rfl, calls, flow', hadvances', ?_, address', rfl, halike'⟩
      apply h.executes.of_suspended hadvances

/-! ### All resumes -/

/-- If the flow runs to its end, then completing the machine counts the suspensions. -/
theorem completes (h : GoesOnWith.{u} code machine flow) {ending : Process.Ending}
    (hruns : Process.Runs Flow.next host flow s calls ending t) :
  Completes host machine s ⟨.ok (calls.count .suspended), ⟨code.table, .done⟩, t⟩
  := by
  induction hruns generalizing machine with
  | ended hadvances =>
      obtain ⟨fuel, hresume⟩ := h.resume_ended hadvances
      rw [hadvances.count_eq_zero]
      apply Completes.completed hresume
  | suspended hadvances _ ih =>
      obtain ⟨fuel, machine', hresume, hrest⟩ := h.resume_suspended hadvances
      rw [hadvances.count_append]
      apply Completes.suspended hresume (ih hrest)

/-- Completing the machine only comes to an end if the flow runs to its end. -/
theorem exists_runs (h : GoesOnWith.{u} code machine flow) {outcome : Outcome Nat σ}
    (hcompletes : Completes host machine s outcome) :
  ∃ calls t, Process.Runs Flow.next host flow s calls .finished t
  := by
  induction hcompletes generalizing flow with
  | completed hresume =>
      rcases h.exists_advances hresume with ⟨-, calls, hadvances⟩ | ⟨hresult, -⟩
      · exact ⟨calls, _, .ended hadvances⟩
      · cases hresult
  | failed hresume =>
      rcases h.exists_advances hresume with ⟨hresult, -⟩ | ⟨hresult, -⟩
      · cases hresult
      · cases hresult
  | suspended hresume _ ih =>
      rcases h.exists_advances hresume with ⟨hresult, -⟩ | ⟨-, calls, rest, hadvances, hrest⟩
      · cases hresult
      · obtain ⟨later, t, hruns⟩ := ih hrest
        use calls ++ later, t, .suspended hadvances hruns

/-! ### Histories -/

/-- If the flow suspends, then the history of the machine starts with a suspension after the same
calls. -/
theorem history_suspended (h : GoesOnWith.{u} code machine flow)
    (hadvances : Process.Advances Flow.next host flow s calls (.suspended flow') t) :
  ∃ machine', GoesOnWith.{u} code machine' flow' ∧ ∀ {episodes after t'},
    History host machine' t episodes after t' →
    History host machine s (⟨.ok .suspended, calls⟩ :: episodes) after t'
  := by
  obtain ⟨fuel, machine', hresume, hrest⟩ := h.resume_suspended hadvances.recorded
  use machine', hrest
  intro episodes after t' hlater
  apply History.cons hresume hlater

/-- If the flow comes to its end, then the next resume completes the machine, after the same
calls. -/
theorem history_ended (h : GoesOnWith.{u} code machine flow) {ending : Process.Ending}
    (hadvances : Process.Advances Flow.next host flow s calls (.ended ending) t) :
  History host machine s [⟨.ok .completed, calls⟩] ⟨code.table, .done⟩ t
  := by
  obtain ⟨fuel, hresume⟩ := h.resume_ended hadvances.recorded
  apply History.cons hresume (.nil _ t)

/-- As often as there is a suspension among the calls of the first steps of the flow, the machine
suspends, and each time it has made the calls up to the next one of them. -/
theorem exists_history (h : GoesOnWith.{u} code machine flow) {steps n : Nat}
    (hn : n ≤ (flow.calls host steps s).count .suspended) :
  ∃ episodes after t, History host machine s episodes after t
    ∧ episodes.map Episode.result = List.replicate n (.ok .suspended)
    ∧ episodes.map Episode.calls = (Call.segments (flow.calls host steps s)).take n
  := by
  induction n generalizing machine flow s steps with
  | zero => exact ⟨[], machine, s, .nil machine s, rfl, rfl⟩
  | succ n ih =>
      have hmem : .suspended ∈ flow.calls host steps s := by
        apply List.count_pos_iff.mp
        apply Nat.lt_of_succ_le (Nat.le_trans (Nat.succ_le_succ (Nat.zero_le n)) hn)
      obtain ⟨now, rest, s', steps', hadvances, hcalls⟩ :=
        Flow.exists_advances_of_mem_calls hmem
      rw [hcalls, hadvances.count_append] at hn
      obtain ⟨machine', hrest, hcons⟩ := h.history_suspended hadvances
      obtain ⟨episodes, after, t, hhistory, hresults, hsegments⟩ :=
        ih hrest (Nat.le_of_succ_le_succ hn)
      use ⟨.ok .suspended, now⟩ :: episodes, after, t, hcons hhistory
      constructor
      · rw [List.map_cons, hresults, List.replicate_succ]
      · rw [List.map_cons, hsegments, hcalls, hadvances.segments_append, List.take_succ_cons]

/-- If the flow runs to its end, then the resumes of the machine make the calls of its segments;
the last one completes. -/
theorem exists_history_done (h : GoesOnWith.{u} code machine flow) {ending : Process.Ending}
    (hruns : Process.Runs Flow.next host flow s calls ending t) :
  ∃ episodes, History host machine s episodes ⟨code.table, .done⟩ t
    ∧ episodes.map Episode.result
      = List.replicate (calls.count .suspended) (.ok .suspended) ++ [.ok .completed]
    ∧ episodes.map Episode.calls = Call.segments calls
  := by
  induction hruns generalizing machine with
  | @ended flow s t calls ending hadvances =>
      use [⟨.ok .completed, calls⟩], h.history_ended hadvances
      constructor
      · rw [hadvances.count_eq_zero]
        rfl
      · rw [hadvances.segments_eq]
        rfl
  | @suspended flow rest s s' t calls later ending hadvances _ ih =>
      obtain ⟨machine', hrest, hcons⟩ := h.history_suspended hadvances
      obtain ⟨episodes, hhistory, hresults, hsegments⟩ := ih hrest
      use ⟨.ok .suspended, calls⟩ :: episodes, hcons hhistory
      constructor
      · rw [List.map_cons, hresults, hadvances.count_append, List.replicate_succ]
        rfl
      · rw [List.map_cons, hsegments, hadvances.segments_append]

end GoesOnWith

end Machine

/-! ### Machines over the table of a flow -/

namespace Flow

open Machine

variable {flow : Flow}

/-- A well formed flow can be lowered, and on every host, completing the machine over its table
comes to an end just if the walk of the flow does. It does so without a failure then, with the
same calls in the same order, and leaves the host in the same state; the result is the number of
suspensions. -/
theorem WellFormed.complete_lower_eq_walk (h : flow.WellFormed) :
  ∃ table, flow.lower = .ok table ∧ ∀ {σ : Type u} (host : Host σ) (s : σ),
    ((∃ fuel t, flow.walk host fuel s = some t)
      ↔ ∃ fuel outcome, (ofTable table).complete host fuel s = some outcome)
    ∧ ∀ fuel fuel' t outcome, flow.walk host fuel s = some t →
      (ofTable table).complete host fuel' s = some outcome →
      outcome = ⟨.ok ((flow.calls host fuel s).count .suspended), ⟨table, .done⟩, t⟩
      ∧ (∃ steps, flow.walk host.recorded steps (s, #[])
        = some (t, (flow.calls host fuel s).toArray))
      ∧ ∃ steps, (ofTable table).complete host.recorded steps (s, #[])
        = some ⟨.ok ((flow.calls host fuel s).count .suspended), ⟨table, .done⟩,
            (t, (flow.calls host fuel s).toArray)⟩
  := by
  have hgoes := GoesOnWith.ofTable.{u} flow
  use flow.code.compact.table, lower_eq h
  intro σ host s
  constructor
  · constructor
    · rintro ⟨fuel, t, hwalk⟩
      obtain ⟨ending, hruns⟩ := runs_of_walk hwalk
      obtain ⟨fuel', hcomplete⟩ := (hgoes.completes hruns).exists_fuel
      exact ⟨fuel', _, hcomplete⟩
    · rintro ⟨fuel, outcome, hcomplete⟩
      obtain ⟨calls, t, hruns⟩ := hgoes.exists_runs (completes_of_complete hcomplete)
      obtain ⟨fuel', hwalk⟩ := exists_walk hruns
      use fuel', t, hwalk
  · intro fuel fuel' t outcome hwalk hcomplete
    obtain ⟨ending, hruns⟩ := runs_of_walk hwalk
    constructor
    · apply (completes_of_complete hcomplete).unique (hgoes.completes hruns)
    · use exists_walk hruns.recorded
      apply (hgoes.completes hruns.recorded).exists_fuel

/-- A loop that is run twice, with a suspension in each round. -/
theorem WellFormed.complete_lower_eq_walk_counted :
  let flow : Flow := [.loop (some ⟨some "i = 0", "i += 1"⟩) "i < 2" [.suspend]]
  let host : Host Nat := ⟨fun action i => if action = "i = 0" then 0 else i + 1,
    fun _ i => (decide (i < 2), i), id⟩
  flow.WellFormed ∧ ∃ table, flow.lower = .ok table
    ∧ ∃ fuel, (ofTable table).complete host fuel 7 = some ⟨.ok 2, ⟨table, .done⟩, 2⟩
  := by
  intro flow host
  have hflow : flow.WellFormed := by decide
  have hwalk : flow.walk host 9 7 = some 2 := by decide
  obtain ⟨table, hlower, h⟩ := complete_lower_eq_walk hflow
  obtain ⟨fuel, outcome, hcomplete⟩ := (h host 7).1.mp ⟨9, 2, hwalk⟩
  obtain ⟨houtcome, -⟩ := (h host 7).2 9 fuel 2 outcome hwalk hcomplete
  rw [houtcome] at hcomplete
  use hflow, table, hlower, fuel, hcomplete

/-- A well formed flow can be lowered, and the resumes of the machine over its table cut the calls
of the walk of the flow behind its suspensions. As long as there is a suspension to come, a resume
suspends after the calls up to there, whether the walk ends or not. If it ends, the resume
behind the last suspension makes the calls that are left, and completes the machine. -/
theorem WellFormed.history_lower_eq_segments (h : flow.WellFormed) :
  ∃ table, flow.lower = .ok table
    ∧ ∀ {σ : Type u} (host : Host σ) (s : σ) (steps n : Nat),
      (n ≤ (flow.calls host steps s).count .suspended →
        ∃ episodes after t, History host (ofTable table) s episodes after t
          ∧ episodes.map Episode.result = List.replicate n (.ok .suspended)
          ∧ episodes.map Episode.calls = (Call.segments (flow.calls host steps s)).take n)
      ∧ ∀ t, flow.walk host steps s = some t → (flow.calls host steps s).count .suspended = n →
        (∃ fuel, flow.walk host.recorded fuel (s, #[])
          = some (t, (flow.calls host steps s).toArray))
        ∧ ∃ episodes, History host (ofTable table) s episodes ⟨table, .done⟩ t
          ∧ episodes.map Episode.result = List.replicate n (.ok .suspended) ++ [.ok .completed]
          ∧ episodes.map Episode.calls = Call.segments (flow.calls host steps s)
  := by
  have hgoes := GoesOnWith.ofTable.{u} flow
  use flow.code.compact.table, lower_eq h
  intro σ host s steps n
  constructor
  · apply hgoes.exists_history
  · rintro t hwalk rfl
    obtain ⟨ending, hruns⟩ := runs_of_walk hwalk
    use exists_walk hruns.recorded
    apply hgoes.exists_history_done hruns

/-- A loop that goes on forever, with a suspension in each round. -/
theorem WellFormed.history_lower_eq_segments_forever :
  let flow : Flow := [.loop none "true" [.suspend]]
  let host : Host Unit := ⟨fun _ s => s, fun _ s => (true, s), id⟩
  flow.WellFormed ∧ ∃ table, flow.lower = .ok table
    ∧ ∃ episodes after t, History host (ofTable table) () episodes after t
      ∧ episodes.map Episode.result = [.ok .suspended, .ok .suspended]
      ∧ episodes.map Episode.calls
        = [[.evaluated "true" true, .suspended], [.evaluated "true" true, .suspended]]
  := by
  intro flow host
  have hflow : flow.WellFormed := by decide
  have hcalls : 2 ≤ (flow.calls host 5 ()).count .suspended := by decide
  obtain ⟨table, hlower, h⟩ := history_lower_eq_segments hflow
  use hflow, table, hlower
  apply (h host () 5 2).1 hcalls

end Flow

end Resumable
