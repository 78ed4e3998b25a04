import Resumable.Proofs.Code.Execution

/-!
# Resuming the machine of some code

`Machine.Executes` holds of the machines over the table of some code that can be resumed, or have
completed. The machine that has not run yet is one of them, and what a resume leaves is another
(`Executes.ofTable`, `Executes.of_resume`). A resume of such a machine is a run of the code from
where the counter stands (`Executes.resume_eq`), so it does not matter that the code was cut
into subroutines: `partition_resume_eq_exec` says so of every machine that can be reached.
-/

universe u

namespace Resumable

namespace Machine

/-- A machine over the table of well numbered code, which has completed or can be resumed. -/
structure Executes (code : Code) (machine : Machine) : Prop where
  wellNumbered : code.WellNumbered
  table_eq : machine.table = code.table
  canResume : ∀ address, machine.counter = .ready address → canResumeAt code.table address

/-- The machines that some resumes lead to, each of them on any host in any state, from the
machine that has not run yet. -/
inductive Reachable (table : Table) : Machine → Prop where
  | start : Reachable table (ofTable table)
  | resume {machine : Machine} {σ : Type u} {host : Host σ} {fuel : Nat} {s : σ}
      {outcome : Outcome Resumption σ} :
      Reachable table machine → machine.resume host fuel s = some outcome →
      Reachable table outcome.machine

variable {σ : Type u} {code : Code} {host : Host σ} {machine : Machine} {address fuel : Nat}
  {s t : σ}

/-! ### Where to go on -/

theorem canResumeAt_table_iff (hcode : code.WellNumbered) :
  canResumeAt code.table address ↔ address = code.length ∨ code.table.isStart address
  := by
  simp [canResumeAt, hcode.stop_table]

theorem le_of_canResumeAt (hcode : code.WellNumbered) (h : canResumeAt code.table address) :
  address ≤ code.length
  := by
  rcases (canResumeAt_table_iff hcode).mp h with rfl | hstart
  · apply Nat.le_refl
  · apply Nat.le_of_lt (hcode.isStart_table_iff.mp hstart).1

/-- A machine can be resumed behind a suspension: at the end or at a boundary. -/
theorem canResumeAt_of_suspend (hcode : code.WellNumbered) {instr : Instr}
    (hinstr : code[address]? = some instr) (hop : instr.op = .suspend) :
  canResumeAt code.table (address + 1)
  := by
  have hlt := (List.getElem?_eq_some_iff.mp hinstr).1
  apply (canResumeAt_table_iff hcode).mpr
  by_cases heq : address + 1 = code.length
  · left
    apply heq
  · right
    apply hcode.isStart_table_iff.mpr
    use by omega
    apply Code.mem_boundaries_iff.mpr
    right; right
    use instr, List.mem_of_getElem? hinstr, hop
    rw [(hcode address instr hinstr).1]
    exact ⟨rfl, by omega⟩

/-! ### Resumes as runs of the code -/

/-- A resume that returns does so in the same way if it may take more steps. -/
theorem resume_mono {fuel' : Nat} {outcome : Outcome Resumption σ}
    (h : machine.resume host fuel s = some outcome) (hle : fuel ≤ fuel') :
  machine.resume host fuel' s = some outcome
  := by
  unfold resume at h ⊢
  cases hcounter : machine.counter with
  | done =>
      simp only [hcounter] at h
      apply h
  | ready address =>
      simp only [hcounter] at h ⊢
      split at h
      · rename_i hresume
        obtain ⟨result, hadvance, hstop⟩ := Option.map_eq_some_iff.mp h
        rw [if_pos hresume, Process.advance_mono hadvance hle, ← hstop]
        rfl
      · rename_i hresume
        rw [if_neg hresume, ← h]

theorem resume_unique {fuel' : Nat} {outcome outcome' : Outcome Resumption σ}
    (h : machine.resume host fuel s = some outcome)
    (h' : machine.resume host fuel' s = some outcome') :
  outcome = outcome'
  := by
  have hmax := resume_mono h (Nat.le_max_left fuel fuel')
  rw [resume_mono h' (Nat.le_max_right fuel fuel')] at hmax
  cases hmax
  rfl

namespace Executes

theorem ofTable (hcode : code.WellNumbered) :
  Executes code (Machine.ofTable code.table)
  := by
  constructor
  · apply hcode
  · rfl
  · rintro address ⟨⟩
    apply (canResumeAt_table_iff hcode).mpr
    rw [hcode.start_table]
    cases code with
    | nil =>
        left
        rfl
    | cons instr code =>
        right
        apply hcode.isStart_table_iff.mpr
        exact ⟨Nat.zero_lt_succ _, Code.mem_boundaries_iff.mpr (.inl rfl)⟩

/-- A machine that is not done runs the code from where its counter stands. -/
theorem resume_of_ready (h : Executes code machine)
    (hcounter : machine.counter = .ready address) (fuel : Nat) (s : σ) :
  machine.resume host fuel s
    = (Process.advance code.next host fuel address s).map machine.ofStop
  := by
  have hresume := h.canResume address hcounter
  rw [resume, hcounter]
  dsimp only
  rw [h.table_eq, if_pos hresume, h.wellNumbered.next_table]

theorem exists_resume (h : Executes code machine)
    (hcounter : machine.counter = .ready address) {calls : List Call} {stop : Process.Stop Nat}
    (hadvances : Process.Advances code.next host address s calls stop t) :
  ∃ fuel, machine.resume host fuel s = some (machine.ofStop (stop, t))
  := by
  obtain ⟨fuel, hadvance⟩ := hadvances.exists_fuel
  use fuel
  rw [h.resume_of_ready hcounter, hadvance]
  rfl

theorem exists_advances (h : Executes code machine)
    (hcounter : machine.counter = .ready address) {outcome : Outcome Resumption σ}
    (hresume : machine.resume host fuel s = some outcome) :
  ∃ calls stop t, Process.Advances code.next host address s calls stop t
    ∧ outcome = machine.ofStop (stop, t)
  := by
  rw [h.resume_of_ready hcounter] at hresume
  obtain ⟨⟨stop, t⟩, hadvance, rfl⟩ := Option.map_eq_some_iff.mp hresume
  obtain ⟨calls, hadvances⟩ := Process.exists_advances hadvance
  use calls, stop, t, hadvances

theorem resume_of_done (hcounter : machine.counter = .done) (fuel : Nat) (s : σ) :
  machine.resume host fuel s = some ⟨.error .resumedAfterCompletion, machine, s⟩
  := by
  rw [resume, hcounter]

/-- A machine that suspends can be resumed where it suspended. -/
theorem of_suspended (h : Executes code machine) {calls : List Call} {start : Nat}
    (hadvances : Process.Advances code.next host start s calls (.suspended address) t) :
  Executes code { machine with counter := .ready address }
  := by
  constructor
  · apply h.wellNumbered
  · apply h.table_eq
  · rintro address ⟨⟩
    obtain ⟨before, instr, hinstr, hop, rfl⟩ := Code.exists_suspend_of_advances hadvances
    apply canResumeAt_of_suspend h.wellNumbered hinstr hop

theorem of_done (h : Executes code machine) :
  Executes code { machine with counter := .done }
  := by
  constructor
  · apply h.wellNumbered
  · apply h.table_eq
  · rintro address ⟨⟩

/-- A resume leaves a machine that can be resumed, or has completed. -/
theorem of_resume (h : Executes code machine) {outcome : Outcome Resumption σ}
    (hresume : machine.resume host fuel s = some outcome) :
  Executes code outcome.machine
  := by
  cases hcounter : machine.counter with
  | done =>
      rw [resume_of_done hcounter] at hresume
      cases hresume
      apply h
  | ready address =>
      obtain ⟨calls, stop, t, hadvances, rfl⟩ := h.exists_advances hcounter hresume
      cases stop with
      | ended ending =>
          cases ending with
          | finished => apply h.of_done
          | strayed => apply h
      | suspended next => apply h.of_suspended hadvances

/-- The run of a machine that is not done is the run of the code, and it does not fail. -/
theorem resume_eq (h : Executes code machine)
    (hcounter : machine.counter = .ready address) (fuel : Nat) (s : σ) :
  machine.resume host fuel s
    = (code.exec host fuel address s).map fun result =>
        ⟨.ok result.1.resumption, { machine with counter := result.1 }, result.2⟩
  := by
  have hle := le_of_canResumeAt h.wellNumbered (h.canResume address hcounter)
  rw [h.resume_of_ready hcounter, h.wellNumbered.exec_eq hle, Option.map_map]
  apply Option.map_congr
  rintro ⟨stop, t⟩ hadvance
  obtain ⟨calls, hadvances⟩ := Process.exists_advances hadvance
  cases stop with
  | ended ending =>
      obtain rfl := h.wellNumbered.ending_eq_finished hle hadvances
      rfl
  | suspended next => rfl

/-- Only a machine that is done fails. -/
theorem resume_error (h : Executes code machine) {outcome : Outcome Resumption σ}
    {error : MachineError} (hresume : machine.resume host fuel s = some outcome)
    (herror : outcome.result = .error error) :
  machine.counter = .done ∧ error = .resumedAfterCompletion
  := by
  cases hcounter : machine.counter with
  | done =>
      rw [resume_of_done hcounter] at hresume
      cases hresume
      cases herror
      exact ⟨rfl, rfl⟩
  | ready address =>
      rw [h.resume_eq hcounter] at hresume
      obtain ⟨result, -, rfl⟩ := Option.map_eq_some_iff.mp hresume
      cases herror

theorem counter_cases (h : Executes code machine) :
  machine.counter = .done ∨ machine.counter = .ready code.length
    ∨ ∃ subroutine ∈ code.table, machine.counter = .ready subroutine.start
  := by
  cases hcounter : machine.counter with
  | done =>
      left
      rfl
  | ready address =>
      right
      have hresume := h.canResume address hcounter
      rcases (canResumeAt_table_iff h.wellNumbered).mp hresume with rfl | hstart
      · left
        rfl
      · right
        obtain ⟨subroutine, hmem, heq⟩ := List.any_eq_true.mp hstart
        use subroutine, hmem
        rw [beq_iff_eq.mp heq]

end Executes

theorem Reachable.executes (hcode : code.WellNumbered) (h : Reachable.{u} code.table machine) :
  Executes code machine
  := by
  induction h with
  | start => apply Executes.ofTable hcode
  | resume _ hresume ih => apply ih.of_resume hresume

/-! ### The machine of a partition -/

/-- Over the table that well numbered code is cut into, every machine that resumes can lead to
stands at the end of the code or at the start of a subroutine, or it is done. Resuming it runs
the code from that position on, without a failure, and leaves the counter at the position to go
on from. Only a machine that is done fails: it stays as it is, and so does the host. -/
theorem partition_resume_eq_exec (hcode : code.WellNumbered) :
  ∃ table, code.partition = .ok table ∧ (ofTable table).counter = .ready 0
    ∧ ∀ machine, Reachable.{u} table machine →
      machine.table = table
      ∧ (machine.counter = .done ∨ machine.counter = .ready code.length
        ∨ ∃ subroutine ∈ table, machine.counter = .ready subroutine.start)
      ∧ ∀ {σ : Type u} (host : Host σ) (fuel : Nat) (s : σ),
        (∀ position, machine.counter = .ready position →
          machine.resume host fuel s = (code.exec host fuel position s).map fun result =>
            ⟨.ok result.1.resumption, ⟨table, result.1⟩, result.2⟩)
        ∧ (machine.counter = .done →
          machine.resume host fuel s = some ⟨.error .resumedAfterCompletion, machine, s⟩)
        ∧ ∀ outcome error, machine.resume host fuel s = some outcome →
          outcome.result = .error error →
          machine.counter = .done ∧ error = .resumedAfterCompletion
  := by
  use code.table, hcode.partition_eq, congrArg Counter.ready hcode.start_table
  intro machine hmachine
  have hexecutes := hmachine.executes hcode
  use hexecutes.table_eq, hexecutes.counter_cases
  intro σ host fuel s
  constructor
  · intro position hcounter
    rw [hexecutes.resume_eq hcounter, hexecutes.table_eq]
  · constructor
    · intro hcounter
      apply Executes.resume_of_done hcounter
    · intro outcome error hresume herror
      apply hexecutes.resume_error hresume herror

/-- A machine that suspends at the end of its code goes on behind it, where it completes. -/
theorem partition_resume_eq_exec_suspend_last :
  (Code.ofOps [.action "a", .suspend]).WellNumbered
    ∧ ∃ table, (Code.ofOps [.action "a", .suspend]).partition = .ok table
      ∧ ∀ (host : Host Nat) (s : Nat),
        (ofTable table).resume host 2 s
          = some ⟨.ok .suspended, ⟨table, .ready 2⟩, host.suspend (host.perform "a" s)⟩
        ∧ (Machine.mk table (.ready 2)).resume host 1 s
          = some ⟨.ok .completed, ⟨table, .done⟩, s⟩
  := by
  have hcode : (Code.ofOps [.action "a", .suspend]).WellNumbered := by decide
  obtain ⟨table, hpartition, hstart, hreachable⟩ := partition_resume_eq_exec hcode
  refine ⟨hcode, table, hpartition, ?_⟩
  intro host s
  have hfirst := ((hreachable (ofTable table) .start).2.2 host 2 s).1 0 hstart
  constructor
  · apply hfirst
  · apply ((hreachable _ (.resume .start hfirst)).2.2 host 1 s).1 2 rfl

end Machine

end Resumable
