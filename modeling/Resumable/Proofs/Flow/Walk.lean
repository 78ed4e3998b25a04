import Resumable.Flow.Walk
import Resumable.Proofs.Process.Runs

/-!
# Walks of flows

`Flow.Interprets` says node by node what it means to run a flow: the arm that the answer to the
condition of a branch selects is run as a whole before what follows the branch, and so is every
round of a loop. A walk takes a flow apart and goes on with what is left of it, but it comes to
the same (`walk_iff_interprets`).

`Flow.calls` are the calls of the first steps of a walk, which may go on forever.
-/

universe u

namespace Resumable

theorem Counting.exists_eq_of_init {counting : Option Counting} {init : String}
    (h : counting.bind Counting.init = some init) :
  ∃ step, counting = some ⟨some init, step⟩
  := by
  obtain ⟨⟨init, step⟩, rfl, rfl⟩ := Option.bind_eq_some_iff.mp h
  use step

namespace Flow

/-- Running the flow takes the host from state `s` to state `t`. -/
inductive Interprets {σ : Type u} (host : Host σ) : Flow → σ → σ → Prop where
  | nil (s : σ) : Interprets host [] s s
  | action {text : String} {rest : Flow} {s t : σ} :
      Interprets host rest (host.perform text s) t → Interprets host (.action text :: rest) s t
  | suspend {rest : Flow} {s t : σ} :
      Interprets host rest (host.suspend s) t → Interprets host (.suspend :: rest) s t
  | branch {polarity : Polarity} {cond : String} {body otherwise rest : Flow} {s s' t : σ} :
      Interprets host (if polarity.accepts (host.evaluate cond s).1 then body else otherwise)
        (host.evaluate cond s).2 s' →
      Interprets host rest s' t → Interprets host (.branch polarity cond body otherwise :: rest) s t
  /-- The first action of a counted loop. -/
  | init {init step cond : String} {body rest : Flow} {s t : σ} :
      Interprets host (.loop (some ⟨none, step⟩) cond body :: rest) (host.perform init s) t →
      Interprets host (.loop (some ⟨some init, step⟩) cond body :: rest) s t
  /-- A round of a loop, after which the loop is run again. -/
  | round {counting : Option Counting} {cond : String} {body rest : Flow} {s s' t : σ} :
      counting.bind Counting.init = none → (host.evaluate cond s).1 = true →
      Interprets host (body ++ Counting.steps counting) (host.evaluate cond s).2 s' →
      Interprets host (.loop counting cond body :: rest) s' t →
      Interprets host (.loop counting cond body :: rest) s t
  /-- The end of a loop. -/
  | exit {counting : Option Counting} {cond : String} {body rest : Flow} {s t : σ} :
      counting.bind Counting.init = none → (host.evaluate cond s).1 = false →
      Interprets host rest (host.evaluate cond s).2 t →
      Interprets host (.loop counting cond body :: rest) s t

variable {σ : Type u} {host : Host σ} {flow rest : Flow} {s s' t : σ}

/-- The calls of the first `steps` steps of the walk of the flow. -/
def calls (host : Host σ) (steps : Nat) (flow : Flow) (s : σ) : List Call :=
  Process.calls next host steps flow s

theorem next_loop {counting : Option Counting} {cond : String} {body : Flow}
    (h : counting.bind Counting.init = none) :
  next (.loop counting cond body :: rest)
    = .evaluate cond fun holds =>
        if holds then body ++ Counting.steps counting ++ .loop counting cond body :: rest
        else rest
  := by
  cases counting with
  | none => rfl
  | some counting =>
      obtain ⟨init, step⟩ := counting
      cases init with
      | none => rfl
      | some init => cases h

/-! ### The rules and the walk -/

/-- A walk through a flow that another one follows runs the first flow as a whole, and then walks
through the other one in the steps that are left. -/
theorem exists_interprets_of_run {ending : Process.Ending} :
    ∀ (fuel : Nat) (flow rest : Flow) (s : σ),
      Process.run next host fuel (flow ++ rest) s = some (ending, t) →
      ∃ s' fuel', fuel' ≤ fuel ∧ Interprets host flow s s'
        ∧ Process.run next host fuel' rest s' = some (ending, t)
  | fuel, [], _, s, h => ⟨s, fuel, Nat.le_refl fuel, .nil s, h⟩
  | fuel + 1, .action text :: flow, rest, s, h => by
      obtain ⟨s', fuel', hle, hflow, hrest⟩ := exists_interprets_of_run fuel flow rest _ h
      use s', fuel', Nat.le_succ_of_le hle, .action hflow, hrest
  | fuel + 1, .suspend :: flow, rest, s, h => by
      obtain ⟨s', fuel', hle, hflow, hrest⟩ := exists_interprets_of_run fuel flow rest _ h
      use s', fuel', Nat.le_succ_of_le hle, .suspend hflow, hrest
  | fuel + 1, .branch polarity cond body otherwise :: flow, rest, s, h => by
      obtain ⟨s₁, fuel₁, hle₁, hbody, h₁⟩ := exists_interprets_of_run fuel _ (flow ++ rest) _ h
      obtain ⟨s', fuel', hle, hflow, hrest⟩ := exists_interprets_of_run fuel₁ flow rest _ h₁
      use s', fuel', by omega, .branch hbody hflow, hrest
  | fuel + 1, .loop counting cond body :: flow, rest, s, h => by
      cases hinit : counting.bind Counting.init with
      | some init =>
          obtain ⟨step, rfl⟩ := Counting.exists_eq_of_init hinit
          obtain ⟨s', fuel', hle, hflow, hrest⟩ := exists_interprets_of_run fuel
            (.loop (some ⟨none, step⟩) cond body :: flow) rest _ h
          use s', fuel', Nat.le_succ_of_le hle, .init hflow, hrest
      | none =>
          rw [List.cons_append] at h
          simp only [Process.run, next_loop hinit] at h
          cases hholds : (host.evaluate cond s).1 with
          | true =>
              rw [hholds, if_pos rfl] at h
              obtain ⟨s₁, fuel₁, hle₁, hround, h₁⟩ := exists_interprets_of_run fuel _ _ _ h
              obtain ⟨s', fuel', hle, hflow, hrest⟩ := exists_interprets_of_run fuel₁
                (.loop counting cond body :: flow) rest _ h₁
              use s', fuel', by omega, .round hinit hholds hround hflow, hrest
          | false =>
              rw [hholds, if_neg Bool.false_ne_true] at h
              obtain ⟨s', fuel', hle, hflow, hrest⟩ := exists_interprets_of_run fuel flow rest _ h
              use s', fuel', Nat.le_succ_of_le hle, .exit hinit hholds hflow, hrest
termination_by fuel => fuel

/-- Running a flow as a whole is the first part of a walk through it and what follows it. -/
theorem Interprets.exists_run {ending : Process.Ending} (h : Interprets host flow s s')
    (hrest : ∃ fuel, Process.run next host fuel rest s' = some (ending, t)) :
  ∃ fuel, Process.run next host fuel (flow ++ rest) s = some (ending, t)
  := by
  induction h generalizing rest with
  | nil s => apply hrest
  | action _ ih =>
      obtain ⟨fuel, hrun⟩ := ih hrest
      use fuel + 1, hrun
  | suspend _ ih =>
      obtain ⟨fuel, hrun⟩ := ih hrest
      use fuel + 1, hrun
  | branch _ _ ihbody ihrest =>
      obtain ⟨fuel, hrun⟩ := ihbody (ihrest hrest)
      use fuel + 1, hrun
  | init _ ih =>
      obtain ⟨fuel, hrun⟩ := ih hrest
      use fuel + 1, hrun
  | round hinit hholds _ _ ihbody ihloop =>
      obtain ⟨fuel, hrun⟩ := ihbody (ihloop hrest)
      use fuel + 1
      rw [List.cons_append]
      simp only [Process.run, next_loop hinit, hholds, if_true]
      apply hrun
  | exit hinit hholds _ ih =>
      obtain ⟨fuel, hrun⟩ := ih hrest
      use fuel + 1
      rw [List.cons_append]
      simp only [Process.run, next_loop hinit, hholds, if_neg Bool.false_ne_true]
      apply hrun

/-- The walk of a flow ends in the state in which running it node by node does. -/
theorem walk_iff_interprets :
  (∃ fuel, flow.walk host fuel s = some t) ↔ Interprets host flow s t
  := by
  constructor
  · rintro ⟨fuel, hwalk⟩
    obtain ⟨⟨ending, t⟩, hrun, rfl⟩ := Option.map_eq_some_iff.mp hwalk
    rw [← List.append_nil flow] at hrun
    obtain ⟨s', fuel', -, hflow, hnil⟩ := exists_interprets_of_run fuel flow [] s hrun
    cases fuel' with
    | zero => cases hnil
    | succ fuel' =>
        cases hnil
        apply hflow
  · intro h
    have hnil : ∃ fuel, Process.run next host fuel [] t = some (.finished, t) := ⟨1, rfl⟩
    obtain ⟨fuel, hrun⟩ := h.exists_run hnil
    rw [List.append_nil] at hrun
    use fuel
    rw [walk, hrun]
    rfl

/-! ### Calls -/

theorem exists_advances_of_mem_calls {steps : Nat} (h : .suspended ∈ flow.calls host steps s) :
  ∃ now rest t steps', Process.Advances Flow.next host flow s now (.suspended rest) t
    ∧ flow.calls host steps s = now ++ rest.calls host steps' t
  := by
  apply Process.exists_advances_of_mem_calls h

theorem runs_of_walk {fuel : Nat} (h : flow.walk host fuel s = some t) :
  ∃ ending, Process.Runs Flow.next host flow s (flow.calls host fuel s) ending t
  := by
  obtain ⟨⟨ending, t⟩, hrun, rfl⟩ := Option.map_eq_some_iff.mp h
  use ending, Process.runs_calls hrun

theorem exists_walk {calls : List Call} {ending : Process.Ending}
    (h : Process.Runs Flow.next host flow s calls ending t) :
  ∃ fuel, flow.walk host fuel s = some t
  := by
  obtain ⟨fuel, hrun⟩ := Process.run_iff.mpr ⟨calls, h⟩
  use fuel
  rw [walk, hrun]
  rfl

theorem next_ne_stray (flow : Flow) :
  Flow.next flow ≠ .stray
  := by
  intro h
  unfold next at h
  split at h
  all_goals cases h

/-- A flow always runs to its end if it comes to an end. -/
theorem ending_eq_finished {calls : List Call} {ending : Process.Ending}
    (h : Process.Advances Flow.next host flow s calls (.ended ending) t) :
  ending = .finished
  := by
  generalize hstop : Process.Stop.ended ending = stop at h
  induction h with
  | finish _ =>
      cases hstop
      rfl
  | stray hstray => apply absurd hstray (next_ne_stray _)
  | suspend _ => cases hstop
  | move _ _ ih => apply ih hstop

end Flow

end Resumable
