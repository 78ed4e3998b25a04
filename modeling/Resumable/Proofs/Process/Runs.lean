import Resumable.Process
import Mathlib.Tactic.Use

/-!
# Runs of processes

A process in some state stops there or makes a move to another state, with at most one call of
its host. `Process.Advances` relates a state to where the process stops next, and `Process.Runs`
to how it ends, each with the calls on the way. They hold exactly of what `Process.advance` and
`Process.run` compute when they may take enough steps (`exists_advances`, `Advances.exists_fuel`,
`run_iff`), and a host that keeps its calls keeps just these (`Advances.recorded`,
`Runs.recorded`).

`Process.calls` are the calls of the first steps of a run, which may go on forever, and
`Call.segments` cuts a sequence of calls behind its suspensions. The first segment of the calls
of a run are the calls up to where the process stops next.
-/

universe u v

namespace Resumable

/-- The process can be in the state `b` after the request. -/
def Request.LeadsTo {α : Type u} (b : α) : Request α → Prop
  | .finish => False
  | .stray => False
  | .silent next => next = b
  | .perform _ next => next = b
  | .evaluate _ next => ∃ holds, next holds = b
  | .suspend next => next = b

namespace Process

variable {α : Type u} {σ : Type v}

/-- In the state `a`, on the host in state `s`, the process neither ends nor suspends: it makes
the calls `now`, which lead it to the next state and the host to its next state. -/
inductive Move (process : Process α) (host : Host σ) (a : α) (s : σ) :
    List Call → α → σ → Prop where
  | silent {b : α} :
      process a = .silent b → Move process host a s [] b s
  | perform {action : String} {b : α} :
      process a = .perform action b →
      Move process host a s [.performed action] b (host.perform action s)
  | evaluate {condition : String} {next : Bool → α} :
      process a = .evaluate condition next →
      Move process host a s [.evaluated condition (host.evaluate condition s).1]
        (next (host.evaluate condition s).1) (host.evaluate condition s).2

/-- From the state `a`, on the host in state `s`, the process makes the calls and then stops,
which leaves the host in state `t`. -/
inductive Advances (process : Process α) (host : Host σ) :
    α → σ → List Call → Stop α → σ → Prop where
  | finish {a : α} {s : σ} :
      process a = .finish → Advances process host a s [] (.ended .finished) s
  | stray {a : α} {s : σ} :
      process a = .stray → Advances process host a s [] (.ended .strayed) s
  | suspend {a b : α} {s : σ} :
      process a = .suspend b →
      Advances process host a s [.suspended] (.suspended b) (host.suspend s)
  | move {a b : α} {s s' t : σ} {now calls : List Call} {stop : Stop α} :
      Move process host a s now b s' → Advances process host b s' calls stop t →
      Advances process host a s (now ++ calls) stop t

/-- From the state `a`, on the host in state `s`, the process makes the calls and then ends,
which leaves the host in state `t`. -/
inductive Runs (process : Process α) (host : Host σ) :
    α → σ → List Call → Ending → σ → Prop where
  | ended {a : α} {s t : σ} {calls : List Call} {ending : Ending} :
      Advances process host a s calls (.ended ending) t →
      Runs process host a s calls ending t
  | suspended {a b : α} {s s' t : σ} {calls later : List Call} {ending : Ending} :
      Advances process host a s calls (.suspended b) s' →
      Runs process host b s' later ending t →
      Runs process host a s (calls ++ later) ending t

/-- The calls of the first `steps` steps of a run. -/
def calls (process : Process α) (host : Host σ) : Nat → α → σ → List Call
  | 0, _, _ => []
  | steps + 1, a, s =>
    match process a with
    | .finish => []
    | .stray => []
    | .silent next => calls process host steps next s
    | .perform action next =>
      .performed action :: calls process host steps next (host.perform action s)
    | .evaluate condition next =>
      let answer := host.evaluate condition s
      .evaluated condition answer.1 :: calls process host steps (next answer.1) answer.2
    | .suspend next => .suspended :: calls process host steps next (host.suspend s)

variable {process : Process α} {host : Host σ} {a b : α} {s s' t : σ}

/-! ### Moves -/

/-- A process ends, strays, suspends or makes a move. -/
theorem stop_or_move (process : Process α) (host : Host σ) (a : α) (s : σ) :
  process a = .finish ∨ process a = .stray ∨ (∃ b, process a = .suspend b)
    ∨ ∃ now b s', Move process host a s now b s'
  := by
  cases ha : process a with
  | finish =>
      left
      rfl
  | stray =>
      right; left
      rfl
  | suspend b =>
      right; right; left
      use b
  | silent b =>
      right; right; right
      exact ⟨_, _, _, .silent ha⟩
  | perform action b =>
      right; right; right
      exact ⟨_, _, _, .perform ha⟩
  | evaluate condition next =>
      right; right; right
      exact ⟨_, _, _, .evaluate ha⟩

namespace Move

variable {now : List Call}

theorem advance_succ (h : Move process host a s now b s') (fuel : Nat) :
  advance process host (fuel + 1) a s = advance process host fuel b s'
  := by
  cases h with
  | silent ha => simp only [advance, ha]
  | perform ha => simp only [advance, ha]
  | evaluate ha => simp only [advance, ha]

theorem run_succ (h : Move process host a s now b s') (fuel : Nat) :
  run process host (fuel + 1) a s = run process host fuel b s'
  := by
  cases h with
  | silent ha => simp only [run, ha]
  | perform ha => simp only [run, ha]
  | evaluate ha => simp only [run, ha]

theorem calls_succ (h : Move process host a s now b s') (steps : Nat) :
  calls process host (steps + 1) a s = now ++ calls process host steps b s'
  := by
  cases h with
  | silent ha => simp only [calls, ha, List.nil_append]
  | perform ha => simp only [calls, ha, List.singleton_append]
  | evaluate ha => simp only [calls, ha, List.singleton_append]

theorem leadsTo (h : Move process host a s now b s') :
  (process a).LeadsTo b
  := by
  cases h with
  | silent ha =>
      rw [ha]
      rfl
  | perform ha =>
      rw [ha]
      rfl
  | evaluate ha =>
      rw [ha]
      exact ⟨_, rfl⟩

/-- A move is no suspension. -/
theorem suspended_not_mem (h : Move process host a s now b s') :
  .suspended ∉ now
  := by
  cases h with
  | silent _ => simp
  | perform _ => simp
  | evaluate _ => simp

/-- A host that keeps its calls keeps the call of a move. -/
theorem recorded (h : Move process host a s now b s') (kept : Array Call) :
  Move process host.recorded a (s, kept) now b (s', kept ++ now.toArray)
  := by
  cases h with
  | silent ha =>
      rw [Array.append_empty]
      apply Move.silent ha
  | perform ha => apply Move.perform ha
  | evaluate ha => apply Move.evaluate ha

end Move

/-! ### Enough steps -/

/-- A run that stopped stops in the same way if it may take more steps. -/
theorem advance_mono {fuel fuel' : Nat} {result : Stop α × σ}
    (h : advance process host fuel a s = some result) (hle : fuel ≤ fuel') :
  advance process host fuel' a s = some result
  := by
  induction fuel generalizing a s fuel' with
  | zero => cases h
  | succ fuel ih =>
      obtain ⟨fuel', rfl⟩ : ∃ n, fuel' = n + 1 := ⟨fuel' - 1, by omega⟩
      rcases stop_or_move process host a s with ha | ha | ⟨b, ha⟩ | ⟨now, b, s', hmove⟩
      · simpa only [advance, ha] using h
      · simpa only [advance, ha] using h
      · simpa only [advance, ha] using h
      · rw [hmove.advance_succ] at h ⊢
        apply ih h (by omega)

theorem exists_advances {fuel : Nat} {stop : Stop α}
    (h : advance process host fuel a s = some (stop, t)) :
  ∃ calls, Advances process host a s calls stop t
  := by
  induction fuel generalizing a s with
  | zero => cases h
  | succ fuel ih =>
      rcases stop_or_move process host a s with ha | ha | ⟨b, ha⟩ | ⟨now, b, s', hmove⟩
      · simp only [advance, ha, Option.some.injEq, Prod.mk.injEq] at h
        obtain ⟨rfl, rfl⟩ := h
        use [], .finish ha
      · simp only [advance, ha, Option.some.injEq, Prod.mk.injEq] at h
        obtain ⟨rfl, rfl⟩ := h
        use [], .stray ha
      · simp only [advance, ha, Option.some.injEq, Prod.mk.injEq] at h
        obtain ⟨rfl, rfl⟩ := h
        use [.suspended], .suspend ha
      · rw [hmove.advance_succ] at h
        obtain ⟨calls, hcalls⟩ := ih h
        use now ++ calls, .move hmove hcalls

theorem Advances.exists_fuel {calls : List Call} {stop : Stop α}
    (h : Advances process host a s calls stop t) :
  ∃ fuel, advance process host fuel a s = some (stop, t)
  := by
  induction h with
  | finish ha =>
      use 1
      simp only [advance, ha]
  | stray ha =>
      use 1
      simp only [advance, ha]
  | suspend ha =>
      use 1
      simp only [advance, ha]
  | move hmove _ ih =>
      obtain ⟨fuel, hfuel⟩ := ih
      use fuel + 1
      rw [hmove.advance_succ, hfuel]

/-- A run after a move is a run with the move. -/
theorem Runs.move {now calls : List Call} {ending : Ending}
    (hmove : Move process host a s now b s') (h : Runs process host b s' calls ending t) :
  Runs process host a s (now ++ calls) ending t
  := by
  cases h with
  | ended h => apply Runs.ended (.move hmove h)
  | suspended h hlater =>
      rw [← List.append_assoc]
      apply Runs.suspended (.move hmove h) hlater

/-- The calls of a run that ended are those of the steps that it took. -/
theorem runs_calls {fuel : Nat} {ending : Ending}
    (h : run process host fuel a s = some (ending, t)) :
  Runs process host a s (calls process host fuel a s) ending t
  := by
  induction fuel generalizing a s with
  | zero => cases h
  | succ fuel ih =>
      rcases stop_or_move process host a s with ha | ha | ⟨b, ha⟩ | ⟨now, b, s', hmove⟩
      · simp only [run, ha, Option.some.injEq, Prod.mk.injEq] at h
        obtain ⟨rfl, rfl⟩ := h
        simp only [calls, ha]
        apply Runs.ended (.finish ha)
      · simp only [run, ha, Option.some.injEq, Prod.mk.injEq] at h
        obtain ⟨rfl, rfl⟩ := h
        simp only [calls, ha]
        apply Runs.ended (.stray ha)
      · simp only [run, ha] at h
        simp only [calls, ha]
        apply Runs.suspended (.suspend ha) (ih h)
      · rw [hmove.run_succ] at h
        rw [hmove.calls_succ]
        apply Runs.move hmove (ih h)

/-- A run through a suspension takes as many steps more as it takes to get there. -/
theorem Advances.exists_run {calls : List Call} {stop : Stop α} {result : Ending × σ}
    (h : Advances process host a s calls stop t)
    (hended : ∀ ending, stop = .ended ending → result = (ending, t))
    (hsuspended : ∀ b, stop = .suspended b → ∃ fuel, run process host fuel b t = some result) :
  ∃ fuel, run process host fuel a s = some result
  := by
  induction h with
  | finish ha =>
      use 1
      simp only [run, ha, hended .finished rfl]
  | stray ha =>
      use 1
      simp only [run, ha, hended .strayed rfl]
  | suspend ha =>
      obtain ⟨fuel, hfuel⟩ := hsuspended _ rfl
      use fuel + 1
      simpa only [run, ha] using hfuel
  | move hmove _ ih =>
      obtain ⟨fuel, hfuel⟩ := ih hended hsuspended
      use fuel + 1
      rw [hmove.run_succ, hfuel]

/-- `Runs` is `run` with enough steps. -/
theorem run_iff {ending : Ending} :
  (∃ fuel, run process host fuel a s = some (ending, t))
    ↔ ∃ calls, Runs process host a s calls ending t
  := by
  constructor
  · rintro ⟨fuel, h⟩
    exact ⟨_, runs_calls h⟩
  · rintro ⟨calls, h⟩
    induction h with
    | ended h =>
        apply h.exists_run
        · rintro ending ⟨⟩
          rfl
        · rintro b ⟨⟩
    | suspended h _ ih =>
        apply h.exists_run
        · rintro ending ⟨⟩
        · rintro b ⟨⟩
          apply ih

/-! ### Keeping the calls -/

theorem Advances.recorded_append {calls : List Call} {stop : Stop α}
    (h : Advances process host a s calls stop t) (kept : Array Call) :
  Advances process host.recorded a (s, kept) calls stop (t, kept ++ calls.toArray)
  := by
  induction h generalizing kept with
  | finish ha =>
      rw [Array.append_empty]
      apply Advances.finish ha
  | stray ha =>
      rw [Array.append_empty]
      apply Advances.stray ha
  | suspend ha => apply Advances.suspend ha
  | move hmove _ ih =>
      rw [← List.append_toArray, ← Array.append_assoc]
      apply Advances.move (hmove.recorded kept) (ih _)

/-- A host that keeps its calls does not change where the process stops, and keeps the calls up to
there. -/
theorem Advances.recorded {calls : List Call} {stop : Stop α}
    (h : Advances process host a s calls stop t) :
  Advances process host.recorded a (s, #[]) calls stop (t, calls.toArray)
  := by
  have hrecorded := h.recorded_append #[]
  rw [Array.empty_append] at hrecorded
  apply hrecorded

theorem Runs.recorded_append {calls : List Call} {ending : Ending}
    (h : Runs process host a s calls ending t) (kept : Array Call) :
  Runs process host.recorded a (s, kept) calls ending (t, kept ++ calls.toArray)
  := by
  induction h generalizing kept with
  | ended h => apply Runs.ended (h.recorded_append kept)
  | suspended h _ ih =>
      rw [← List.append_toArray, ← Array.append_assoc]
      apply Runs.suspended (h.recorded_append kept) (ih _)

/-- A host that keeps its calls does not change how the process ends, and keeps all its calls. -/
theorem Runs.recorded {calls : List Call} {ending : Ending}
    (h : Runs process host a s calls ending t) :
  Runs process host.recorded a (s, #[]) calls ending (t, calls.toArray)
  := by
  have hrecorded := h.recorded_append #[]
  rw [Array.empty_append] at hrecorded
  apply hrecorded

end Process

/-! ### Segments -/

/-- The calls cut behind each suspension. The last segment is what comes after all of them. -/
def Call.segments : List Call → List (List Call)
  | [] => [[]]
  | .suspended :: calls => [.suspended] :: segments calls
  | .performed action :: calls => (segments calls).modifyHead (.performed action :: ·)
  | .evaluated condition holds :: calls =>
    (segments calls).modifyHead (.evaluated condition holds :: ·)

namespace Call

/-- There is one segment more than there are suspensions. -/
@[simp]
theorem length_segments (calls : List Call) :
  (segments calls).length = calls.count .suspended + 1
  := by
  induction calls with
  | nil => rfl
  | cons call calls ih =>
      cases call with
      | performed action => simp [segments, ih]
      | evaluated condition holds => simp [segments, ih]
      | suspended => simp [segments, ih]

/-- Calls without a suspension come into the first segment. -/
theorem segments_append {now : List Call} (h : .suspended ∉ now) (calls : List Call) :
  segments (now ++ calls) = (segments calls).modifyHead (now ++ ·)
  := by
  induction now with
  | nil => exact (congrFun List.modifyHead_id (segments calls)).symm
  | cons call now ih =>
      obtain ⟨hcall, hnow⟩ := List.ne_and_not_mem_of_not_mem_cons h
      cases call with
      | performed action => simp [segments, ih hnow, Function.comp_def]
      | evaluated condition holds => simp [segments, ih hnow, Function.comp_def]
      | suspended => apply absurd rfl hcall

end Call

namespace Process

variable {α : Type u} {σ : Type v} {process : Process α} {host : Host σ} {a b : α} {s t : σ}

/-- The calls up to a suspension are the first segment of the calls of the run. -/
theorem Advances.segments_append {calls : List Call}
    (h : Advances process host a s calls (.suspended b) t) (later : List Call) :
  Call.segments (calls ++ later) = calls :: Call.segments later
  := by
  generalize hstop : Stop.suspended b = stop at h
  induction h with
  | finish _ => cases hstop
  | stray _ => cases hstop
  | suspend _ => rfl
  | move hmove _ ih =>
      rw [List.append_assoc, Call.segments_append hmove.suspended_not_mem, ih hstop]
      rfl

/-- The calls up to the end are the last segment of the calls of the run. -/
theorem Advances.segments_eq {calls : List Call} {ending : Ending}
    (h : Advances process host a s calls (.ended ending) t) :
  Call.segments calls = [calls]
  := by
  generalize hstop : Stop.ended ending = stop at h
  induction h with
  | finish _ => rfl
  | stray _ => rfl
  | suspend _ => cases hstop
  | move hmove _ ih =>
      rw [Call.segments_append hmove.suspended_not_mem, ih hstop]
      rfl

theorem Advances.count_append {calls : List Call}
    (h : Advances process host a s calls (.suspended b) t) (later : List Call) :
  (calls ++ later).count .suspended = later.count .suspended + 1
  := by
  have hlength := congrArg List.length (h.segments_append later)
  rw [List.length_cons, Call.length_segments, Call.length_segments] at hlength
  apply Nat.succ.inj hlength

theorem Advances.count_eq_zero {calls : List Call} {ending : Ending}
    (h : Advances process host a s calls (.ended ending) t) :
  calls.count .suspended = 0
  := by
  have hlength := congrArg List.length h.segments_eq
  rw [Call.length_segments] at hlength
  apply Nat.succ.inj hlength

/-- If there is a suspension among the calls of the first steps of a run, then the process
suspends, and what is left of these calls are the calls of the first steps from there on. -/
theorem exists_advances_of_mem_calls {steps : Nat} (h : .suspended ∈ calls process host steps a s) :
  ∃ now b t steps', Advances process host a s now (.suspended b) t
    ∧ calls process host steps a s = now ++ calls process host steps' b t
  := by
  induction steps generalizing a s with
  | zero => cases h
  | succ steps ih =>
      rcases stop_or_move process host a s with ha | ha | ⟨b, ha⟩ | ⟨now, b, s', hmove⟩
      · simp [calls, ha] at h
      · simp [calls, ha] at h
      · use [.suspended], b, host.suspend s, steps, .suspend ha
        simp only [calls, ha, List.singleton_append]
      · rw [hmove.calls_succ] at h ⊢
        have hlater := (List.mem_append.mp h).resolve_left hmove.suspended_not_mem
        obtain ⟨later, c, t, steps', hadvances, hcalls⟩ := ih hlater
        use now ++ later, c, t, steps', .move hmove hadvances
        rw [hcalls, List.append_assoc]

/-- Whenever the process suspends it is in a state in which it asks for that. -/
theorem Advances.exists_suspend {calls : List Call}
    (h : Advances process host a s calls (.suspended b) t) :
  ∃ c, process c = .suspend b
  := by
  generalize hstop : Stop.suspended b = stop at h
  induction h with
  | finish _ => cases hstop
  | stray _ => cases hstop
  | suspend ha =>
      cases hstop
      exact ⟨_, ha⟩
  | move _ _ ih => apply ih hstop

end Process

end Resumable
