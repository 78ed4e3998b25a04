import Resumable.Proofs.Machine.Resumption
import Resumable.Proofs.Process.Simulation

/-!
# Histories of resumes

The history of a machine lists what happened in each of some resumes, one after the other:
what it led to and which calls the host got. A history ends with a resume that returned, so there
is no history through one that goes on forever.

A machine has at most one history for a number of resumes (`History.unique`), and machines that
execute code which behaves alike have the same histories (`Twins.history`). They need not stand at
the same addresses.
-/

universe u

namespace Resumable

namespace Machine

/-- What happened in a resume. -/
structure Episode where
  /-- What the resume led to. -/
  result : Except MachineError Resumption
  /-- The calls that the host got. -/
  calls : List Call

/-- The machine, on the host in state `s`, was resumed once for each episode; this led to
another machine and left the host in another state. -/
inductive History {σ : Type u} (host : Host σ) :
    Machine → σ → List Episode → Machine → σ → Prop where
  | nil (machine : Machine) (s : σ) : History host machine s [] machine s
  | cons {machine machine' machine'' : Machine} {s s' s'' : σ} {fuel : Nat} {calls : Array Call}
      {result : Except MachineError Resumption} {later : List Episode} :
      machine.resume host.recorded fuel (s, #[]) = some ⟨result, machine', (s', calls)⟩ →
      History host machine' s' later machine'' s'' →
      History host machine s (⟨result, calls.toList⟩ :: later) machine'' s''

/-- A resume of the machine, on the host in state `s`, returns. -/
def Returns {σ : Type u} (host : Host σ) (machine : Machine) (s : σ) : Prop :=
  ∃ fuel, (machine.resume host fuel s).isSome

/-- The machines execute code, the one and the other, and are done or stand where the code
behaves alike. -/
structure Twins (code code' : Code) (machine machine' : Machine) : Prop where
  left : Executes code machine
  right : Executes code' machine'
  counters : (machine.counter = .done ∧ machine'.counter = .done)
    ∨ ∃ address address', machine.counter = .ready address ∧ machine'.counter = .ready address'
      ∧ Process.Alike.{0, 0, u} code.next code'.next address address'

variable {σ : Type u} {host : Host σ} {code code' : Code} {machine machine' : Machine} {s t : σ}

/-- There is only one history of a machine for a number of resumes. -/
theorem History.unique {episodes episodes' : List Episode} {after after' : Machine} {t' : σ}
    (h : History host machine s episodes after t) (h' : History host machine s episodes' after' t')
    (hlength : episodes.length = episodes'.length) :
  episodes = episodes' ∧ after = after' ∧ t = t'
  := by
  induction h generalizing episodes' with
  | nil machine s =>
      cases h' with
      | nil => exact ⟨rfl, rfl, rfl⟩
      | cons => cases hlength
  | cons hresume _ ih =>
      cases h' with
      | nil => cases hlength
      | cons hresume' hlater =>
          cases resume_unique hresume hresume'
          obtain ⟨rfl, rfl, rfl⟩ := ih hlater (Nat.succ.inj hlength)
          exact ⟨rfl, rfl, rfl⟩

namespace Twins

theorem ofTable (hcode : code.WellNumbered) (hcode' : code'.WellNumbered)
    (h : Process.Alike.{0, 0, u} code.next code'.next 0 0) :
  Twins.{u} code code' (Machine.ofTable code.table) (Machine.ofTable code'.table)
  := by
  constructor
  · apply Executes.ofTable hcode
  · apply Executes.ofTable hcode'
  · right
    use 0, 0, congrArg Counter.ready hcode.start_table, congrArg Counter.ready hcode'.start_table

theorem symm (h : Twins.{u} code code' machine machine') :
  Twins.{u} code' code machine' machine
  := by
  constructor
  · apply h.right
  · apply h.left
  · rcases h.counters with ⟨hdone, hdone'⟩ | ⟨address, address', hready, hready', halike⟩
    · exact .inl ⟨hdone', hdone⟩
    · exact .inr ⟨address', address, hready', hready, halike.symm⟩

/-- Twins return the same from a resume and leave their hosts in the same state, and they are
twins again then. -/
theorem resume (h : Twins.{u} code code' machine machine') {fuel : Nat}
    {outcome : Outcome Resumption σ} (hresume : machine.resume host fuel s = some outcome) :
  ∃ fuel' after, machine'.resume host fuel' s = some ⟨outcome.result, after, outcome.host⟩
    ∧ Twins.{u} code code' outcome.machine after
  := by
  rcases h.counters with ⟨hdone, hdone'⟩ | ⟨address, address', hready, hready', halike⟩
  · rw [Executes.resume_of_done hdone] at hresume
    cases hresume
    exact ⟨0, machine', Executes.resume_of_done hdone' 0 s, h⟩
  · obtain ⟨calls, stop, t, hadvances, rfl⟩ := h.left.exists_advances hready hresume
    obtain ⟨stop', hadvances', hstop⟩ := halike.advances hadvances
    obtain ⟨fuel', hresume'⟩ := h.right.exists_resume hready' hadvances'
    cases hstop with
    | ended ending =>
        cases ending with
        | finished =>
            exact ⟨fuel', _, hresume', h.left.of_done, h.right.of_done, .inl ⟨rfl, rfl⟩⟩
        | strayed => exact ⟨fuel', machine', hresume', h⟩
    | suspended halike' =>
        refine ⟨fuel', _, hresume', ?_, ?_, .inr ⟨_, _, rfl, rfl, halike'⟩⟩
        · apply h.left.of_suspended hadvances
        · apply h.right.of_suspended hadvances'

theorem returns (h : Twins.{u} code code' machine machine') (hreturns : machine.Returns host s) :
  machine'.Returns host s
  := by
  obtain ⟨fuel, hsome⟩ := hreturns
  obtain ⟨outcome, hresume⟩ := Option.isSome_iff_exists.mp hsome
  obtain ⟨fuel', after, hresume', -⟩ := h.resume hresume
  use fuel'
  rw [hresume']
  rfl

/-- Twins have the same histories, and are twins afterwards. -/
theorem history (h : Twins.{u} code code' machine machine') {episodes : List Episode}
    {after : Machine} (hhistory : History host machine s episodes after t) :
  ∃ after', History host machine' s episodes after' t ∧ Twins.{u} code code' after after'
  := by
  induction hhistory generalizing machine' with
  | nil machine s => exact ⟨machine', .nil machine' s, h⟩
  | cons hresume _ ih =>
      obtain ⟨fuel', next, hresume', htwins⟩ := h.resume hresume
      obtain ⟨after', hhistory', htwins'⟩ := ih htwins
      exact ⟨after', .cons hresume' hhistory', htwins'⟩

end Twins

end Machine

end Resumable
