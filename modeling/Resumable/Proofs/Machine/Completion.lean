import Resumable.Proofs.Machine.Resumption

/-!
# Resuming a machine until it completes

`Machine.Completes` relates a machine to the outcome of its resumes, one after the other, up to
the one that does not suspend. It holds exactly of what `Machine.complete` computes when it may
take enough steps (`completes_of_complete`, `Completes.exists_fuel`), and there is at most one such
outcome (`Completes.unique`).
-/

universe u

namespace Resumable

namespace Machine

variable {σ : Type u}

/-- The machine, on the host in state `s`, is resumed until it completes or fails. -/
inductive Completes (host : Host σ) : Machine → σ → Outcome Nat σ → Prop where
  | completed {machine machine' : Machine} {s t : σ} {fuel : Nat} :
      machine.resume host fuel s = some ⟨.ok .completed, machine', t⟩ →
      Completes host machine s ⟨.ok 0, machine', t⟩
  | failed {machine machine' : Machine} {s t : σ} {fuel : Nat} {error : MachineError} :
      machine.resume host fuel s = some ⟨.error error, machine', t⟩ →
      Completes host machine s ⟨.error error, machine', t⟩
  | suspended {machine machine' : Machine} {s s' : σ} {fuel : Nat} {outcome : Outcome Nat σ} :
      machine.resume host fuel s = some ⟨.ok .suspended, machine', s'⟩ →
      Completes host machine' s' outcome → Completes host machine s outcome.succ

variable {host : Host σ} {machine machine' : Machine} {fuel fuel' : Nat} {s s' t : σ}
  {outcome outcome' : Outcome Nat σ}

/-! ### One resume of many -/

theorem complete_succ_of_completed
    (h : machine.resume host fuel s = some ⟨.ok .completed, machine', t⟩) :
  machine.complete host (fuel + 1) s = some ⟨.ok 0, machine', t⟩
  := by
  simp only [complete, h]

theorem complete_succ_of_failed {error : MachineError}
    (h : machine.resume host fuel s = some ⟨.error error, machine', t⟩) :
  machine.complete host (fuel + 1) s = some ⟨.error error, machine', t⟩
  := by
  simp only [complete, h]

theorem complete_succ_of_suspended
    (h : machine.resume host fuel s = some ⟨.ok .suspended, machine', s'⟩) :
  machine.complete host (fuel + 1) s = (machine'.complete host fuel s').map Outcome.succ
  := by
  simp only [complete, h]

/-- What the first resume of a run led to that ended: completion, a failure, or a suspension,
behind which the run went on. -/
theorem complete_succ_cases (h : machine.complete host (fuel + 1) s = some outcome) :
  (∃ machine' t, machine.resume host fuel s = some ⟨.ok .completed, machine', t⟩
      ∧ outcome = ⟨.ok 0, machine', t⟩)
    ∨ (∃ error machine' t, machine.resume host fuel s = some ⟨.error error, machine', t⟩
      ∧ outcome = ⟨.error error, machine', t⟩)
    ∨ ∃ machine' s' later, machine.resume host fuel s = some ⟨.ok .suspended, machine', s'⟩
      ∧ machine'.complete host fuel s' = some later ∧ outcome = later.succ
  := by
  cases hresume : machine.resume host fuel s with
  | none =>
      simp only [complete, hresume] at h
      cases h
  | some resumed =>
      obtain ⟨result, machine', t⟩ := resumed
      cases result with
      | error error =>
          rw [complete_succ_of_failed hresume] at h
          cases h
          right; left
          use error, machine', t
      | ok resumption =>
          cases resumption with
          | completed =>
              rw [complete_succ_of_completed hresume] at h
              cases h
              left
              use machine', t
          | suspended =>
              rw [complete_succ_of_suspended hresume] at h
              obtain ⟨later, hlater, rfl⟩ := Option.map_eq_some_iff.mp h
              right; right
              use machine', t, later, rfl, hlater

/-! ### All resumes -/

/-- A run that ends does so in the same way if it may take more steps. -/
theorem complete_mono (h : machine.complete host fuel s = some outcome) (hle : fuel ≤ fuel') :
  machine.complete host fuel' s = some outcome
  := by
  induction fuel generalizing machine s outcome fuel' with
  | zero => cases h
  | succ fuel ih =>
      obtain ⟨fuel', rfl⟩ : ∃ n, fuel' = n + 1 := ⟨fuel' - 1, by omega⟩
      have hle' : fuel ≤ fuel' := by omega
      rcases complete_succ_cases h with ⟨machine', t, hresume, rfl⟩
        | ⟨error, machine', t, hresume, rfl⟩ | ⟨machine', s', later, hresume, hlater, rfl⟩
      · apply complete_succ_of_completed (resume_mono hresume hle')
      · apply complete_succ_of_failed (resume_mono hresume hle')
      · rw [complete_succ_of_suspended (resume_mono hresume hle'), ih hlater hle']
        rfl

theorem completes_of_complete (h : machine.complete host fuel s = some outcome) :
  Completes host machine s outcome
  := by
  induction fuel generalizing machine s outcome with
  | zero => cases h
  | succ fuel ih =>
      rcases complete_succ_cases h with ⟨machine', t, hresume, rfl⟩
        | ⟨error, machine', t, hresume, rfl⟩ | ⟨machine', s', later, hresume, hlater, rfl⟩
      · apply Completes.completed hresume
      · apply Completes.failed hresume
      · apply Completes.suspended hresume (ih hlater)

theorem Completes.exists_fuel (h : Completes host machine s outcome) :
  ∃ fuel, machine.complete host fuel s = some outcome
  := by
  induction h with
  | completed hresume => exact ⟨_, complete_succ_of_completed hresume⟩
  | failed hresume => exact ⟨_, complete_succ_of_failed hresume⟩
  | @suspended machine machine' s s' fuel outcome hresume _ ih =>
      obtain ⟨fuel', hlater⟩ := ih
      use max fuel fuel' + 1
      rw [complete_succ_of_suspended (resume_mono hresume (Nat.le_max_left fuel fuel')),
        complete_mono hlater (Nat.le_max_right fuel fuel')]
      rfl

theorem Completes.unique (h : Completes host machine s outcome)
    (h' : Completes host machine s outcome') :
  outcome = outcome'
  := by
  obtain ⟨fuel, h⟩ := h.exists_fuel
  obtain ⟨fuel', h'⟩ := h'.exists_fuel
  have hmax := complete_mono h (Nat.le_max_left fuel fuel')
  rw [complete_mono h' (Nat.le_max_right fuel fuel')] at hmax
  cases hmax
  rfl

end Machine

end Resumable
