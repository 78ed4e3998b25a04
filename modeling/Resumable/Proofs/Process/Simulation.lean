import Resumable.Proofs.Process.Runs
import Mathlib.Logic.Relation

/-!
# Processes that behave alike

States of two processes are alike if no host can tell the processes apart from there on: each
makes the calls that the other makes before it stops, stops in the same way, and after a
suspension both go on in states that are alike again. If one of them does not stop, neither does
the other. `Process.Alike` says so; it is symmetric and transitive.

States are alike if they are related by a simulation (`IsSimulation.alike`): of related states,
the first process gets to a state where it requests the same as the second one by silent moves,
of which there are only finitely many.
-/

universe u v w x

namespace Resumable

/-- Requests for the same, after which the processes go on in related states. -/
inductive Request.Rel {α : Type u} {β : Type v} (R : α → β → Prop) :
    Request α → Request β → Prop where
  | finish : Rel R .finish .finish
  | stray : Rel R .stray .stray
  | silent {a : α} {b : β} : R a b → Rel R (.silent a) (.silent b)
  | perform {a : α} {b : β} (action : String) :
      R a b → Rel R (.perform action a) (.perform action b)
  | evaluate {f : Bool → α} {g : Bool → β} (condition : String) :
      (∀ holds, R (f holds) (g holds)) → Rel R (.evaluate condition f) (.evaluate condition g)
  | suspend {a : α} {b : β} : R a b → Rel R (.suspend a) (.suspend b)

namespace Request.Rel

variable {α : Type u} {β : Type v} {R : α → β → Prop} {request : Request β}

theorem swap {request' : Request α} (h : Rel R request' request) :
  Rel (flip R) request request'
  := by
  cases h with
  | finish => apply Rel.finish
  | stray => apply Rel.stray
  | silent h =>
      apply Rel.silent
      apply h
  | perform action h =>
      apply Rel.perform
      apply h
  | evaluate condition h =>
      apply Rel.evaluate
      intro holds
      apply h
  | suspend h =>
      apply Rel.suspend
      apply h

theorem eq_finish (h : Rel R .finish request) :
  request = .finish
  := by
  cases h
  rfl

theorem eq_stray (h : Rel R .stray request) :
  request = .stray
  := by
  cases h
  rfl

theorem exists_eq_suspend {a : α} (h : Rel R (.suspend a) request) :
  ∃ b, request = .suspend b ∧ R a b
  := by
  cases h with
  | suspend h => exact ⟨_, rfl, h⟩

end Request.Rel

namespace Process

/-- Stops for the same reason, after which the processes go on in related states. -/
inductive Stop.Rel {α : Type u} {β : Type v} (R : α → β → Prop) : Stop α → Stop β → Prop where
  | ended (ending : Ending) : Rel R (.ended ending) (.ended ending)
  | suspended {a : α} {b : β} : R a b → Rel R (.suspended a) (.suspended b)

/-- The process gets from one state to the other without a call of its host. -/
def Silently {α : Type u} (process : Process α) : α → α → Prop :=
  Relation.ReflTransGen fun a b => process a = .silent b

variable {α : Type u} {β : Type v} {γ : Type x} {σ : Type w}
variable {p : Process α} {q : Process β} {r : Process γ} {R : α → β → Prop}
variable {host : Host σ} {a a' : α} {b : β} {c : γ} {s t : σ} {calls : List Call}

/-- In related states, the first process requests the same as the second one, at once or after
silent moves. -/
def IsSimulation (p : Process α) (q : Process β) (R : α → β → Prop) : Prop :=
  ∀ a b, R a b → ∃ a', Silently p a a' ∧ Request.Rel R (p a') (q b)

/-- Whatever the first process does up to its next stop, the second one does too. -/
def Follows (p : Process α) (q : Process β) (R : α → β → Prop) : Prop :=
  ∀ a b, R a b → ∀ (σ : Type w) (host : Host σ) (s t : σ) (calls : List Call) (stop : Stop α),
    Advances p host a s calls stop t →
    ∃ stop', Advances q host b s calls stop' t ∧ Stop.Rel R stop stop'

/-- The processes behave alike from these states on. -/
def Alike (p : Process α) (q : Process β) (a : α) (b : β) : Prop :=
  ∃ R : α → β → Prop, Follows.{u, v, w} p q R ∧ Follows.{v, u, w} q p (flip R) ∧ R a b

/-! ### Simulations -/

/-- A process that can only move silently makes that move. -/
theorem Move.eq_of_silent {now : List Call} {a₁ a₂ : α} {s' : σ} (h : Move p host a s now a₁ s')
    (ha : p a = .silent a₂) :
  now = [] ∧ a₁ = a₂ ∧ s' = s
  := by
  cases h with
  | silent h =>
      rw [ha] at h
      cases h
      exact ⟨rfl, rfl, rfl⟩
  | perform h =>
      rw [ha] at h
      cases h
  | evaluate h =>
      rw [ha] at h
      cases h

/-- A process that requests the same makes the same move. -/
theorem Move.of_rel {now : List Call} {s' : σ} (h : Move p host a s now a' s')
    (hrel : Request.Rel R (p a) (q b)) :
  ∃ b', Move q host b s now b' s' ∧ R a' b'
  := by
  generalize hb : q b = request at hrel
  cases h with
  | silent ha =>
      rw [ha] at hrel
      cases hrel with
      | silent h => exact ⟨_, .silent hb, h⟩
  | perform ha =>
      rw [ha] at hrel
      cases hrel with
      | perform _ h => exact ⟨_, .perform hb, h⟩
  | evaluate ha =>
      rw [ha] at hrel
      cases hrel with
      | evaluate _ h => exact ⟨_, .evaluate hb, h _⟩

/-- A process that makes no silent move stays where it is. -/
theorem Silently.eq_of_forall_ne (h : Silently p a a') (ha : ∀ b, p a ≠ .silent b) :
  a = a'
  := by
  rcases h.cases_head with rfl | ⟨b, hsilent, -⟩
  · rfl
  · exact absurd hsilent (ha b)

/-- Silent moves do not change where the process stops. -/
theorem Silently.advances {stop : Stop α} (h : Silently p a a')
    (hadvances : Advances p host a' s calls stop t) :
  Advances p host a s calls stop t
  := by
  induction h using Relation.ReflTransGen.head_induction_on with
  | refl => apply hadvances
  | head ha _ ih => apply Advances.move (.silent ha) ih

/-- The second process of a simulation does what the first one does. The induction is on the run
of the first process: a silent move of it may be one that the second process does not make. -/
theorem IsSimulation.follows (hsim : IsSimulation p q R) :
  Follows.{u, v, w} p q R
  := by
  intro a b hab σ host s t calls stop h
  replace hab := hsim a b hab
  induction h generalizing b with
  | finish ha =>
      obtain ⟨a', hsilently, hrel⟩ := hab
      obtain rfl := hsilently.eq_of_forall_ne (by simp [ha])
      rw [ha] at hrel
      exact ⟨_, .finish hrel.eq_finish, .ended _⟩
  | stray ha =>
      obtain ⟨a', hsilently, hrel⟩ := hab
      obtain rfl := hsilently.eq_of_forall_ne (by simp [ha])
      rw [ha] at hrel
      exact ⟨_, .stray hrel.eq_stray, .ended _⟩
  | suspend ha =>
      obtain ⟨a', hsilently, hrel⟩ := hab
      obtain rfl := hsilently.eq_of_forall_ne (by simp [ha])
      rw [ha] at hrel
      obtain ⟨b', hb, hab'⟩ := hrel.exists_eq_suspend
      exact ⟨_, .suspend hb, .suspended hab'⟩
  | move hmove _ ih =>
      obtain ⟨a', hsilently, hrel⟩ := hab
      rcases hsilently.cases_head with rfl | ⟨c, hsilent, hrest⟩
      · obtain ⟨b', hmove', hab'⟩ := hmove.of_rel hrel
        obtain ⟨stop', h', hstop⟩ := ih b' (hsim _ _ hab')
        use stop', .move hmove' h', hstop
      · obtain ⟨rfl, rfl, rfl⟩ := hmove.eq_of_silent hsilent
        apply ih b ⟨a', hrest, hrel⟩

/-- The first process of a simulation does what the second one does. -/
theorem IsSimulation.follows_swap (hsim : IsSimulation p q R) :
  Follows.{v, u, w} q p (flip R)
  := by
  intro b a hab σ host s t calls stop h
  induction h generalizing a with
  | finish hb =>
      obtain ⟨a', hsilently, hrel⟩ := hsim _ _ hab
      rw [hb] at hrel
      exact ⟨_, hsilently.advances (.finish hrel.swap.eq_finish), .ended _⟩
  | stray hb =>
      obtain ⟨a', hsilently, hrel⟩ := hsim _ _ hab
      rw [hb] at hrel
      exact ⟨_, hsilently.advances (.stray hrel.swap.eq_stray), .ended _⟩
  | suspend hb =>
      obtain ⟨a', hsilently, hrel⟩ := hsim _ _ hab
      rw [hb] at hrel
      obtain ⟨a'', ha, hab'⟩ := hrel.swap.exists_eq_suspend
      exact ⟨_, hsilently.advances (.suspend ha), .suspended hab'⟩
  | move hmove _ ih =>
      obtain ⟨a', hsilently, hrel⟩ := hsim _ _ hab
      obtain ⟨a'', hmove', hab'⟩ := hmove.of_rel hrel.swap
      obtain ⟨stop', h', hstop⟩ := ih a'' hab'
      use stop', hsilently.advances (.move hmove' h'), hstop

/-- States that a simulation relates are alike. -/
theorem IsSimulation.alike (hsim : IsSimulation p q R) (h : R a b) :
  Alike.{u, v, w} p q a b
  :=
  ⟨R, hsim.follows, hsim.follows_swap, h⟩

/-! ### States that are alike -/

namespace Stop.Rel

variable {stop : Stop α} {stop' : Stop β} {stop'' : Stop γ}

theorem mono {S : α → β → Prop} (h : Stop.Rel R stop stop') (hle : ∀ a b, R a b → S a b) :
  Stop.Rel S stop stop'
  := by
  cases h with
  | ended ending => apply Stop.Rel.ended
  | suspended h => apply Stop.Rel.suspended (hle _ _ h)

theorem comp {S : β → γ → Prop} (h : Stop.Rel R stop stop') (h' : Stop.Rel S stop' stop'') :
  Stop.Rel (fun a c => ∃ b, R a b ∧ S b c) stop stop''
  := by
  cases h with
  | ended ending =>
      cases h'
      apply Stop.Rel.ended
  | suspended h =>
      cases h' with
      | suspended h' => apply Stop.Rel.suspended ⟨_, h, h'⟩

end Stop.Rel

/-- Processes that follow each other through a third one follow each other. -/
theorem Follows.comp {S : β → γ → Prop} (h : Follows.{u, v, w} p q R)
    (h' : Follows.{v, x, w} q r S) :
  Follows.{u, x, w} p r (Relation.Comp R S)
  := by
  rintro a c ⟨b, hab, hbc⟩ σ host s t calls stop hp
  obtain ⟨stop', hq, hstop⟩ := h a b hab σ host s t calls stop hp
  obtain ⟨stop'', hr, hstop'⟩ := h' b c hbc σ host s t calls stop' hq
  use stop'', hr, hstop.comp hstop'

namespace Alike

theorem symm (h : Alike.{u, v, w} p q a b) :
  Alike.{v, u, w} q p b a
  := by
  obtain ⟨R, hpq, hqp, hab⟩ := h
  use flip R, hqp, hpq, hab

theorem trans (h : Alike.{u, v, w} p q a b) (h' : Alike.{v, x, w} q r b c) :
  Alike.{u, x, w} p r a c
  := by
  obtain ⟨R, hpq, hqp, hab⟩ := h
  obtain ⟨S, hqr, hrq, hbc⟩ := h'
  use Relation.Comp R S, hpq.comp hqr
  rw [Relation.flip_comp]
  use hrq.comp hqp, b, hab, hbc

/-- From states that are alike, the processes stop after the same calls and in the same way, and
what they go on from is alike. -/
theorem advances {stop : Stop α} (h : Alike.{u, v, w} p q a b)
    (hadvances : Advances p host a s calls stop t) :
  ∃ stop', Advances q host b s calls stop' t ∧ Stop.Rel (Alike.{u, v, w} p q) stop stop'
  := by
  obtain ⟨R, hpq, hqp, hab⟩ := h
  obtain ⟨stop', hq, hstop⟩ := hpq a b hab _ _ _ _ _ _ hadvances
  use stop', hq
  apply hstop.mono
  intro a b hab
  use R, hpq, hqp, hab

end Alike

end Process

end Resumable
