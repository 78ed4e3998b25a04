import Resumable.Proofs.Code.Loops
import Resumable.Proofs.Machine.History

/-!
# Lowered flows do not run on in silence

A process over addresses is paced, `Process.Paced`, if without an answer of its host it only goes on
to later addresses, or to one where it asks for an answer. Such a process makes only as many silent
moves in a row as there are addresses (`Paced.le_of_silentlyIn`), and if it does not stop, then it
asks for answers again and again (`Paced.exists_moves`).

Structured code is paced, since a jump back leads to the test of a loop.
-/

universe u v

namespace Resumable

/-- Whether a condition was evaluated. -/
def Call.isEvaluation : Call → Bool
  | .evaluated _ _ => true
  | .performed _ | .suspended => false

/-- The process calls its host, or has completed. -/
def Request.IsVisible {α : Type u} : Request α → Prop
  | .finish | .perform _ _ | .evaluate _ _ | .suspend _ => True
  | .stray | .silent _ => False

namespace Process

/-- The process gets from one state to the other by this number of silent moves. -/
def SilentlyIn {α : Type u} (process : Process α) : Nat → α → α → Prop
  | 0, a, b => a = b
  | n + 1, a, b => ∃ c, process a = .silent c ∧ SilentlyIn process n c b

/-- The process gets from one state to the other by moves, with these calls. -/
inductive Moves {α : Type u} {σ : Type v} (process : Process α) (host : Host σ) :
    α → σ → List Call → α → σ → Prop where
  | refl (a : α) (s : σ) : Moves process host a s [] a s
  | head {a b c : α} {s s' t : σ} {now later : List Call} :
      Move process host a s now b s' → Moves process host b s' later c t →
      Moves process host a s (now ++ later) c t

/-- Up to `bound`, the process goes on from an address without an answer to a later one, or to one
where it asks for an answer. From there on it does not go on without an answer. -/
def Paced (process : Process Nat) (bound : Nat) : Prop :=
  ∀ i j, process i = .silent j ∨ (∃ action, process i = .perform action j) →
    i < bound ∧ (i < j ∨ ∃ cond next, process j = .evaluate cond next)

/-! ### Moves in a row -/

namespace Moves

variable {α : Type u} {σ : Type v} {process : Process α} {host : Host σ} {a b c : α} {s s' t : σ}
  {calls later : List Call}

theorem trans (h : Moves process host a s calls b s') (h' : Moves process host b s' later c t) :
  Moves process host a s (calls ++ later) c t
  := by
  induction h with
  | refl a s => apply h'
  | head hmove _ ih =>
      rw [List.append_assoc]
      apply Moves.head hmove (ih h')

/-- Where the process stops after some moves, it stops with them. -/
theorem advances {stop : Stop α} (h : Moves process host a s calls b s')
    (hadvances : Advances process host b s' later stop t) :
  Advances process host a s (calls ++ later) stop t
  := by
  induction h with
  | refl a s => apply hadvances
  | head hmove _ ih =>
      rw [List.append_assoc]
      apply Advances.move hmove (ih hadvances)

/-- The calls of moves are those of the first steps of a run. -/
theorem exists_calls_eq (h : Moves process host a s calls b t) :
  ∃ steps, Process.calls process host steps a s = calls
  := by
  induction h with
  | refl a s =>
      use 0
      rfl
  | head hmove _ ih =>
      obtain ⟨steps, hcalls⟩ := ih
      use steps + 1
      rw [hmove.calls_succ, hcalls]

/-- Moves take some of the steps of a run, and leave it the others. -/
theorem exists_advance_eq (h : Moves process host a s calls b t) :
  ∃ steps, ∀ fuel, advance process host (steps + fuel) a s = advance process host fuel b t
  := by
  induction h with
  | refl a s =>
      use 0
      intro fuel
      rw [Nat.zero_add]
  | head hmove _ ih =>
      obtain ⟨steps, hsteps⟩ := ih
      use steps + 1
      intro fuel
      rw [Nat.add_right_comm, hmove.advance_succ, hsteps]

/-- A host that keeps its calls keeps those of the moves. -/
theorem recorded (h : Moves process host a s calls b t) (kept : Array Call) :
  Moves process host.recorded a (s, kept) calls b (t, kept ++ calls.toArray)
  := by
  induction h generalizing kept with
  | refl a s =>
      rw [Array.append_empty]
      apply Moves.refl
  | head hmove _ ih =>
      rw [← List.append_toArray, ← Array.append_assoc]
      apply Moves.head (hmove.recorded kept) (ih _)

theorem suspended_not_mem (h : Moves process host a s calls b t) :
  .suspended ∉ calls
  := by
  induction h with
  | refl a s => simp
  | head hmove _ ih => simp [hmove.suspended_not_mem, ih]

end Moves

/-! ### Paced processes -/

namespace Paced

variable {process : Process Nat} {bound n i j : Nat}

/-- A paced process makes no more silent moves than there are addresses from where it is. -/
theorem le_of_silentlyIn (h : Paced process bound) (hsilent : SilentlyIn process n i j) :
  n ≤ bound - i
  := by
  induction n generalizing i with
  | zero => apply Nat.zero_le
  | succ n ih =>
      obtain ⟨k, hk, hrest⟩ := hsilent
      obtain ⟨hi, hlt | ⟨cond, next, hevaluate⟩⟩ := h i k (.inl hk)
      · have := ih hrest
        omega
      · -- an answer is asked for at once
        cases n with
        | zero => omega
        | succ n =>
            obtain ⟨l, hl, -⟩ := hrest
            rw [hevaluate] at hl
            cases hl

/-- The silent moves of a paced process come to an end. -/
theorem exists_silentlyIn (h : Paced process bound) (i : Nat) :
  ∃ n j, SilentlyIn process n i j ∧ ∀ k, process j ≠ .silent k
  := by
  by_cases hsilent : ∃ k, process i = .silent k
  · obtain ⟨k, hk⟩ := hsilent
    obtain ⟨hi, hlt | ⟨cond, next, hevaluate⟩⟩ := h i k (.inl hk)
    · obtain ⟨n, j, hn, hj⟩ := exists_silentlyIn h k
      exact ⟨n + 1, j, ⟨k, hk, hn⟩, hj⟩
    · refine ⟨1, k, ⟨k, hk, rfl⟩, ?_⟩
      rw [hevaluate]
      rintro l ⟨⟩
  · exact ⟨0, i, rfl, fun k hk => hsilent ⟨k, hk⟩⟩
termination_by bound - i

section Host

variable {σ : Type v} {host : Host σ} {s : σ}

/-- A move of a paced process is an evaluation, or goes on as it has to without one. -/
theorem move_cases (h : Paced process bound) {now : List Call} {t : σ}
    (hmove : Move process host i s now j t) :
  now.countP Call.isEvaluation = 1
    ∨ i < bound ∧ (i < j ∨ ∃ cond next, process j = .evaluate cond next)
  := by
  cases hmove with
  | silent hi =>
      right
      apply h i j (.inl hi)
  | perform hi =>
      right
      apply h i j (.inr ⟨_, hi⟩)
  | evaluate _ =>
      left
      rfl

/-- A paced process that does not stop asks for an answer. -/
theorem exists_moves_one (h : Paced process bound) {i : Nat} {s : σ}
    (hendless : ∀ calls stop t, ¬ Advances process host i s calls stop t) :
  ∃ calls j t, Moves process host i s calls j t ∧ 1 ≤ calls.countP Call.isEvaluation
  := by
  rcases stop_or_move process host i s with hi | hi | ⟨j, hi⟩ | ⟨now, j, s', hmove⟩
  · apply absurd (Advances.finish hi) (hendless _ _ _)
  · apply absurd (Advances.stray hi) (hendless _ _ _)
  · apply absurd (Advances.suspend hi) (hendless _ _ _)
  · rcases h.move_cases hmove with hnow | ⟨hi, hlt | ⟨cond, next, hevaluate⟩⟩
    · refine ⟨_, _, _, .head hmove (.refl j s'), ?_⟩
      rw [List.append_nil]
      apply Nat.le_of_eq hnow.symm
    · have hendless' : ∀ calls stop t, ¬ Advances process host j s' calls stop t := by
        intro calls stop t hadvances
        apply hendless _ _ _ (.move hmove hadvances)
      obtain ⟨calls, k, t, hmoves, hcalls⟩ := exists_moves_one h hendless'
      refine ⟨_, _, _, .head hmove hmoves, ?_⟩
      rw [List.countP_append]
      omega
    · refine ⟨_, _, _, .head hmove (.head (.evaluate hevaluate) (.refl _ _)), ?_⟩
      simp [Call.isEvaluation]
termination_by bound - i

/-- A paced process that does not stop asks for answers any number of times. -/
theorem exists_moves (h : Paced process bound)
    (hendless : ∀ calls stop t, ¬ Advances process host i s calls stop t) (n : Nat) :
  ∃ calls j t, Moves process host i s calls j t ∧ n ≤ calls.countP Call.isEvaluation
  := by
  induction n with
  | zero => exact ⟨_, _, _, .refl i s, Nat.zero_le _⟩
  | succ n ih =>
      obtain ⟨calls, j, t, hmoves, hcalls⟩ := ih
      have hendless' : ∀ later stop t', ¬ Advances process host j t later stop t' := by
        intro later stop t' hadvances
        apply hendless _ _ _ (hmoves.advances hadvances)
      obtain ⟨later, k, t', hmoves', hlater⟩ := h.exists_moves_one hendless'
      refine ⟨_, _, _, hmoves.trans hmoves', ?_⟩
      rw [List.countP_append]
      omega

end Host

end Paced

end Process

/-! ### Structured code -/

namespace Code

open Process

variable {code : Code} {i j n : Nat}

/-- An operation that goes on without an answer is a jump, or goes on at the next address. -/
theorem request_cases {op : Op}
    (h : op.request i = .silent j ∨ ∃ action, op.request i = .perform action j) :
  j = i + 1 ∨ op = .jump j
  := by
  cases op with
  | action text =>
      left
      rcases h with h | ⟨action, h⟩
      · cases h
      · cases h
        rfl
  | noop =>
      left
      rcases h with h | ⟨action, h⟩
      · cases h
        rfl
      · cases h
  | jump target =>
      right
      rcases h with h | ⟨action, h⟩
      · cases h
        rfl
      · cases h
  | suspend =>
      rcases h with h | ⟨action, h⟩
      · cases h
      · cases h
  | jumpIf cond polarity target =>
      rcases h with h | ⟨action, h⟩
      · cases h
      · cases h

/-- Structured code is paced. -/
theorem paced_of_isStructured (h : code.placement.IsStructured) :
  Paced code.next code.length
  := by
  intro i j hij
  have hleads : (code.next i).LeadsTo j := by
    rcases hij with hij | ⟨action, hij⟩
    · rw [hij]
      rfl
    · rw [hij]
      rfl
  obtain ⟨instr, hinstr, -⟩ := exists_getElem?_of_leadsTo hleads
  use (List.getElem?_eq_some_iff.mp hinstr).1
  rw [next_of_getElem? hinstr] at hij
  rcases request_cases hij with rfl | hjump
  · left
    apply Nat.lt_succ_self
  · apply (h.jump i j ⟨instr, hinstr, hjump⟩).imp_right
    intro hloop
    obtain ⟨cond, test, htest, hjumpIf⟩ := hloop.test
    rw [next_of_getElem? htest, hjumpIf]
    exact ⟨_, _, rfl⟩

theorem WellNumbered.le_of_silentlyIn (hcode : code.WellNumbered)
    (h : SilentlyIn code.next n i j) (hi : i ≤ code.length) :
  j ≤ code.length
  := by
  induction n generalizing i with
  | zero =>
      rw [← h]
      apply hi
  | succ n ih =>
      obtain ⟨k, hk, hrest⟩ := h
      apply ih hrest
      apply hcode.le_of_leadsTo
      rw [hk]
      rfl

/-- Where code does not move silently, it calls the host or has completed. -/
theorem isVisible_next (hle : i ≤ code.length) (h : ∀ j, code.next i ≠ .silent j) :
  (code.next i).IsVisible
  := by
  rcases Nat.eq_or_lt_of_le hle with rfl | hlt
  · rw [next_length]
    trivial
  · rw [next_of_getElem? (List.getElem?_eq_getElem hlt)] at h ⊢
    cases hop : code[i].op with
    | action text => trivial
    | suspend => trivial
    | noop =>
        rw [hop] at h
        apply absurd rfl (h (i + 1))
    | jumpIf cond polarity target => trivial
    | jump target =>
        rw [hop] at h
        apply absurd rfl (h target)

end Code

/-! ### Machines over the table of a flow -/

/-- A resume of a machine over paced code that does not return asks for answers any number of
times, and does not suspend. -/
theorem Machine.Executes.exists_calls {σ : Type u} {host : Host σ} {s : σ} {code : Code}
    {machine : Machine} (h : Executes code machine) (hpaced : Process.Paced code.next code.length)
    (hendless : ¬ machine.Returns host s) :
  ∃ address, machine.counter = .ready address ∧ ∀ n, ∃ steps,
    .suspended ∉ Process.calls code.next host steps address s
    ∧ n ≤ (Process.calls code.next host steps address s).countP Call.isEvaluation
  := by
  cases hcounter : machine.counter with
  | done =>
      exfalso
      apply hendless
      use 0
      rw [resume_of_done hcounter]
      rfl
  | ready address =>
      have hendless' : ∀ calls stop t,
          ¬ Process.Advances code.next host address s calls stop t := by
        intro calls stop t hadvances
        apply hendless
        obtain ⟨fuel, hresume⟩ := h.exists_resume hcounter hadvances
        use fuel
        rw [hresume]
        rfl
      use address, rfl
      intro n
      obtain ⟨calls, j, t, hmoves, hcount⟩ := hpaced.exists_moves hendless' n
      obtain ⟨steps, hcalls⟩ := hmoves.exists_calls_eq
      use steps
      rw [hcalls]
      exact ⟨hmoves.suspended_not_mem, hcount⟩

namespace Flow

open Machine Process

variable {flow : Flow}

/-- Wherever a machine over the table of a well formed flow stands, it calls its host or completes
after no more silent moves than there are instructions. A resume that does not return asks the
host for answers any number of times. -/
theorem WellFormed.resume_lower_progress (h : flow.WellFormed) :
  ∃ linear code table, flow.linearize = .ok linear ∧ linear.compress = .ok code
    ∧ code.partition = .ok table
    ∧ (∀ i ≤ code.length, (∀ n j, SilentlyIn table.next n i j → n ≤ code.length)
      ∧ ∃ n j, SilentlyIn table.next n i j ∧ (table.next j).IsVisible)
    ∧ ∀ machine, Reachable.{u} table machine → ∀ {σ : Type u} (host : Host σ) (s : σ),
      ¬ machine.Returns host s →
      ∃ address, machine.counter = .ready address ∧ ∀ n, ∃ steps,
        .suspended ∉ Process.calls table.next host steps address s
        ∧ n ≤ (Process.calls table.next host steps address s).countP Call.isEvaluation
  := by
  have hcode := flow.wellNumbered_code
  have hcompact := hcode.compact
  have hpaced := Code.paced_of_isStructured flow.isStructured_compact
  refine ⟨flow.code, flow.code.compact, flow.code.compact.table, linearize_eq h,
    hcode.compress_eq, hcompact.partition_eq, ?_, ?_⟩
  · intro i hi
    rw [hcompact.next_table]
    constructor
    · intro n j hsilent
      apply Nat.le_trans (hpaced.le_of_silentlyIn hsilent) (Nat.sub_le _ i)
    · obtain ⟨n, j, hsilent, hj⟩ := hpaced.exists_silentlyIn i
      use n, j, hsilent
      apply Code.isVisible_next (hcompact.le_of_silentlyIn hsilent hi) hj
  · intro machine hmachine σ host s
    rw [hcompact.next_table]
    apply (hmachine.executes hcompact).exists_calls hpaced

/-- A loop that goes on forever and does nothing but test its condition. -/
theorem WellFormed.resume_lower_progress_forever :
  let flow : Flow := [.loop none "true" []]
  let host : Host Unit := ⟨fun _ s => s, fun _ s => (true, s), id⟩
  flow.WellFormed ∧ ∃ linear code table, flow.linearize = .ok linear
    ∧ linear.compress = .ok code ∧ code.partition = .ok table
    ∧ (∀ n j, SilentlyIn table.next n 1 j → n ≤ 3)
    ∧ ¬ (ofTable table).Returns host ()
    ∧ ∀ n, ∃ steps, n ≤ (Process.calls table.next host steps 0 ()).countP Call.isEvaluation
  := by
  intro flow host
  have hflow : flow.WellFormed := by decide
  obtain ⟨linear, code, table, hlinear, hcompress, hpartition, hsilent, hendless⟩ :=
    resume_lower_progress hflow
  obtain ⟨hcode, htable⟩ := hflow.eq_compact hlinear hcompress hpartition
  have hlength : code.length = 3 := by
    rw [hcode]
    decide
  have htable' : table = [⟨⟨0, .jumpIf "true" .onFalse 2, true⟩, [⟨1, .jump 0, false⟩]⟩,
      ⟨⟨2, .noop, true⟩, []⟩] := by
    rw [htable]
    decide
  have hforever : ∀ fuel, Process.advance table.next host fuel 0 () = none
      ∧ Process.advance table.next host fuel 1 () = none := by
    intro fuel
    rw [htable']
    induction fuel with
    | zero => exact ⟨rfl, rfl⟩
    | succ fuel ih => exact ⟨ih.2, ih.1⟩
  have hreturns : ¬ (ofTable table).Returns host () := by
    rintro ⟨fuel, hsome⟩
    have hresume : (ofTable table).resume host fuel ()
        = (Process.advance table.next host fuel 0 ()).map (ofTable table).ofStop := by
      rw [htable']
      rfl
    rw [hresume, (hforever fuel).1] at hsome
    cases hsome
  obtain ⟨address, hcounter, hcalls⟩ := hendless (ofTable table) .start host () hreturns
  obtain rfl : 0 = address := by
    rw [htable'] at hcounter
    cases hcounter
    rfl
  rw [hlength] at hsilent
  refine ⟨hflow, linear, code, table, hlinear, hcompress, hpartition, ?_, hreturns, ?_⟩
  · apply (hsilent 1 (by decide)).1
  · intro n
    obtain ⟨steps, -, hcount⟩ := hcalls n
    use steps

end Flow

end Resumable
