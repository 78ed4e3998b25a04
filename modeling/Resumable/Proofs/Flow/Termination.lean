import Resumable.Proofs.Host.Answers
import Resumable.Proofs.Lowering

/-!
# Flows end on sparing hosts

Every step of a walk takes weight from the flow that is left, but for the start of a round of a
loop, which puts the weight of a round on top of it. A host that says yes a bounded number of
times starts a bounded number of rounds, so the walk ends, and the weight of the flow bounds its
steps (`Flow.exists_walk_of_sparing`). The machine over the table of the flow then completes as
well.
-/

universe u

namespace Resumable

mutual
/-- The conditions in the node, at any depth. -/
def Node.conditions : Node → List String
  | .action _ => []
  | .suspend => []
  | .branch _ cond body otherwise => cond :: (Flow.conditions body ++ Flow.conditions otherwise)
  | .loop _ cond body => cond :: Flow.conditions body

/-- The conditions in the flow, at any depth. -/
def Flow.conditions : Flow → List String
  | [] => []
  | node :: rest => node.conditions ++ Flow.conditions rest
end

namespace Flow

variable {flow rest : Flow} {bound budget : Nat} {conds : List String}

/-! ### Weights and conditions -/

theorem weight_append (flow rest : Flow) :
  weight (flow ++ rest) = flow.weight + rest.weight
  := by
  induction flow with
  | nil => simp [weight]
  | cons node flow ih => simp [weight, ih, Nat.add_assoc]

/-- Every condition belongs to a node that weighs something. -/
theorem length_conditions_le (flow : Flow) :
  flow.conditions.length ≤ flow.weight
  := by
  induction flow using Flow.induction with
  | nil => apply Nat.le_refl
  | action text rest ih =>
      simp only [conditions, Node.conditions, weight, Node.weight, List.length_append,
        List.length_nil]
      omega
  | suspend rest ih =>
      simp only [conditions, Node.conditions, weight, Node.weight, List.length_append,
        List.length_nil]
      omega
  | branch polarity cond body otherwise rest ihbody ihotherwise ih =>
      simp only [conditions, Node.conditions, weight, Node.weight, List.length_append,
        List.length_cons]
      omega
  | loop counting cond body rest ihbody ih =>
      simp only [conditions, Node.conditions, weight, Node.weight, List.length_append,
        List.length_cons]
      omega

/-- None of the nodes weighs more than `bound` or has other conditions than these. -/
def Within (bound : Nat) (conds : List String) (flow : Flow) : Prop :=
  ∀ node ∈ flow, node.weight ≤ bound ∧ node.conditions ⊆ conds

theorem within_cons {node : Node} :
  Within bound conds (node :: flow)
    ↔ (node.weight ≤ bound ∧ node.conditions ⊆ conds) ∧ flow.Within bound conds
  := by
  apply List.forall_mem_cons

theorem within_append :
  Within bound conds (flow ++ rest) ↔ flow.Within bound conds ∧ rest.Within bound conds
  := by
  apply List.forall_mem_append

theorem within_of_le (hweight : flow.weight ≤ bound) (hconds : flow.conditions ⊆ conds) :
  flow.Within bound conds
  := by
  induction flow with
  | nil => simp [Within]
  | cons node flow ih =>
      rw [weight] at hweight
      rw [conditions, List.append_subset] at hconds
      rw [within_cons]
      constructor
      · exact ⟨by omega, hconds.1⟩
      · exact ih (by omega) hconds.2

namespace Within

variable {cond : String} {body otherwise : Flow}

/-- The flow that a branch is replaced by. -/
theorem arm {polarity : Polarity} (taken : Bool)
    (h : Within bound conds (.branch polarity cond body otherwise :: rest)) :
  cond ∈ conds ∧ Within bound conds ((if taken then body else otherwise) ++ rest)
  := by
  obtain ⟨⟨hweight, hconds⟩, hrest⟩ := within_cons.mp h
  rw [Node.weight] at hweight
  rw [Node.conditions, List.cons_subset, List.append_subset] at hconds
  use hconds.1
  rw [within_append]
  split
  · exact ⟨within_of_le (by omega) hconds.2.1, hrest⟩
  · exact ⟨within_of_le (by omega) hconds.2.2, hrest⟩

/-- The flow that a loop is replaced by when a round starts. -/
theorem round {counting : Option Counting}
    (h : Within bound conds (.loop counting cond body :: rest)) :
  cond ∈ conds
    ∧ Within bound conds (body ++ Counting.steps counting ++ .loop counting cond body :: rest)
  := by
  obtain ⟨⟨hweight, hconds⟩, -⟩ := within_cons.mp h
  rw [Node.weight] at hweight
  rw [Node.conditions, List.cons_subset] at hconds
  use hconds.1
  rw [within_append, within_append]
  refine ⟨⟨within_of_le (by omega) hconds.2, ?_⟩, h⟩
  cases counting with
  | none => simp [Counting.steps, Within]
  | some counting =>
      simp only [Counting.steps, Within, List.mem_singleton, forall_eq, Node.weight,
        Node.conditions, List.nil_subset, and_true]
      omega

end Within

/-! ### Walks -/

variable {σ : Type u} {host : Host σ} {fuel : Nat} {s t : σ}

theorem walk_loop {counting : Option Counting} {cond : String} {body : Flow}
    (h : counting.bind Counting.init = none) :
  walk host (fuel + 1) (.loop counting cond body :: rest) s
    = walk host fuel
        (if (host.evaluate cond s).1 then
          body ++ Counting.steps counting ++ .loop counting cond body :: rest
        else rest)
        (host.evaluate cond s).2
  := by
  simp only [walk, Process.run, next_loop h]

theorem weight_steps_le (counting : Option Counting) :
  (Counting.steps counting).weight ≤ 1
  := by
  cases counting with
  | none => apply Nat.zero_le
  | some counting => apply Nat.le_refl

/-- If the walks of other flows end in `fuel` steps, then one that comes to the test of a loop ends
with one step more. -/
theorem Within.exists_walk_loop {counting : Option Counting} {cond : String} {body : Flow}
    (h : Within bound conds (.loop counting cond body :: rest))
    (hinit : counting.bind Counting.init = none) (hsparing : host.Sparing conds budget s)
    (hfuel : weight (.loop counting cond body :: rest) + budget * bound ≤ fuel + 1)
    (ih : ∀ {flow : Flow} {budget : Nat} {s : σ}, flow.Within bound conds →
      host.Sparing conds budget s → flow.weight + budget * bound < fuel →
      ∃ t, flow.walk host fuel s = some t) :
  ∃ t, walk host (fuel + 1) (.loop counting cond body :: rest) s = some t
  := by
  obtain ⟨hcond, hround⟩ := h.round
  rw [walk_loop hinit]
  cases hholds : (host.evaluate cond s).1 with
  | true =>
      -- The weight of the round is paid by one answer of the budget.
      obtain ⟨less, rfl, hless⟩ := hsparing.exists_of_holds hcond hholds
      have hloop := (within_cons.mp h).1.1
      have hsteps := weight_steps_le counting
      rw [if_pos rfl]
      apply ih hround hless
      rw [weight_append, weight_append]
      rw [Nat.succ_mul] at hfuel
      rw [Node.weight] at hloop
      omega
  | false =>
      rw [if_neg Bool.false_ne_true]
      apply ih (within_cons.mp h).2 (hsparing.evaluate hcond)
      rw [weight, Node.weight] at hfuel
      omega

/-- The walk ends in as many steps as there are weight and weights of rounds. -/
theorem Within.exists_walk (h : flow.Within bound conds) (hsparing : host.Sparing conds budget s)
    (hfuel : flow.weight + budget * bound < fuel) :
  ∃ t, flow.walk host fuel s = some t
  := by
  induction fuel using Nat.strongRecOn generalizing flow budget s with
  | ind fuel ih =>
      obtain ⟨fuel, rfl⟩ := Nat.exists_eq_succ_of_ne_zero (Nat.ne_zero_of_lt hfuel)
      match flow with
      | [] => exact ⟨s, rfl⟩
      | .action text :: rest =>
          rw [weight, Node.weight] at hfuel
          apply ih fuel (Nat.lt_succ_self fuel) (within_cons.mp h).2 (hsparing.perform text)
          omega
      | .suspend :: rest =>
          rw [weight, Node.weight] at hfuel
          apply ih fuel (Nat.lt_succ_self fuel) (within_cons.mp h).2 hsparing.suspend
          omega
      | .branch polarity cond body otherwise :: rest =>
          rw [weight, Node.weight] at hfuel
          obtain ⟨hcond, harm⟩ := h.arm (polarity.accepts (host.evaluate cond s).1)
          apply ih fuel (Nat.lt_succ_self fuel) harm (hsparing.evaluate hcond)
          rw [weight_append]
          split
          · omega
          · omega
      | .loop counting cond body :: rest =>
          cases hinit : counting.bind Counting.init with
          | none =>
              exact h.exists_walk_loop hinit hsparing (by omega) (ih fuel (Nat.lt_succ_self fuel))
          | some init =>
              obtain ⟨step, rfl⟩ := Counting.exists_eq_of_init hinit
              obtain ⟨hnode, hrest⟩ := within_cons.mp h
              have hloop : Within bound conds (.loop (some ⟨none, step⟩) cond body :: rest) :=
                within_cons.mpr ⟨hnode, hrest⟩
              -- The first action takes no weight away, but the test behind it makes up for that.
              rw [weight, Node.weight] at hfuel
              obtain ⟨fuel, rfl⟩ : ∃ n, fuel = n + 1 := ⟨fuel - 1, by omega⟩
              apply hloop.exists_walk_loop rfl (hsparing.perform init) _ (ih fuel (by omega))
              rw [weight, Node.weight]
              omega

theorem exists_walk_of_sparing (flow : Flow) (hsparing : host.Sparing flow.conditions budget s)
    (hfuel : flow.weight * (budget + 1) < fuel) :
  ∃ t, flow.walk host fuel s = some t
  := by
  have hwithin : flow.Within flow.weight flow.conditions :=
    within_of_le (Nat.le_refl _) (List.Subset.refl _)
  apply hwithin.exists_walk hsparing
  rw [Nat.mul_succ, Nat.mul_comm] at hfuel
  omega

/-! ### Machines -/

open Machine

/-- If the walk of a well formed flow ends, then completing the machine over its table does, and it
leaves the host in the same state. -/
theorem WellFormed.exists_complete (h : flow.WellFormed) (hwalk : flow.walk host fuel s = some t) :
  ∃ table, flow.lower = .ok table
    ∧ ∃ fuel n, (ofTable table).complete host fuel s = some ⟨.ok n, ⟨table, .done⟩, t⟩
  := by
  obtain ⟨ending, hruns⟩ := runs_of_walk hwalk
  obtain ⟨fuel, hcomplete⟩ := ((GoesOnWith.ofTable flow).completes hruns).exists_fuel
  exact ⟨_, lower_eq h, fuel, _, hcomplete⟩

/-- A walk ends on every host that says yes to the conditions of the flow a bounded number of times,
and the weight of the flow bounds its steps; if the flow is well formed, then completing the machine
over its table ends as well. A scripted host finds a condition to hold just if it was evaluated
less than `limit` times before, whatever else the host was asked to do. So it is a host of this
kind, and everything ends on it. -/
theorem ends_on_sparing_hosts (flow : Flow) :
  (∀ {σ : Type u} (host : Host σ) (budget : Nat) (s : σ),
      host.Sparing flow.conditions budget s →
      ∃ t, flow.walk host (flow.weight * (budget + 1) + 1) s = some t
        ∧ (flow.WellFormed → ∃ table, flow.lower = .ok table
          ∧ ∃ fuel n, (ofTable table).complete host fuel s = some ⟨.ok n, ⟨table, .done⟩, t⟩))
    ∧ ∀ limit,
      (∀ calls, (∃ tally, (Host.scripted limit).Answers [] calls tally)
        ↔ ∀ i cond holds, calls[i]? = some (.evaluated cond holds) →
          (holds = true ↔ ((calls.take i).filterMap Call.asked).count cond < limit))
      ∧ (Host.scripted limit).Sparing flow.conditions (limit * flow.conditions.dedup.length) []
      ∧ ∃ tally, (Script.scripted limit).walk flow = some tally
        ∧ (flow.WellFormed → ∃ table, flow.lower = .ok table
          ∧ ∃ fuel n, (ofTable table).complete (Host.scripted limit) fuel []
            = some ⟨.ok n, ⟨table, .done⟩, tally⟩)
  := by
  constructor
  · intro σ host budget s hsparing
    obtain ⟨t, hwalk⟩ := flow.exists_walk_of_sparing hsparing (Nat.lt_succ_self _)
    use t, hwalk
    intro h
    exact h.exists_complete hwalk
  · intro limit
    have hsparing := Host.sparing_scripted limit flow.conditions
    have hfuel : flow.weight * (limit * flow.conditions.dedup.length + 1)
        < (Script.scripted limit).fuel flow.weight := by
      have hlength : flow.conditions.dedup.length ≤ flow.weight :=
        Nat.le_trans (List.dedup_sublist _).length_le flow.length_conditions_le
      have hturns := Nat.succ_le_succ (Nat.mul_le_mul_left limit hlength)
      exact Nat.lt_add_right 1 (Nat.lt_succ_of_le (Nat.mul_le_mul_left flow.weight hturns))
    obtain ⟨tally, hwalk⟩ := flow.exists_walk_of_sparing hsparing hfuel
    refine ⟨?_, hsparing, tally, hwalk, fun h => h.exists_complete hwalk⟩
    intro calls
    rw [Host.exists_answers_scripted_iff]
    simp only [Tally.count, Nat.zero_add]

/-- Two loops, one in the other, on the same condition. -/
theorem ends_on_sparing_hosts_nested :
  let flow : Flow := [.loop none "more" [.loop (some ⟨some "i = 0", "i += 1"⟩) "more" [.suspend]]]
  let answers := [true, true, false, true]
  Host.answering.Sparing flow.conditions 4 answers ∧ flow.WellFormed
    ∧ ∃ t, flow.walk Host.answering 36 answers = some t
      ∧ ∃ table, flow.lower = .ok table
        ∧ ∃ fuel n, (ofTable table).complete Host.answering fuel answers
          = some ⟨.ok n, ⟨table, .done⟩, t⟩
  := by
  intro flow answers
  have hsparing := Host.sparing_answering flow.conditions answers
  have hflow : flow.WellFormed := by decide
  obtain ⟨t, hwalk, hcomplete⟩ := (ends_on_sparing_hosts flow).1 Host.answering 4 answers hsparing
  exact ⟨hsparing, hflow, t, hwalk, hcomplete hflow⟩

end Flow

end Resumable
