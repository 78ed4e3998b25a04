import Resumable.Script
import Mathlib.Algebra.BigOperators.Group.Finset.Basic
import Mathlib.Algebra.Order.BigOperators.Group.Finset

/-!
# Hosts that say yes a bounded number of times

`Host.Answers` relates a state of a host to the calls that it can get from there on, with the
answers that it gives. A host is sparing, `Host.Sparing`, if among any such calls it says yes
to some conditions at most a given number of times.

The hosts of scripts are sparing. On `Host.scripted limit` the answer to a condition depends on
nothing but the number of its earlier evaluations (`exists_answers_scripted_iff`), so every
condition holds at most `limit` times.
-/

universe u

namespace Resumable

namespace Call

/-- The condition that was evaluated, if one was. -/
def asked : Call → Option String
  | .evaluated condition _ => some condition
  | .performed _ | .suspended => none

/-- The condition that was found to hold, if one was. -/
def granted : Call → Option String
  | .evaluated condition true => some condition
  | .evaluated _ false | .performed _ | .suspended => none

theorem granted_cons_evaluated (cond : String) (holds : Bool) (calls : List Call) :
  (.evaluated cond holds :: calls).filterMap granted
    = (if holds then [cond] else []) ++ calls.filterMap granted
  := by
  cases holds with
  | true => rfl
  | false => rfl

/-- A condition that was found to hold was evaluated. -/
theorem granted_subset_asked (calls : List Call) :
  calls.filterMap granted ⊆ calls.filterMap asked
  := by
  intro cond h
  obtain ⟨call, hmem, hcall⟩ := List.mem_filterMap.mp h
  apply List.mem_filterMap.mpr
  use call, hmem
  match call, hcall with
  | .evaluated _ true, hcall => exact hcall

end Call

/-- An evaluation may be counted now or with those that come later. -/
theorem Tally.count_bump_add (cond other : String) (tally : Tally) (later : List String) :
  (tally.bump cond).count other + later.count other
    = tally.count other + (cond :: later).count other
  := by
  rw [count_bump, List.count_cons]
  simp only [beq_iff_eq]
  omega

namespace Host

/-- The host in state `s` gets the calls one after the other and gives the answers in them, which
leaves it in state `t`. -/
inductive Answers {σ : Type u} (host : Host σ) : σ → List Call → σ → Prop where
  | nil (s : σ) : Answers host s [] s
  | performed {action : String} {s t : σ} {calls : List Call} :
      Answers host (host.perform action s) calls t →
      Answers host s (.performed action :: calls) t
  | evaluated {cond : String} {s t : σ} {calls : List Call} :
      Answers host (host.evaluate cond s).2 calls t →
      Answers host s (.evaluated cond (host.evaluate cond s).1 :: calls) t
  | suspended {s t : σ} {calls : List Call} :
      Answers host (host.suspend s) calls t → Answers host s (.suspended :: calls) t

/-- From the state `s` on, the host says yes at most `budget` times, whatever it is asked to do, as
long as it is asked for no other conditions than these. -/
def Sparing {σ : Type u} (host : Host σ) (conds : List String) (budget : Nat) (s : σ) : Prop :=
  ∀ calls t, host.Answers s calls t → calls.filterMap Call.asked ⊆ conds →
    (calls.filterMap Call.granted).length ≤ budget

/-! ### Sparing hosts after a call -/

namespace Sparing

variable {σ : Type u} {host : Host σ} {conds : List String} {budget : Nat} {s : σ}

theorem perform (h : host.Sparing conds budget s) (action : String) :
  host.Sparing conds budget (host.perform action s)
  := by
  intro calls t hanswers hasked
  exact h (.performed action :: calls) t (.performed hanswers) hasked

theorem suspend (h : host.Sparing conds budget s) :
  host.Sparing conds budget (host.suspend s)
  := by
  intro calls t hanswers hasked
  exact h (.suspended :: calls) t (.suspended hanswers) hasked

/-- The answer to a condition and those that come later stay within the budget together. -/
theorem length_le (h : host.Sparing conds budget s) {cond : String} (hcond : cond ∈ conds)
    {calls : List Call} {t : σ} (hanswers : host.Answers (host.evaluate cond s).2 calls t)
    (hasked : calls.filterMap Call.asked ⊆ conds) :
  (if (host.evaluate cond s).1 then [cond] else []).length
    + (calls.filterMap Call.granted).length ≤ budget
  := by
  have hle := h _ t (.evaluated hanswers) (List.cons_subset.mpr ⟨hcond, hasked⟩)
  rwa [Call.granted_cons_evaluated, List.length_append] at hle

theorem evaluate (h : host.Sparing conds budget s) {cond : String} (hcond : cond ∈ conds) :
  host.Sparing conds budget (host.evaluate cond s).2
  := by
  intro calls t hanswers hasked
  exact Nat.le_trans (Nat.le_add_left _ _) (h.length_le hcond hanswers hasked)

/-- A host that says yes may do so once less from then on. -/
theorem exists_of_holds (h : host.Sparing conds budget s) {cond : String} (hcond : cond ∈ conds)
    (hholds : (host.evaluate cond s).1 = true) :
  ∃ less, budget = less + 1 ∧ host.Sparing conds less (host.evaluate cond s).2
  := by
  have hle : ∀ {calls t}, host.Answers (host.evaluate cond s).2 calls t →
      calls.filterMap Call.asked ⊆ conds →
      1 + (calls.filterMap Call.granted).length ≤ budget := by
    intro calls t hanswers hasked
    have hle := h.length_le hcond hanswers hasked
    rw [hholds] at hle
    exact hle
  obtain ⟨less, rfl⟩ := Nat.exists_eq_add_of_le (hle (.nil _) (List.nil_subset conds))
  use less, Nat.add_comm 1 less
  intro calls t hanswers hasked
  exact Nat.le_of_add_le_add_left (hle hanswers hasked)

end Sparing

/-! ### Scripted hosts -/

section Scripted

variable {limit : Nat} {tally : Tally} {calls : List Call}

/-- The answers of a host that has counted evaluations before depend on those and on the calls that
it gets. -/
theorem exists_answers_scripted_iff :
  (∃ tally', (scripted limit).Answers tally calls tally')
    ↔ ∀ i cond holds, calls[i]? = some (.evaluated cond holds) →
      (holds = true ↔ tally.count cond + ((calls.take i).filterMap Call.asked).count cond < limit)
  := by
  constructor
  · rintro ⟨tally', h⟩
    induction h with
    | nil tally => simp
    | performed _ ih =>
        intro i cond holds hi
        cases i with
        | zero => cases hi
        | succ i => exact ih i cond holds hi
    | suspended _ ih =>
        intro i cond holds hi
        cases i with
        | zero => cases hi
        | succ i => exact ih i cond holds hi
    | @evaluated cond tally _ calls _ ih =>
        intro i other holds hi
        cases i with
        | zero =>
            cases hi
            exact decide_eq_true_iff
        | succ i =>
            rw [ih i other holds hi]
            show (tally.bump cond).count other + _ < limit ↔ _
            rw [Tally.count_bump_add]
            rfl
  · intro h
    induction calls generalizing tally with
    | nil => exact ⟨tally, .nil tally⟩
    | cons call calls ih =>
        cases call with
        | performed action =>
            obtain ⟨tally', hanswers⟩ := ih fun i cond holds hi => h (i + 1) cond holds hi
            exact ⟨tally', .performed hanswers⟩
        | suspended =>
            obtain ⟨tally', hanswers⟩ := ih fun i cond holds hi => h (i + 1) cond holds hi
            exact ⟨tally', .suspended hanswers⟩
        | evaluated cond holds =>
            have hanswer : holds = ((scripted limit).evaluate cond tally).1 :=
              Bool.eq_iff_iff.mpr ((h 0 cond holds rfl).trans decide_eq_true_iff.symm)
            have hlater : ∃ tally', (scripted limit).Answers (tally.bump cond) calls tally' := by
              apply ih
              intro i other holds hi
              rw [Tally.count_bump_add]
              exact h (i + 1) other holds hi
            obtain ⟨tally', hanswers⟩ := hlater
            rw [hanswer]
            exact ⟨tally', .evaluated hanswers⟩

/-- No condition holds more often than the limit allows. -/
theorem Answers.count_granted_le {tally' : Tally}
    (h : (scripted limit).Answers tally calls tally') (cond : String) :
  (calls.filterMap Call.granted).count cond ≤ limit - tally.count cond
  := by
  induction h with
  | nil tally => apply Nat.zero_le
  | performed _ ih => exact ih
  | suspended _ ih => exact ih
  | @evaluated other tally _ calls _ ih =>
      have hlater : _ ≤ limit - (tally.bump other).count cond := ih
      rw [Tally.count_bump] at hlater
      rw [Call.granted_cons_evaluated, List.count_append]
      by_cases heq : other = cond
      · subst heq
        rw [if_pos rfl] at hlater
        by_cases hlt : tally.count other < limit
        · have hholds : ((scripted limit).evaluate other tally).1 = true := decide_eq_true hlt
          rw [if_pos hholds, List.count_singleton_self]
          omega
        · have hfails : ((scripted limit).evaluate other tally).1 = false := decide_eq_false hlt
          rw [hfails, if_neg Bool.false_ne_true, List.count_nil]
          omega
      · have hother : (if ((scripted limit).evaluate other tally).1 then [other] else []).count cond
            = 0 := by
          apply List.count_eq_zero.mpr
          split
          · simpa using Ne.symm heq
          · apply List.not_mem_nil
        rw [if_neg heq] at hlater
        omega

theorem sparing_scripted (limit : Nat) (conds : List String) :
  (scripted limit).Sparing conds (limit * conds.dedup.length) []
  := by
  intro calls tally hanswers hasked
  have hgranted : ∀ cond ∈ (calls.filterMap Call.granted : Multiset String),
      cond ∈ conds.toFinset := by
    intro cond hcond
    exact List.mem_toFinset.mpr (hasked (Call.granted_subset_asked calls hcond))
  have hsum := Multiset.sum_count_eq_card hgranted
  simp only [Multiset.coe_count, Multiset.coe_card] at hsum
  calc (calls.filterMap Call.granted).length
    _ = ∑ cond ∈ conds.toFinset, (calls.filterMap Call.granted).count cond := hsum.symm
    _ ≤ conds.toFinset.card * limit := by
        apply Finset.sum_le_card_nsmul
        intro cond _
        exact hanswers.count_granted_le cond
    _ = limit * conds.dedup.length := by
        rw [List.card_toFinset, Nat.mul_comm]

end Scripted

/-- A host that gives the answers of a list says yes at most as often as there are answers. -/
theorem sparing_answering (conds : List String) (answers : List Bool) :
  answering.Sparing conds answers.length answers
  := by
  intro calls t h hasked
  clear hasked
  induction h with
  | nil answers => apply Nat.zero_le
  | performed _ ih => exact ih
  | suspended _ ih => exact ih
  | @evaluated cond answers _ calls _ ih =>
      have hlater : _ ≤ answers.tail.length := ih
      rw [Call.granted_cons_evaluated, List.length_append]
      cases answers with
      | nil => simpa [answering] using hlater
      | cons answer answers =>
          cases answer with
          | true => simpa [answering, Nat.add_comm 1] using hlater
          | false => simpa [answering] using Nat.le_succ_of_le hlater

end Host

end Resumable
