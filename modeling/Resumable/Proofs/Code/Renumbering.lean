import Resumable.Proofs.Code.Execution
import Resumable.Proofs.Process.Simulation

/-!
# Renumbered code

`Code.Renumbers` says that code is what is left of other code when some instructions are taken
out and all addresses are moved: each kept instruction moves to its place among the kept ones,
and an address of a removed one to the place of the next kept one. Only instructions that lead
forward without a call of the host may go.

Code that is renumbered is well numbered again (`Renumbers.wellNumbered`), renumbering twice is
renumbering (`Renumbers.trans`), and it does not change how code behaves (`Renumbers.alike`).
-/

universe u

namespace Resumable

namespace Op

variable {op : Op} {f g : Nat → Nat}

theorem retarget_retarget :
  (op.retarget f).retarget g = op.retarget (g ∘ f)
  := by
  cases op with
  | action text => rfl
  | suspend => rfl
  | noop => rfl
  | jumpIf cond polarity target => rfl
  | jump target => rfl

theorem retarget_id :
  op.retarget id = op
  := by
  cases op with
  | action text => rfl
  | suspend => rfl
  | noop => rfl
  | jumpIf cond polarity target => rfl
  | jump target => rfl

theorem eq_noop_of_retarget (h : op.retarget f = .noop) :
  op = .noop
  := by
  cases op with
  | noop => rfl
  | _ => cases h

theorem eq_suspend_of_retarget (h : op.retarget f = .suspend) :
  op = .suspend
  := by
  cases op with
  | suspend => rfl
  | _ => cases h

theorem exists_eq_jump_of_retarget {target' : Nat} (h : op.retarget f = .jump target') :
  ∃ target, op = .jump target ∧ target' = f target
  := by
  cases op with
  | jump target =>
      cases h
      use target
  | _ => cases h

theorem exists_eq_jumpIf_of_retarget {cond : String} {polarity : Polarity} {target' : Nat}
    (h : op.retarget f = .jumpIf cond polarity target') :
  ∃ target, op = .jumpIf cond polarity target ∧ target' = f target
  := by
  cases op with
  | jumpIf cond polarity target =>
      cases h
      use target
  | _ => cases h

/-- An operation at another address, with its target moved as well, requests the same, and goes
on at the address that belongs to where it went on. -/
theorem rel_request_retarget {R : Nat → Nat → Prop} {i j : Nat} (hnext : R (i + 1) (j + 1))
    (htarget : ∀ target ∈ op.target?, R target (f target)) :
  Request.Rel R (op.request i) ((op.retarget f).request j)
  := by
  cases op with
  | action text => apply Request.Rel.perform text hnext
  | suspend => apply Request.Rel.suspend hnext
  | noop => apply Request.Rel.silent hnext
  | jumpIf cond polarity target =>
      apply Request.Rel.evaluate
      intro holds
      by_cases haccepts : polarity.accepts holds
      · rw [if_pos haccepts, if_pos haccepts]
        apply htarget target rfl
      · rw [if_neg haccepts, if_neg haccepts]
        apply hnext
  | jump target => apply Request.Rel.silent (htarget target rfl)

end Op

namespace Code

/-- The instructions of `code` at the positions in `kept` are those of `code'`, in their order;
`place` says where the addresses are moved to. -/
structure Renumbers (code code' : Code) (kept : Nat → Prop) (place : Nat → Nat) : Prop where
  place_zero : place 0 = 0
  place_length : place code.length = code'.length
  place_succ : ∀ i < code.length, kept i → place (i + 1) = place i + 1
  place_succ_of_removed : ∀ i < code.length, ¬ kept i → place (i + 1) = place i
  /-- A kept instruction is at its place, with its target moved as well. -/
  getElem?_place : ∀ i instr, code[i]? = some instr → kept i →
    ∃ instr', code'[place i]? = some instr' ∧ instr'.address = place i
      ∧ instr'.op = instr.op.retarget place
  /-- The target of a kept jump does not get lost. -/
  place_target_lt : ∀ i instr, code[i]? = some instr → kept i →
    ∀ target ∈ instr.op.target?, place target < code'.length
  /-- What is removed goes on, silently, at a later address which is moved to the same place. -/
  removed : ∀ i instr, code[i]? = some instr → ¬ kept i →
    instr.op = .noop ∨ ∃ target, instr.op = .jump target ∧ i < target ∧ place target = place i

/-- The address `a` of the code, which may be its end, is moved to `b`. -/
def MovesTo (code : Code) (place : Nat → Nat) (a b : Nat) : Prop :=
  a ≤ code.length ∧ b = place a

namespace Renumbers

variable {code code' code'' : Code} {kept kept' : Nat → Prop} {place place' : Nat → Nat}

/-- All instructions of well numbered code can stay where they are. -/
protected theorem refl (hcode : code.WellNumbered) :
  Renumbers code code (fun _ => True) id
  where
  place_zero := rfl
  place_length := rfl
  place_succ _ _ _ := rfl
  place_succ_of_removed _ _ h := absurd trivial h
  getElem?_place i instr hinstr _ := by
    use instr, hinstr, (hcode i instr hinstr).1
    rw [Op.retarget_id]
  place_target_lt i instr hinstr _ := (hcode i instr hinstr).2
  removed _ _ _ h := absurd trivial h

/-- Moving addresses keeps their order. -/
theorem place_mono (h : Renumbers code code' kept place) {i j : Nat} (hij : i ≤ j)
    (hj : j ≤ code.length) :
  place i ≤ place j
  := by
  induction hij with
  | refl => apply Nat.le_refl
  | @step j hij ih =>
      have hle := ih (by omega)
      by_cases hkept : kept j
      · rw [h.place_succ j hj hkept]
        omega
      · rw [h.place_succ_of_removed j hj hkept]
        apply hle

/-- What is behind a kept instruction stays behind it. -/
theorem place_lt_place (h : Renumbers code code' kept place) {i j : Nat} (hkept : kept i)
    (hij : i < j) (hj : j ≤ code.length) :
  place i < place j
  := by
  calc place i
    _ < place i + 1 := Nat.lt_succ_self (place i)
    _ = place (i + 1) := (h.place_succ i (Nat.lt_of_lt_of_le hij hj) hkept).symm
    _ ≤ place j := h.place_mono hij hj

/-- A place further on belongs to an address further on. -/
theorem lt_of_place_lt (h : Renumbers code code' kept place) {i j : Nat} (hi : i ≤ code.length)
    (hlt : place i < place j) :
  i < j
  := by
  apply Nat.lt_of_not_le
  intro hle
  apply Nat.not_le_of_lt hlt
  apply h.place_mono hle hi

theorem place_lt (h : Renumbers code code' kept place) {i : Nat} (hi : i < code.length)
    (hkept : kept i) :
  place i < code'.length
  := by
  rw [← h.place_length]
  apply h.place_lt_place hkept hi (Nat.le_refl _)

/-- Every instruction that is left was moved to where it is. -/
theorem exists_place_eq (h : Renumbers code code' kept place) {j : Nat} (hj : j < code'.length) :
  ∃ i < code.length, kept i ∧ place i = j
  := by
  -- the places of the addresses rise from 0 to the end in steps of at most one
  suffices ∀ n ≤ code.length, j < place n → ∃ i < n, kept i ∧ place i = j by
    apply this code.length (Nat.le_refl _)
    rw [h.place_length]
    apply hj
  intro n
  induction n with
  | zero =>
      intro _ hlt
      rw [h.place_zero] at hlt
      cases hlt
  | succ n ih =>
      intro hn hlt
      by_cases hearlier : j < place n
      · obtain ⟨i, hi, hplace⟩ := ih (by omega) hearlier
        exact ⟨i, by omega, hplace⟩
      · by_cases hkept : kept n
        · rw [h.place_succ n hn hkept] at hlt
          use n, by omega, hkept, by omega
        · rw [h.place_succ_of_removed n hn hkept] at hlt
          apply absurd hlt hearlier

theorem wellNumbered (h : Renumbers code code' kept place) :
  code'.WellNumbered
  := by
  intro j instr' hinstr'
  obtain ⟨i, hi, hkept, rfl⟩ := h.exists_place_eq (List.getElem?_eq_some_iff.mp hinstr').1
  have hinstr := List.getElem?_eq_getElem hi
  obtain ⟨other, hother, haddress, hop⟩ := h.getElem?_place i _ hinstr hkept
  rw [hinstr'] at hother
  cases hother
  use haddress
  intro target htarget
  rw [hop, Op.target?_retarget] at htarget
  obtain ⟨before, hbefore, rfl⟩ := Option.map_eq_some_iff.mp htarget
  apply h.place_target_lt i _ hinstr hkept before hbefore

/-- Labels do not matter. -/
theorem label (h : Renumbers code code' kept place) (labels : Addresses) :
  Renumbers code (code'.label labels) kept place
  where
  place_zero := h.place_zero
  place_length := by rw [h.place_length, length_label]
  place_succ := h.place_succ
  place_succ_of_removed := h.place_succ_of_removed
  getElem?_place i instr hinstr hkept := by
    obtain ⟨instr', hinstr', haddress, hop⟩ := h.getElem?_place i instr hinstr hkept
    rw [getElem?_label, hinstr']
    exact ⟨_, rfl, haddress, hop⟩
  place_target_lt := by
    rw [length_label]
    apply h.place_target_lt
  removed := h.removed

/-- Two renumberings in a row keep what both keep, and move addresses to where the second one
moves the places of the first. -/
theorem trans (h : Renumbers code code' kept place) (h' : Renumbers code' code'' kept' place') :
  Renumbers code code'' (fun i => kept i ∧ kept' (place i)) (place' ∘ place)
  where
  place_zero := by
    rw [Function.comp_apply, h.place_zero, h'.place_zero]
  place_length := by
    rw [Function.comp_apply, h.place_length, h'.place_length]
  place_succ i hi hkept := by
    rw [Function.comp_apply, h.place_succ i hi hkept.1]
    apply h'.place_succ _ (h.place_lt hi hkept.1) hkept.2
  place_succ_of_removed i hi hremoved := by
    by_cases hkept : kept i
    · rw [Function.comp_apply, h.place_succ i hi hkept]
      apply h'.place_succ_of_removed _ (h.place_lt hi hkept)
      intro hkept'
      apply hremoved ⟨hkept, hkept'⟩
    · rw [Function.comp_apply, h.place_succ_of_removed i hi hkept]
      rfl
  getElem?_place i instr hinstr hkept := by
    obtain ⟨instr', hinstr', -, hop'⟩ := h.getElem?_place i instr hinstr hkept.1
    obtain ⟨instr'', hinstr'', haddress, hop⟩ := h'.getElem?_place _ instr' hinstr' hkept.2
    use instr'', hinstr'', haddress
    rw [hop, hop', Op.retarget_retarget]
  place_target_lt i instr hinstr hkept target htarget := by
    obtain ⟨instr', hinstr', -, hop⟩ := h.getElem?_place i instr hinstr hkept.1
    apply h'.place_target_lt _ instr' hinstr' hkept.2
    rw [hop, Op.target?_retarget, htarget]
    rfl
  removed i instr hinstr hremoved := by
    by_cases hkept : kept i
    · obtain ⟨instr', hinstr', -, hop⟩ := h.getElem?_place i instr hinstr hkept
      have hremoved' : ¬ kept' (place i) := fun hkept' => hremoved ⟨hkept, hkept'⟩
      rcases h'.removed _ instr' hinstr' hremoved' with hnoop | ⟨target', hjump, hlt, heq⟩
      · left
        apply Op.eq_noop_of_retarget
        rw [← hop, hnoop]
      · right
        rw [hop] at hjump
        obtain ⟨target, htarget, rfl⟩ := Op.exists_eq_jump_of_retarget hjump
        have hi := (List.getElem?_eq_some_iff.mp hinstr).1
        refine ⟨target, htarget, ?_, heq⟩
        apply h.lt_of_place_lt (Nat.le_of_lt hi) hlt
    · rcases h.removed i instr hinstr hkept with hnoop | ⟨target, hjump, hlt, heq⟩
      · left
        apply hnoop
      · right
        refine ⟨target, hjump, hlt, ?_⟩
        rw [Function.comp_apply, Function.comp_apply, heq]

/-! ### Behaviour -/

/-- An instruction that is kept requests the same at its place; one that is removed only leads to
a later address, which is moved to the same place. -/
theorem rel_next_or_silent (h : Renumbers code code' kept place) (hcode : code.WellNumbered)
    {i : Nat} (hi : i ≤ code.length) :
  Request.Rel (MovesTo code place) (code.next i) (code'.next (place i))
    ∨ ∃ j, code.next i = .silent j ∧ i < j ∧ MovesTo code place j (place i)
  := by
  rcases Nat.eq_or_lt_of_le hi with rfl | hlt
  · left
    rw [h.place_length, next_length, next_length]
    apply Request.Rel.finish
  · obtain ⟨instr, hinstr⟩ : ∃ instr, code[i]? = some instr := ⟨_, List.getElem?_eq_getElem hlt⟩
    have htarget := (hcode i instr hinstr).2
    have hnext := next_of_getElem? hinstr
    by_cases hkept : kept i
    · left
      obtain ⟨instr', hinstr', -, hop⟩ := h.getElem?_place i instr hinstr hkept
      rw [hnext, next_of_getElem? hinstr', hop]
      apply Op.rel_request_retarget
      · use hlt
        rw [h.place_succ i hlt hkept]
      · intro target hmem
        use Nat.le_of_lt (htarget target hmem)
    · right
      rcases h.removed i instr hinstr hkept with hnoop | ⟨target, hjump, hij, hplace⟩
      · rw [hnoop] at hnext
        use i + 1, hnext, Nat.lt_succ_self i, hlt
        rw [h.place_succ_of_removed i hlt hkept]
      · rw [hjump] at hnext htarget
        use target, hnext, hij, Nat.le_of_lt (htarget target rfl)
        rw [hplace]

theorem isSimulation (h : Renumbers code code' kept place) (hcode : code.WellNumbered) :
  Process.IsSimulation code.next code'.next (MovesTo code place)
  := by
  rintro i _ ⟨hi, rfl⟩
  -- the silent moves go to later addresses only, so there are finitely many up to the end
  induction hn : code.length - i using Nat.strongRecOn generalizing i with
  | ind n ih =>
      rcases h.rel_next_or_silent hcode hi with hrel | ⟨j, hsilent, hij, hj, hplace⟩
      · use i, .refl, hrel
      · obtain ⟨i', hsilently, hrel⟩ := ih (code.length - j) (by omega) j hj rfl
        rw [← hplace] at hrel
        use i', .head hsilent hsilently, hrel

/-- Renumbering does not change how code behaves from its start on. -/
theorem alike (h : Renumbers code code' kept place) (hcode : code.WellNumbered) :
  Process.Alike.{0, 0, u} code.next code'.next 0 0
  := by
  apply (h.isSimulation hcode).alike
  use Nat.zero_le _
  rw [h.place_zero]

end Renumbers

end Code

end Resumable
