import Resumable.Proofs.Code.Emission
import Resumable.Proofs.Code.NormalForm
import Resumable.Proofs.Code.Structure

/-!
# Loops of lowered flows

Code stays structured when it is renumbered (`Renumbers.isStructured`), so the compressed code of a
flow is structured. A run of the code gets into a loop at its test only, and out of it from there
only (`IsLoop.eq_first_of_leadsTo`, `IsLoop.eq_of_leadsTo`).
-/

namespace Resumable

/-! ### Renumbered code -/

namespace Code

variable {code code' : Code} {kept : Nat → Prop} {place : Nat → Nat} {i j target : Nat} {op : Op}

theorem lt_length_of_placement (h : code.placement i op) :
  i < code.length
  := by
  obtain ⟨instr, hinstr, -⟩ := h
  apply (List.getElem?_eq_some_iff.mp hinstr).1

theorem WellNumbered.target_lt (hcode : code.WellNumbered) (h : code.placement i op)
    (htarget : target ∈ op.target?) :
  target < code.length
  := by
  obtain ⟨instr, hinstr, rfl⟩ := h
  apply (hcode i instr hinstr).2 target htarget

namespace Renumbers

theorem placement_place (h : Renumbers code code' kept place) (hop : code.placement i op)
    (hkept : kept i) :
  code'.placement (place i) (op.retarget place)
  := by
  obtain ⟨instr, hinstr, rfl⟩ := hop
  obtain ⟨instr', hinstr', -, hop'⟩ := h.getElem?_place i instr hinstr hkept
  use instr', hinstr', hop'

theorem exists_placement (h : Renumbers code code' kept place) (hop : code'.placement j op) :
  ∃ i op', code.placement i op' ∧ kept i ∧ j = place i ∧ op = op'.retarget place
  := by
  obtain ⟨i, hi, hkept, rfl⟩ := h.exists_place_eq (lt_length_of_placement hop)
  have hplaced : code.placement i code[i].op := ⟨_, List.getElem?_eq_getElem hi, rfl⟩
  obtain ⟨instr, hinstr, rfl⟩ := hop
  obtain ⟨instr', hinstr', hop'⟩ := h.placement_place hplaced hkept
  rw [hinstr] at hinstr'
  cases hinstr'
  use i, code[i].op, hplaced, hkept, rfl, hop'

/-- Only operations without effect and jumps forward are removed. -/
theorem kept_of_placement (h : Renumbers code code' kept place) (hop : code.placement i op)
    (hnoop : op ≠ .noop) (hjump : ∀ target, op = .jump target → target ≤ i) :
  kept i
  := by
  obtain ⟨instr, hinstr, rfl⟩ := hop
  by_contra hremoved
  rcases h.removed i instr hinstr hremoved with hop | ⟨target, hop, hlt, -⟩
  · apply hnoop hop
  · apply Nat.not_le_of_lt hlt (hjump target hop)

/-- A loop is still one when the code is renumbered. -/
theorem isLoop (h : Renumbers code code' kept place) (hcode : code.WellNumbered) {first last : Nat}
    (hloop : code.placement.IsLoop first last) :
  code'.placement.IsLoop (place first) (place last)
  := by
  obtain ⟨cond, htest⟩ := hloop.test
  have hlast := lt_length_of_placement hloop.back
  have hfirst := lt_length_of_placement htest
  have hkept : kept first := by
    apply h.kept_of_placement htest
    · rintro ⟨⟩
    · rintro _ ⟨⟩
  have hkept' : kept last := by
    apply h.kept_of_placement hloop.back
    · rintro ⟨⟩
    · rintro _ ⟨⟩
      apply Nat.le_of_lt hloop.lt
  constructor
  · apply h.place_lt_place hkept hloop.lt (Nat.le_of_lt hlast)
  · use cond
    rw [← h.place_succ last hlast hkept']
    apply h.placement_place htest hkept
  · apply h.placement_place hloop.back hkept'
  · intro j op' hop' hlo hhi target' htarget'
    obtain ⟨i, op, hop, -, rfl, rfl⟩ := h.exists_placement hop'
    have hi := lt_length_of_placement hop
    rw [Op.target?_retarget] at htarget'
    obtain ⟨target, htarget, rfl⟩ := Option.map_eq_some_iff.mp htarget'
    have hlo' := h.lt_of_place_lt (Nat.le_of_lt hfirst) hlo
    have hhi' := h.lt_of_place_lt (Nat.le_of_lt hi) hhi
    obtain ⟨hlt, hle⟩ := hloop.inside i op hop hlo' hhi' target htarget
    constructor
    · apply h.place_lt_place hkept hlt (Nat.le_of_lt (hcode.target_lt hop htarget))
    · apply h.place_mono hle (Nat.le_of_lt hlast)
  · intro j op' hop' houtside target' htarget'
    obtain ⟨i, op, hop, -, rfl, rfl⟩ := h.exists_placement hop'
    have hi := lt_length_of_placement hop
    rw [Op.target?_retarget] at htarget'
    obtain ⟨target, htarget, rfl⟩ := Option.map_eq_some_iff.mp htarget'
    have houtside' : i < first ∨ last < i := by
      apply houtside.imp
      · apply h.lt_of_place_lt (Nat.le_of_lt hi)
      · apply h.lt_of_place_lt (Nat.le_of_lt hlast)
    apply (hloop.outside i op hop houtside' target htarget).imp
    · intro hle
      apply h.place_mono hle (Nat.le_of_lt hfirst)
    · intro hlt
      apply h.place_lt_place hkept' hlt (Nat.le_of_lt (hcode.target_lt hop htarget))

/-- Structured code stays structured when it is renumbered. -/
theorem isStructured (h : Renumbers code code' kept place) (hcode : code.WellNumbered)
    (hstructured : code.placement.IsStructured) :
  code'.placement.IsStructured
  := by
  constructor
  · intro j cond polarity target' hop'
    obtain ⟨i, op, hop, hkept, rfl, heq⟩ := h.exists_placement hop'
    obtain ⟨target, rfl, rfl⟩ := Op.exists_eq_jumpIf_of_retarget heq.symm
    have hlt := hstructured.jumpIf i cond polarity target hop
    apply h.place_lt_place hkept hlt (Nat.le_of_lt (hcode.target_lt hop rfl))
  · intro j target' hop'
    obtain ⟨i, op, hop, hkept, rfl, heq⟩ := h.exists_placement hop'
    obtain ⟨target, rfl, rfl⟩ := Op.exists_eq_jump_of_retarget heq.symm
    apply (hstructured.jump i target hop).imp
    · intro hlt
      apply h.place_lt_place hkept hlt (Nat.le_of_lt (hcode.target_lt hop rfl))
    · intro hloop
      apply h.isLoop hcode hloop

end Renumbers

/-! ### Runs through a loop -/

section Run

variable {first last : Nat}

/-- A run gets from elsewhere into a loop at its test only. -/
theorem eq_first_of_leadsTo (hloop : code.placement.IsLoop first last)
    (h : (code.next i).LeadsTo j) (hfrom : i < first ∨ last < i) (hto : first ≤ j ∧ j ≤ last) :
  j = first
  := by
  obtain ⟨instr, hinstr, hleads⟩ := exists_getElem?_of_leadsTo h
  rcases leadsTo_request hleads with rfl | htarget
  · omega
  · have := hloop.outside i instr.op ⟨instr, hinstr, rfl⟩ hfrom j htarget
    omega

/-- A run gets out of a loop from its test only, and goes on right behind the loop. -/
theorem eq_of_leadsTo (hloop : code.placement.IsLoop first last) (h : (code.next i).LeadsTo j)
    (hfrom : first ≤ i ∧ i ≤ last) (hto : j < first ∨ last < j) :
  i = first ∧ j = last + 1
  := by
  have hlt := hloop.lt
  rcases Nat.eq_or_lt_of_le hfrom.1 with rfl | hlo
  · obtain ⟨cond, instr, hinstr, hop⟩ := hloop.test
    rw [next_of_getElem? hinstr, hop] at h
    rcases leadsTo_request h with rfl | htarget
    · omega
    · cases htarget
      exact ⟨rfl, rfl⟩
  · rcases Nat.eq_or_lt_of_le hfrom.2 with rfl | hhi
    · obtain ⟨instr, hinstr, hop⟩ := hloop.back
      rw [next_of_getElem? hinstr, hop] at h
      cases h
      omega
    · obtain ⟨instr, hinstr, hleads⟩ := exists_getElem?_of_leadsTo h
      rcases leadsTo_request hleads with rfl | htarget
      · omega
      · have := hloop.inside i instr.op ⟨instr, hinstr, rfl⟩ hlo hhi j htarget
        omega

end Run

end Code

/-! ### Compressed code of a flow -/

namespace Flow

open Code

variable {flow : Flow}

theorem isStructured_compact (flow : Flow) :
  flow.code.compact.placement.IsStructured
  := by
  have hcode := flow.wellNumbered_code
  obtain ⟨kept, place, h⟩ := hcode.exists_renumbers_compact
  apply h.isStructured hcode
  rw [placement_code]
  apply flow.isStructured_layout

theorem WellFormed.eq_compact (h : flow.WellFormed) {linear code : Code} {table : Table}
    (hlinear : flow.linearize = .ok linear) (hcompress : linear.compress = .ok code)
    (hpartition : code.partition = .ok table) :
  code = flow.code.compact ∧ table = flow.code.compact.table
  := by
  have hcode := flow.wellNumbered_code
  obtain rfl : flow.code = linear := Except.ok.inj ((linearize_eq h).symm.trans hlinear)
  obtain rfl : flow.code.compact = code := Except.ok.inj (hcode.compress_eq.symm.trans hcompress)
  use rfl
  apply Except.ok.inj (hpartition.symm.trans hcode.compact.partition_eq)

/-- In the compressed code of a well formed flow, conditional jumps lead forward, and other jumps
lead forward over at least one instruction or back to the test of a loop which they close. No jump
from elsewhere leads into a loop but to its test, and no jump behind the test leads out of it. So
a machine over the table of the code gets into a loop at the test and out of it from the test. -/
theorem WellFormed.compress_linearize_loops (h : flow.WellFormed) :
  ∃ linear code table, flow.linearize = .ok linear ∧ linear.compress = .ok code
    ∧ code.partition = .ok table
    ∧ (∀ i cond polarity target, code.placement i (.jumpIf cond polarity target) → i < target)
    ∧ (∀ i target, code.placement i (.jump target) →
      i + 2 ≤ target ∨ code.placement.IsLoop target i)
    ∧ ∀ first last, code.placement.IsLoop first last → ∀ i j, (table.next i).LeadsTo j →
      (i < first ∨ last < i → first ≤ j ∧ j ≤ last → j = first)
      ∧ (first ≤ i ∧ i ≤ last → j < first ∨ last < j → i = first ∧ j = last + 1)
  := by
  have hcode := flow.wellNumbered_code
  have hstructured := flow.isStructured_compact
  refine ⟨flow.code, flow.code.compact, flow.code.compact.table, linearize_eq h,
    hcode.compress_eq, hcode.compact.partition_eq, hstructured.jumpIf, ?_, ?_⟩
  · intro i target hop
    apply (hstructured.jump i target hop).imp_left
    intro hlt
    obtain ⟨instr, hinstr, hjump⟩ := hop
    -- a jump to the next address would have been removed
    have hne : target ≠ i + 1 := by
      rintro rfl
      apply hcode.isCompressed_compact.jump i instr hinstr hjump
    omega
  · intro first last hloop i j hleads
    rw [hcode.compact.next_table] at hleads
    constructor
    · apply eq_first_of_leadsTo hloop hleads
    · apply eq_of_leadsTo hloop hleads

/-- The end of the inner loop is moved to the jump back of the outer one, and the end of the branch
to the jump back of the inner one. -/
theorem WellFormed.compress_linearize_loops_nested :
  let flow : Flow := [.loop none "a" [.loop none "b" [.branch .onTrue "c" [.suspend] []]]]
  flow.WellFormed ∧ ∃ linear code, flow.linearize = .ok linear ∧ linear.compress = .ok code
    ∧ code.map Instr.op = [.jumpIf "a" .onFalse 6, .jumpIf "b" .onFalse 5,
      .jumpIf "c" .onFalse 4, .suspend, .jump 1, .jump 0, .noop]
    ∧ code.placement.IsLoop 1 4 ∧ code.placement.IsLoop 0 5
  := by
  intro flow
  have hflow : flow.WellFormed := by decide
  obtain ⟨linear, code, table, hlinear, hcompress, hpartition, -, hjump, -⟩ :=
    compress_linearize_loops hflow
  have hops : code.map Instr.op = [.jumpIf "a" .onFalse 6, .jumpIf "b" .onFalse 5,
      .jumpIf "c" .onFalse 4, .suspend, .jump 1, .jump 0, .noop] := by
    rw [(hflow.eq_compact hlinear hcompress hpartition).1]
    decide
  have hplaced : ∀ i op, (code.map Instr.op)[i]? = some op → code.placement i op := by
    intro i op hop
    rw [List.getElem?_map] at hop
    apply Option.map_eq_some_iff.mp hop
  refine ⟨hflow, linear, code, hlinear, hcompress, hops, ?_, ?_⟩
  · apply (hjump 4 1 (hplaced 4 _ (by rw [hops]; rfl))).resolve_left
    decide
  · apply (hjump 5 0 (hplaced 5 _ (by rw [hops]; rfl))).resolve_left
    decide

end Flow

end Resumable
