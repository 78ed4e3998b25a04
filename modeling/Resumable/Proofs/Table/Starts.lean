import Resumable.Proofs.Code.Settling
import Resumable.Proofs.Table.Cut
import Mathlib.Data.List.Perm.Subperm

/-!
# Starts of subroutines

A boundary of renumbered code is the place of a boundary of the code (`Renumbers.exists_boundary`):
the entry stays the entry, a target is moved with its jump, and what follows a suspension still
follows it. So there are no more subroutines in the table of compressed code than in that of the
code.
-/

namespace Resumable

namespace Code

variable {code code' : Code} {kept : Nat → Prop} {place : Nat → Nat} {i j : Nat}

theorem WellNumbered.start_lt (hcode : code.WellNumbered) {s : Subroutine} (hs : s ∈ code.table) :
  s.start < code.length
  := by
  apply (hcode.mem_map_start_iff.mp (List.mem_map_of_mem hs)).1

namespace Renumbers

/-- Renumbered code is not longer than the code. -/
theorem length_le (h : Renumbers code code' kept place) :
  code'.length ≤ code.length
  := by
  have hle : ∀ i ≤ code.length, place i ≤ i := by
    intro i
    induction i with
    | zero =>
        intro _
        rw [h.place_zero]
    | succ i ih =>
        intro hi
        have hi' := ih (Nat.le_of_lt hi)
        by_cases hkept : kept i
        · rw [h.place_succ i hi hkept]
          omega
        · rw [h.place_succ_of_removed i hi hkept]
          omega
  rw [← h.place_length]
  apply hle code.length (Nat.le_refl _)

/-- The place of an address that is not lost is where the first kept instruction from there on is
moved to. -/
theorem exists_first_kept (h : Renumbers code code' kept place) (hi : i ≤ code.length)
    (hplace : place i < code'.length) :
  ∃ j < code.length, i ≤ j ∧ kept j ∧ (∀ k, i ≤ k → k < j → ¬ kept k) ∧ place j = place i
  := by
  obtain ⟨j, hj, hkept, heq⟩ := h.exists_place_eq hplace
  refine ⟨j, hj, ?_, hkept, ?_, heq⟩
  · apply Nat.le_of_not_lt
    intro hlt
    have := h.place_lt_place hkept hlt hi
    omega
  · -- an instruction that is kept in between would take a place of its own
    intro k hik hkj hkept'
    have := h.place_lt_place hkept' hkj (Nat.le_of_lt hj)
    have := h.place_mono hik (Nat.le_of_lt (Nat.lt_trans hkj hj))
    omega

/-- Every boundary of renumbered code is the place of a boundary of the code. -/
theorem exists_boundary (h : Renumbers code code' kept place) (hcode : code.WellNumbered)
    (hj : j < code'.length) (hboundary : j ∈ code'.boundaries) :
  ∃ i < code.length, i ∈ code.boundaries ∧ place i = j
  := by
  have hlast := h.place_length
  rcases (h.wellNumbered.mem_boundaries_iff_of_lt hj).mp hboundary with
    rfl | hjump | ⟨before, instr, hinstr, hsuspend, rfl⟩
  · refine ⟨0, ?_, mem_boundaries_iff.mpr (.inl rfl), h.place_zero⟩
    have := h.length_le
    omega
  · obtain ⟨_, _, hop', htarget'⟩ := mem_jumpTargets_iff.mp hjump
    obtain ⟨i, op, hop, -, rfl, rfl⟩ := h.exists_placement hop'
    rw [Op.target?_retarget] at htarget'
    obtain ⟨target, htarget, rfl⟩ := Option.map_eq_some_iff.mp htarget'
    refine ⟨target, hcode.target_lt hop htarget, ?_, rfl⟩
    apply mem_boundaries_iff.mpr
    right; left
    apply mem_jumpTargets_iff.mpr ⟨i, op, hop, htarget⟩
  · obtain ⟨i, op, hop, hkept, rfl, heq⟩ := h.exists_placement ⟨instr, hinstr, hsuspend⟩
    obtain rfl := Op.eq_suspend_of_retarget heq.symm
    have hi := lt_length_of_placement hop
    rw [← h.place_succ i hi hkept] at hj ⊢
    -- there is something left behind the suspension, so it is not the last instruction
    have hnext : i + 1 < code.length := by
      apply Nat.lt_of_le_of_ne hi
      intro hend
      rw [← Nat.succ_eq_add_one, hend, hlast] at hj
      apply Nat.lt_irrefl _ hj
    refine ⟨i + 1, hnext, ?_, rfl⟩
    obtain ⟨instr, hinstr, hsuspend⟩ := hop
    apply (hcode.mem_boundaries_iff_of_lt hnext).mpr
    right; right
    use i, instr, hinstr, hsuspend

/-- A subroutine of renumbered code starts where the first kept instruction from a start of a
subroutine of the code on is moved to. -/
theorem exists_start (h : Renumbers code code' kept place) (hcode : code.WellNumbered)
    {s' : Subroutine} (hs' : s' ∈ code'.table) :
  ∃ s ∈ code.table, ∃ i < code.length, s.start ≤ i ∧ kept i
    ∧ (∀ k, s.start ≤ k → k < i → ¬ kept k) ∧ place i = s'.start ∧ place s.start = s'.start
  := by
  have hcode' := h.wellNumbered
  have hlt := hcode'.start_lt hs'
  have hboundary := (hcode'.exists_start_iff hlt).mp ⟨s', hs', rfl⟩
  obtain ⟨start, hstart, hboundary, hplace⟩ := h.exists_boundary hcode hlt hboundary
  obtain ⟨s, hs, rfl⟩ := (hcode.exists_start_iff hstart).mpr hboundary
  rw [← hplace] at hlt
  obtain ⟨i, hi, hle, hkept, hfirst, heq⟩ := h.exists_first_kept (Nat.le_of_lt hstart) hlt
  exact ⟨s, hs, i, hi, hle, hkept, hfirst, heq.trans hplace, hplace⟩

/-- Renumbering does not make more subroutines: their starts are places of different starts. -/
theorem length_table_le (h : Renumbers code code' kept place) (hcode : code.WellNumbered) :
  code'.table.length ≤ code.table.length
  := by
  have hnodup : (code'.table.map Subroutine.start).Nodup :=
    (Table.pairwise_start h.wellNumbered.pairwise_precedes).imp Nat.ne_of_lt
  have hsubset : code'.table.map Subroutine.start
      ⊆ (code.table.map Subroutine.start).map place := by
    intro address hmem
    obtain ⟨s', hs', rfl⟩ := List.mem_map.mp hmem
    obtain ⟨s, hs, -, -, -, -, -, -, hplace⟩ := h.exists_start hcode hs'
    rw [← hplace]
    apply List.mem_map_of_mem (List.mem_map_of_mem hs)
  have hle := (List.subperm_of_subset hnodup hsubset).length_le
  rwa [List.length_map, List.length_map, List.length_map] at hle

end Renumbers

/-- Compression makes well numbered code no longer and its table no larger. However the compressed
code is seen as a renumbering of the code, each of its subroutines starts at the new position of the
first instruction kept from a start of a subroutine of the code on. -/
theorem WellNumbered.compress_starts (hcode : code.WellNumbered) :
  ∃ compressed table table', code.compress = .ok compressed
    ∧ code.partition = .ok table ∧ compressed.partition = .ok table'
    ∧ compressed.length ≤ code.length ∧ table'.length ≤ table.length
    ∧ (∃ kept place, Renumbers code compressed kept place)
    ∧ ∀ kept place, Renumbers code compressed kept place →
      ∀ s' ∈ table', ∃ s ∈ table, ∃ i < code.length, s.start ≤ i ∧ kept i
        ∧ (∀ k, s.start ≤ k → k < i → ¬ kept k) ∧ place i = s'.start
  := by
  obtain ⟨kept, place, h⟩ := hcode.exists_renumbers_compact
  refine ⟨code.compact, code.table, code.compact.table, hcode.compress_eq, hcode.partition_eq,
    hcode.compact.partition_eq, h.length_le, h.length_table_le hcode, ⟨kept, place, h⟩, ?_⟩
  intro kept place h s' hs'
  obtain ⟨s, hs, i, hi, hle, hkept, hfirst, hplace, -⟩ := h.exists_start hcode hs'
  exact ⟨s, hs, i, hi, hle, hkept, hfirst, hplace⟩

/-- All that follows the suspension is removed up to the target of the test, so two subroutines
become one. -/
theorem WellNumbered.compress_starts_after_suspension :
  let code := ofOps [.jumpIf "c" .onTrue 4, .suspend, .noop, .jump 4, .noop, .action "a"]
  code.WellNumbered ∧ ∃ compressed table table', code.compress = .ok compressed
    ∧ code.partition = .ok table ∧ compressed.partition = .ok table'
    ∧ table.map Subroutine.start = [0, 2, 4] ∧ table'.map Subroutine.start = [0, 2]
    ∧ compressed.length ≤ code.length ∧ table'.length ≤ table.length
  := by
  intro code
  have hcode : code.WellNumbered := by decide
  obtain ⟨compressed, table, table', hcompress, hpartition, hpartition', hlength, htable, -⟩ :=
    compress_starts hcode
  refine ⟨hcode, compressed, table, table', hcompress, hpartition, hpartition', ?_, ?_, hlength,
    htable⟩
  · rw [← Except.ok.inj (hcode.partition_eq.symm.trans hpartition)]
    decide
  · rw [← Except.ok.inj (hcode.compress_eq.symm.trans hcompress)] at hpartition'
    rw [← Except.ok.inj (hcode.compact.partition_eq.symm.trans hpartition')]
    decide

end Code

end Resumable
