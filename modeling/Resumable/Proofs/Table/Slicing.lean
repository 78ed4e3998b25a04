import Resumable.Proofs.Table.Contents
import Mathlib.Data.List.Sort
import Mathlib.Data.List.SplitLengths

/-!
# Code in slices

The subroutines of a numbered table come one behind the other (`pairwise_of_numberedFrom`), so no
two of them start at the same address (`pairwise_start`).

`Code.slices` cuts code into pieces of which it knows nothing but where they start. The pieces are
taken off the code one after the other, each of them as long as it is from its start to the next
one. The end of the code stands behind the last start. If well numbered code is cut like this at its
boundaries, in ascending order, then the pieces are the subroutines of its table
(`WellNumbered.slices_boundaries`).
-/

namespace Resumable

/-- The subroutine stops before the other one starts. -/
def Subroutine.Precedes (s t : Subroutine) : Prop :=
  s.stop ≤ t.start

namespace Code

/-- The lengths from each address to the next one, and from the last one to `stop`. -/
def spans (starts : List Nat) (stop : Nat) : List Nat :=
  List.zipWith (fun start next => next - start) starts (starts.tail ++ [stop])

/-- The code with just these addresses labelled, cut into pieces that are as long as it is from each
of the addresses to the next one. -/
def slices (code : Code) (starts : List Nat) : List Code :=
  (spans starts code.length).splitLengths
    (code.map fun instr => { instr with labelled := decide (instr.address ∈ starts) })

theorem spans_cons_cons (start next stop : Nat) (starts : List Nat) :
  spans (start :: next :: starts) stop = (next - start) :: spans (next :: starts) stop
  := rfl

end Code

namespace Subroutine

variable {s t : Subroutine}

theorem start_lt_stop (s : Subroutine) :
  s.start < s.stop
  := Nat.lt_add_of_pos_right (Nat.zero_lt_succ _)

theorem Precedes.start_lt (h : s.Precedes t) :
  s.start < t.start
  := Nat.lt_of_lt_of_le s.start_lt_stop h

end Subroutine

namespace Table

variable {origin : Nat} {table : Table}

/-- The subroutines of a numbered table come one behind the other. -/
theorem pairwise_of_numberedFrom (h : table.code.NumberedFrom origin) :
  table.Pairwise Subroutine.Precedes ∧ ∀ s ∈ table, origin ≤ s.start
  := by
  induction table generalizing origin with
  | nil => simp
  | cons s later ih =>
      have hstart := start_of_numberedFrom h
      rw [code_cons] at h
      obtain ⟨hpairwise, hle⟩ := ih (Code.numberedFrom_append.mp h).2
      have hlater : ∀ t ∈ later, s.Precedes t := by
        intro t ht
        rw [Subroutine.Precedes, Subroutine.stop, hstart]
        apply hle t ht
      constructor
      · apply List.pairwise_cons.mpr ⟨hlater, hpairwise⟩
      · intro t ht
        rcases List.mem_cons.mp ht with rfl | ht
        · rw [hstart]
        · rw [← hstart]
          apply Nat.le_of_lt (hlater t ht).start_lt

/-- Subroutines that come one behind the other start at different addresses, in ascending order. -/
theorem pairwise_start (h : table.Pairwise Subroutine.Precedes) :
  (table.map Subroutine.start).Pairwise (· < ·)
  := List.pairwise_map.mpr (h.imp Subroutine.Precedes.start_lt)

/-- In a numbered table it is as far from each start to the next one as the subroutine is long. -/
theorem spans_start (h : table.code.NumberedFrom origin) :
  Code.spans (table.map Subroutine.start) (origin + table.code.length)
    = table.map fun s => s.code.length
  := by
  induction table generalizing origin with
  | nil => rfl
  | cons s later ih =>
      have hstart := start_of_numberedFrom h
      rw [code_cons] at h ⊢
      have hlater := (Code.numberedFrom_append.mp h).2
      have hspans := ih hlater
      rw [List.length_append, ← Nat.add_assoc]
      cases later with
      | nil => simp [Code.spans, code, hstart]
      | cons t later =>
          have hnext := start_of_numberedFrom hlater
          rw [List.map_cons] at hspans
          rw [List.map_cons, List.map_cons, Code.spans_cons_cons, hspans, hstart, hnext,
            Nat.add_sub_cancel_left]
          rfl

/-- The subroutines are found again in their code by their lengths. -/
theorem splitLengths_code (table : Table) :
  (table.map fun s => s.code.length).splitLengths table.code = table.map Subroutine.code
  := by
  induction table with
  | nil => rfl
  | cons s later ih =>
      rw [List.map_cons, List.splitLengths_cons, code_cons, List.take_left, List.drop_left, ih,
        List.map_cons]

end Table

namespace Code.WellNumbered

variable {code : Code} {i : Nat}

theorem pairwise_precedes (hcode : code.WellNumbered) :
  code.table.Pairwise Subroutine.Precedes
  := (Table.pairwise_of_numberedFrom hcode.numberedFrom_table).1

theorem lt_of_mem_boundaries (hcode : code.WellNumbered) (hne : code ≠ [])
    (hi : i ∈ code.boundaries) :
  i < code.length
  := by
  rcases mem_boundaries_iff.mp hi with rfl | htarget | ⟨-, -, -, -, hlt⟩
  · apply List.length_pos_iff.mpr hne
  · obtain ⟨instr, hinstr, htarget⟩ := List.mem_filterMap.mp htarget
    obtain ⟨j, hj⟩ := List.mem_iff_getElem?.mp hinstr
    apply (hcode j instr hj).2 i htarget
  · apply hlt

/-- The boundaries in ascending order are where the subroutines start. -/
theorem map_start_table (hcode : code.WellNumbered) (hne : code ≠ []) :
  code.table.map Subroutine.start = code.boundaries.elements
  := by
  apply List.Pairwise.eq_of_mem_iff (Table.pairwise_start hcode.pairwise_precedes)
    code.boundaries.ascending
  intro i
  rw [hcode.mem_map_start_iff]
  constructor
  · apply And.right
  · intro hi
    exact ⟨hcode.lt_of_mem_boundaries hne hi, hi⟩

/-- Code that is labelled where its subroutines start is that of its table. -/
theorem map_labelled_start (hcode : code.WellNumbered) :
  (code.map fun instr =>
      { instr with labelled := decide (instr.address ∈ code.table.map Subroutine.start) })
    = code.table.code
  := by
  rw [code_table]
  apply List.map_congr_left
  intro instr hinstr
  obtain ⟨i, hi⟩ := List.mem_iff_getElem?.mp hinstr
  have hlt : instr.address < code.length := by
    rw [(hcode i instr hi).1]
    apply (List.getElem?_eq_some_iff.mp hi).1
  congr 2
  rw [hcode.mem_map_start_iff, and_iff_right hlt]

/-- Cut by the lengths from start to start, well numbered code gives its subroutines. -/
theorem slices_start (hcode : code.WellNumbered) :
  code.slices (code.table.map Subroutine.start) = code.table.map Subroutine.code
  := by
  have hspans := Table.spans_start hcode.numberedFrom_table
  rw [Nat.zero_add, code_table, length_label] at hspans
  rw [slices, hspans, hcode.map_labelled_start, Table.splitLengths_code]

theorem slices_boundaries (hcode : code.WellNumbered) (hne : code ≠ []) :
  code.slices code.boundaries.elements = code.table.map Subroutine.code
  := by
  rw [← hcode.map_start_table hne, hcode.slices_start]

end Code.WellNumbered

end Resumable
