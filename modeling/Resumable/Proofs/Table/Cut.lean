import Resumable.Proofs.Table.Slicing
import Mathlib.Data.List.Chain

/-!
# Cut code

`Table.Cuts` says of a table that it is code cut into subroutines: in front of the entry, of every
target of a jump and of what follows a suspension, and nowhere else. The table of well numbered code
is cut like this (`WellNumbered.cuts_table`), and it is the only one (`Cuts.eq_table`).
-/

namespace Resumable

/-- The operation jumps to the target, or may do so. -/
inductive Op.JumpsTo (target : Nat) : Op → Prop where
  | jumpIf (cond : String) (polarity : Polarity) : JumpsTo target (.jumpIf cond polarity target)
  | jump : JumpsTo target (.jump target)

theorem Op.jumpsTo_iff {op : Op} {target : Nat} :
  op.JumpsTo target ↔ target ∈ op.target?
  := by
  constructor
  · rintro (_ | _)
    · rfl
    · rfl
  · intro htarget
    cases op with
    | jumpIf cond polarity target' =>
        cases htarget
        apply JumpsTo.jumpIf
    | jump target' =>
        cases htarget
        apply JumpsTo.jump
    | _ => cases htarget

namespace Code

/-- An instruction is not numbered by its position, or jumps to an address that the code does not
have. -/
def Misnumbered (code : Code) : Prop :=
  ∃ (i : Nat) (instr : Instr), code[i]? = some instr
    ∧ (instr.address ≠ i ∨ ∃ target, instr.op.JumpsTo target ∧ code.length ≤ target)

/-- The address is the entry, or one that a jump leads to, or follows a suspension. -/
def IsBoundary (code : Code) (i : Nat) : Prop :=
  i = 0 ∨ (∃ instr ∈ code, instr.op.JumpsTo i)
    ∨ ∃ (j : Nat) (instr : Instr), code[j]? = some instr ∧ instr.op = .suspend ∧ i = j + 1

end Code

namespace Table

/-- The table is the code, cut into subroutines that are labelled where they start. -/
structure Cuts (table : Table) (code : Code) : Prop where
  /-- No subroutine is empty. -/
  code_ne_nil : ∀ s ∈ table, s.code ≠ []
  /-- A subroutine starts where the one before it stops. -/
  contiguous : table.IsChain fun s t => s.stop = t.start
  /-- The first subroutine starts at the entry. -/
  start_head : ∀ s ∈ table.head?, s.start = 0
  /-- The last subroutine stops behind the code. -/
  stop_last : ∀ s ∈ table.getLast?, s.stop = code.length
  /-- Only for empty code there is no subroutine. -/
  eq_nil_iff : table = [] ↔ code = []
  /-- The subroutines one after the other are the code, up to its labels. -/
  entries_eq : table.code.entries = code.entries
  /-- A subroutine starts at the entry, where a jump leads to, and behind a suspension. -/
  start_iff : ∀ i < code.length, (∃ s ∈ table, s.start = i) ↔ code.IsBoundary i
  /-- A suspension is the last instruction of its subroutine. -/
  suspend_last : ∀ s ∈ table, ∀ (i : Nat) (instr : Instr), s.code[i]? = some instr →
    instr.op = .suspend → i + 1 = s.code.length
  /-- The first instruction of a subroutine is labelled, and no other one. -/
  labelled : ∀ s ∈ table, s.first.labelled = true ∧ ∀ instr ∈ s.rest, instr.labelled = false

/-- In a numbered table, a subroutine starts where the one before it stops. -/
theorem isChain_of_numberedFrom {origin : Nat} {table : Table}
    (h : table.code.NumberedFrom origin) :
  table.IsChain fun s t => s.stop = t.start
  := by
  induction table generalizing origin with
  | nil => apply List.isChain_nil
  | cons s later ih =>
      have hstart := start_of_numberedFrom h
      rw [code_cons] at h
      have hlater := (Code.numberedFrom_append.mp h).2
      cases later with
      | nil => apply List.isChain_singleton
      | cons t later =>
          apply List.isChain_cons_cons.mpr
          constructor
          · rw [start_of_numberedFrom hlater, Subroutine.stop, hstart]
          · apply ih hlater

/-- Code is cut in front of its labelled instructions only. -/
theorem exists_ofCode_cons_labelled (instr : Instr) (code : Code) :
  ∃ rest later, ofCode (instr :: code) = ⟨instr, rest⟩ :: later
    ∧ (∀ other ∈ rest, other.labelled = false)
    ∧ ∀ s ∈ later, s.first.labelled = true ∧ ∀ other ∈ s.rest, other.labelled = false
  := by
  induction code generalizing instr with
  | nil => exact ⟨[], [], rfl, by simp, by simp⟩
  | cons other code ih =>
      obtain ⟨rest, later, hcut, hrest, hlater⟩ := ih other
      have hpush : ofCode (instr :: other :: code) = push instr (⟨other, rest⟩ :: later) :=
        congrArg (push instr) hcut
      rw [hpush, push]
      by_cases hlabel : other.labelled = true
      · refine ⟨[], ⟨other, rest⟩ :: later, if_pos hlabel, by simp, ?_⟩
        intro s hs
        rcases List.mem_cons.mp hs with rfl | hs
        · exact ⟨hlabel, hrest⟩
        · apply hlater s hs
      · refine ⟨other :: rest, later, if_neg hlabel, ?_, hlater⟩
        intro another hmem
        rcases List.mem_cons.mp hmem with rfl | hmem
        · simpa using hlabel
        · apply hrest another hmem

/-- Instructions without labels come into the subroutine of the instruction in front of them. -/
theorem foldr_push {later : Table} (hlater : ∀ s ∈ later.head?, s.first.labelled = true)
    {rest : Code} (hrest : ∀ instr ∈ rest, instr.labelled = false) (first : Instr) :
  (first :: rest).foldr push later = ⟨first, rest⟩ :: later
  := by
  induction rest generalizing first with
  | nil =>
      cases later with
      | nil => rfl
      | cons s later => apply if_pos (hlater s rfl)
  | cons other rest ih =>
      have hother := hrest other List.mem_cons_self
      rw [List.foldr_cons, ih (fun instr hinstr => hrest instr (List.mem_cons_of_mem other hinstr)),
        push, if_neg (by simp [hother])]
      rfl

/-- A table that is labelled where its subroutines start is its code cut at the labels. -/
theorem ofCode_code {table : Table}
    (h : ∀ s ∈ table, s.first.labelled = true ∧ ∀ instr ∈ s.rest, instr.labelled = false) :
  ofCode table.code = table
  := by
  induction table with
  | nil => rfl
  | cons s later ih =>
      have hlater : ofCode (code later) = later :=
        ih fun t ht => h t (List.mem_cons_of_mem s ht)
      have hhead : ∀ t ∈ later.head?, t.first.labelled = true := by
        intro t ht
        apply (h t (List.mem_cons_of_mem s (List.mem_of_mem_head? ht))).1
      calc ofCode (code (s :: later))
        _ = s.code.foldr push (ofCode (code later)) := by
          rw [code_cons]
          apply List.foldr_append
        _ = s :: later := by
          rw [hlater]
          apply foldr_push hhead (h s List.mem_cons_self).2

end Table

namespace Code

variable {code : Code} {table : Table} {i : Nat}

/-! ### The table of the code -/

theorem misnumbered_iff :
  code.Misnumbered ↔ ¬ code.WellNumbered
  := by
  simp only [Misnumbered, Op.jumpsTo_iff, not_wellNumbered_iff]

theorem WellNumbered.mem_boundaries_iff_of_lt (hcode : code.WellNumbered) (hi : i < code.length) :
  i ∈ code.boundaries ↔ i = 0 ∨ i ∈ code.jumpTargets
    ∨ ∃ (j : Nat) (instr : Instr), code[j]? = some instr ∧ instr.op = .suspend ∧ i = j + 1
  := by
  rw [mem_boundaries_iff]
  constructor
  · rintro (rfl | htarget | ⟨instr, hmem, hsuspend, rfl, -⟩)
    · left
      rfl
    · right; left
      apply htarget
    · right; right
      obtain ⟨j, hj⟩ := List.mem_iff_getElem?.mp hmem
      use j, instr, hj, hsuspend
      rw [(hcode j instr hj).1]
  · rintro (rfl | htarget | ⟨j, instr, hj, hsuspend, rfl⟩)
    · left
      rfl
    · right; left
      apply htarget
    · right; right
      refine ⟨instr, List.mem_of_getElem? hj, hsuspend, ?_, hi⟩
      rw [(hcode j instr hj).1]

theorem WellNumbered.isBoundary_iff (hcode : code.WellNumbered) (hi : i < code.length) :
  code.IsBoundary i ↔ i ∈ code.boundaries
  := by
  have hjumps : (∃ instr ∈ code, instr.op.JumpsTo i) ↔ i ∈ code.jumpTargets := by
    simp only [Op.jumpsTo_iff, jumpTargets, List.mem_filterMap, Option.mem_def]
  rw [hcode.mem_boundaries_iff_of_lt hi, IsBoundary, hjumps]

theorem WellNumbered.exists_start_iff (hcode : code.WellNumbered) (hi : i < code.length) :
  (∃ s ∈ code.table, s.start = i) ↔ i ∈ code.boundaries
  := by
  rw [← List.mem_map, hcode.mem_map_start_iff]
  apply and_iff_right hi

theorem WellNumbered.labelled_of_mem_table (hcode : code.WellNumbered) {s : Subroutine}
    (hs : s ∈ code.table) :
  s.first.labelled = true ∧ ∀ instr ∈ s.rest, instr.labelled = false
  := by
  cases code with
  | nil => cases hs
  | cons first code =>
      obtain ⟨rest, later, hcut, hrest, hlater⟩ := Table.exists_ofCode_cons_labelled
        { first with labelled := decide (first.address ∈ boundaries (first :: code)) }
        (label code (boundaries (first :: code)))
      have htable : table (first :: code) = _ :: later := hcut
      rw [htable] at hs
      rcases List.mem_cons.mp hs with rfl | hlate
      · refine ⟨?_, hrest⟩
        rw [(hcode 0 first rfl).1, decide_eq_true_eq, mem_boundaries_iff]
        left
        rfl
      · apply hlater s hlate

/-- Behind a suspension there is a boundary, where the next subroutine starts. -/
theorem WellNumbered.suspend_last (hcode : code.WellNumbered) {s : Subroutine}
    (hs : s ∈ code.table) {instr : Instr} (hinstr : s.code[i]? = some instr)
    (hsuspend : instr.op = .suspend) :
  i + 1 = s.code.length
  := by
  have hnumbered := Table.numberedFrom_of_mem hcode.numberedFrom_table hs
  have hmem : ∀ other ∈ s.code, other ∈ code.label code.boundaries := by
    intro other hother
    rw [← code_table]
    apply List.mem_flatMap.mpr ⟨s, hs, hother⟩
  have hi := (List.getElem?_eq_some_iff.mp hinstr).1
  by_contra hne
  obtain ⟨next, hnext⟩ : ∃ next, s.code[i + 1]? = some next :=
    ⟨_, List.getElem?_eq_getElem (by omega)⟩
  -- the next instruction is not the first one of the subroutine
  have hlabel : next.labelled = false :=
    (hcode.labelled_of_mem_table hs).2 next (List.mem_of_getElem? hnext)
  have haddress : next.address = instr.address + 1 := by
    rw [hnumbered i instr hinstr, hnumbered (i + 1) next hnext, Nat.add_assoc]
  obtain ⟨before, hbefore, rfl⟩ := List.mem_map.mp (hmem instr (List.mem_of_getElem? hinstr))
  obtain ⟨after, hafter, rfl⟩ := List.mem_map.mp (hmem next (List.mem_of_getElem? hnext))
  apply of_decide_eq_false hlabel
  apply mem_boundaries_iff.mpr
  right
  right
  refine ⟨before, hbefore, hsuspend, haddress.symm, ?_⟩
  obtain ⟨j, hj⟩ := List.mem_iff_getElem?.mp hafter
  rw [(hcode j after hj).1]
  apply (List.getElem?_eq_some_iff.mp hj).1

/-- The table of well numbered code is the code cut at its boundaries. -/
theorem WellNumbered.cuts_table (hcode : code.WellNumbered) :
  code.table.Cuts code
  where
  code_ne_nil s _ := List.cons_ne_nil s.first s.rest
  contiguous := Table.isChain_of_numberedFrom hcode.numberedFrom_table
  start_head s hs := by
    have hstart := hcode.start_table
    rwa [Table.start, hs] at hstart
  stop_last s hs := by
    have hstop := hcode.stop_table
    rwa [Table.stop, hs] at hstop
  eq_nil_iff := by
    constructor
    · intro htable
      have hcode := code.code_table
      rw [htable] at hcode
      apply List.map_eq_nil_iff.mp hcode.symm
    · rintro rfl
      rfl
  entries_eq := by rw [code_table, entries_label]
  start_iff i hi := by rw [hcode.exists_start_iff hi, hcode.isBoundary_iff hi]
  suspend_last s hs i instr hinstr hsuspend := hcode.suspend_last hs hinstr hsuspend
  labelled s hs := hcode.labelled_of_mem_table hs

/-! ### No other table -/

theorem label_eq_of_entries_eq {code' : Code} (h : code.entries = code'.entries)
    (labels : Addresses) :
  code.label labels = code'.label labels
  := by
  have hlabel (code : Code) : code.label labels
      = code.entries.map fun entry => ⟨entry.1, entry.2, decide (entry.1 ∈ labels)⟩ := by
    rw [entries, List.map_map]
    rfl
  rw [hlabel, h, hlabel]

theorem NumberedFrom.eq_of_address_eq {origin : Nat} (h : NumberedFrom origin code)
    {instr instr' : Instr} (hinstr : instr ∈ code) (hinstr' : instr' ∈ code)
    (heq : instr.address = instr'.address) :
  instr = instr'
  := by
  obtain ⟨i, hi⟩ := List.mem_iff_getElem?.mp hinstr
  obtain ⟨j, hj⟩ := List.mem_iff_getElem?.mp hinstr'
  have hij : i = j := by
    have hiaddress := h i instr hi
    have hjaddress := h j instr' hj
    omega
  rw [hij, hj] at hi
  cases hi
  rfl

end Code

namespace Table.Cuts

variable {code : Code} {table : Table}

theorem numberedFrom (h : table.Cuts code) (hcode : code.WellNumbered) :
  table.code.NumberedFrom 0
  := by
  intro i instr hinstr
  obtain ⟨other, hother, haddress, -⟩ := Code.exists_getElem?_of_entries_eq h.entries_eq.symm hinstr
  rw [← haddress]
  apply hcode.numberedFrom i other hother

/-- The labels of a table that is cut from code are at the boundaries. -/
theorem labelled_eq (h : table.Cuts code) (hcode : code.WellNumbered) {instr : Instr}
    (hinstr : instr ∈ table.code) :
  instr.labelled = decide (instr.address ∈ code.boundaries)
  := by
  have hnumbered := h.numberedFrom hcode
  obtain ⟨s, hs, hmem⟩ := List.mem_flatMap.mp hinstr
  have hlt : instr.address < code.length := by
    obtain ⟨i, hi⟩ := List.mem_iff_getElem?.mp hinstr
    obtain ⟨other, hother, -⟩ := Code.exists_getElem?_of_entries_eq h.entries_eq.symm hi
    rw [hnumbered i instr hi, Nat.zero_add]
    apply (List.getElem?_eq_some_iff.mp hother).1
  have hstart : instr.address ∈ code.boundaries ↔ ∃ s ∈ table, s.start = instr.address := by
    rw [h.start_iff _ hlt, hcode.isBoundary_iff hlt]
  rcases List.mem_cons.mp hmem with rfl | hrest
  · rw [(h.labelled s hs).1, eq_comm, decide_eq_true_eq, hstart]
    use s, hs
    rfl
  · rw [(h.labelled s hs).2 instr hrest, eq_comm, decide_eq_false_iff_not, hstart]
    rintro ⟨t, ht, heq⟩
    have hfirst : t.first ∈ table.code := List.mem_flatMap.mpr ⟨t, ht, List.mem_cons_self⟩
    have hsame := hnumbered.eq_of_address_eq hfirst hinstr heq
    have hlabel := (h.labelled t ht).1
    rw [hsame, (h.labelled s hs).2 instr hrest] at hlabel
    cases hlabel

/-- Only the table of the code is cut like it. -/
theorem eq_table (h : table.Cuts code) (hcode : code.WellNumbered) :
  table = code.table
  := by
  have hlabel : table.code = code.label code.boundaries := by
    calc table.code
      _ = table.code.map id := (List.map_id _).symm
      _ = table.code.label code.boundaries := by
        apply List.map_congr_left
        intro instr hinstr
        rw [← h.labelled_eq hcode hinstr]
        rfl
      _ = code.label code.boundaries := Code.label_eq_of_entries_eq h.entries_eq _
  rw [Code.table, ← hlabel, ofCode_code h.labelled]

end Table.Cuts

namespace Code

theorem partition_error_iff {code : Code} :
  (∃ fault, code.partition = .error fault) ↔ ¬ code.WellNumbered
  := by
  rw [← fault?_eq_none_iff, partition]
  cases code.fault? with
  | none => simp
  | some fault => simp

theorem partition_ok_iff {code : Code} {table : Table} :
  code.partition = .ok table ↔ code.WellNumbered ∧ code.table = table
  := by
  rw [← fault?_eq_none_iff, partition]
  cases code.fault? with
  | none => simp
  | some fault => simp

/-- Cutting code fails just if an instruction is not numbered by its position or jumps to an address
that the code does not have. If not, the result is the one table that is the code cut at the
entry, at the targets of its jumps and behind its suspensions. Its subroutines are what is taken off
the code by the lengths from each of these addresses to the next one, in ascending order and with
the end of the code behind them. -/
theorem partition_cuts (code : Code) :
  ((∃ fault, code.partition = .error fault) ↔ code.Misnumbered)
  ∧ (¬ code.Misnumbered → ∃ table, code.partition = .ok table ∧ table.Cuts code
    ∧ (∀ other : Table, other.Cuts code → other = table)
    ∧ ∃ starts : List Nat, starts.Pairwise (· < ·)
      ∧ (∀ i, i ∈ starts ↔ i < code.length ∧ code.IsBoundary i)
      ∧ (code ≠ [] → starts = code.boundaries.elements)
      ∧ table.map Subroutine.code = code.slices starts)
  := by
  constructor
  · rw [partition_error_iff, misnumbered_iff]
  · rw [misnumbered_iff, not_not]
    intro hcode
    refine ⟨code.table, hcode.partition_eq, hcode.cuts_table, ?_, code.table.map Subroutine.start,
      Table.pairwise_start hcode.pairwise_precedes, ?_, hcode.map_start_table,
      hcode.slices_start.symm⟩
    · intro other hother
      apply hother.eq_table hcode
    · intro i
      rw [hcode.mem_map_start_iff]
      apply and_congr_right
      intro hi
      rw [hcode.isBoundary_iff hi]

/-- Two jumps, one forward and one back, lead to where no suspension comes before, and suspensions
follow each other; the last one opens no subroutine. The labels that the code has do not matter. -/
theorem partition_cuts_targets :
  let code : Code := [⟨0, .jumpIf "c" .onFalse 3, false⟩, ⟨1, .action "a", false⟩,
    ⟨2, .jump 1, true⟩, ⟨3, .suspend, false⟩, ⟨4, .suspend, true⟩, ⟨5, .action "b", true⟩,
    ⟨6, .suspend, true⟩]
  ¬ code.Misnumbered ∧ ∃ table, code.partition = .ok table ∧ table.Cuts code
    ∧ table.map Subroutine.code = code.slices [0, 1, 3, 4, 5]
    ∧ table = [⟨⟨0, .jumpIf "c" .onFalse 3, true⟩, []⟩,
      ⟨⟨1, .action "a", true⟩, [⟨2, .jump 1, false⟩]⟩, ⟨⟨3, .suspend, true⟩, []⟩,
      ⟨⟨4, .suspend, true⟩, []⟩, ⟨⟨5, .action "b", true⟩, [⟨6, .suspend, false⟩]⟩]
  := by
  intro code
  have hcode : code.WellNumbered := by decide
  have hnumbered : ¬ code.Misnumbered := by rwa [misnumbered_iff, not_not]
  obtain ⟨table, hpartition, hcuts, -, starts, -, -, hstarts, hslices⟩ :=
    (partition_cuts code).2 hnumbered
  have hboundaries : starts = [0, 1, 3, 4, 5] := by
    rw [hstarts (List.cons_ne_nil _ _)]
    decide
  rw [hboundaries] at hslices
  refine ⟨hnumbered, table, hpartition, hcuts, hslices, ?_⟩
  rw [hcuts.eq_table hcode]
  decide

end Code

end Resumable
