import Resumable.Table
import Mathlib.Tactic.Use

/-!
# What is in a table

The table of well numbered code holds the instructions of the code, up to their labels, and an
address leads to the instruction at that position (`fetch?_table`). Its subroutines start where
the code has a boundary (`isStart_table_iff`), and it stops behind the last instruction
(`stop_table`).
-/

namespace Resumable

namespace Code

/-- The instructions are numbered one after the other, from `origin` on. -/
def NumberedFrom (origin : Nat) (code : Code) : Prop :=
  ∀ (position : Nat) (instr : Instr), code[position]? = some instr →
    instr.address = origin + position

theorem numberedFrom_cons {origin : Nat} {instr : Instr} {rest : Code} :
  NumberedFrom origin (instr :: rest) ↔ instr.address = origin ∧ NumberedFrom (origin + 1) rest
  := by
  constructor
  · intro h
    constructor
    · apply h 0 instr rfl
    · intro position other hother
      rw [h (position + 1) other hother]
      omega
  · rintro ⟨hinstr, hrest⟩ (_ | position) other hother
    · cases hother
      apply hinstr
    · rw [hrest position other hother]
      omega

theorem numberedFrom_append {origin : Nat} {code code' : Code} :
  NumberedFrom origin (code ++ code')
    ↔ NumberedFrom origin code ∧ NumberedFrom (origin + code.length) code'
  := by
  induction code generalizing origin with
  | nil => simp [NumberedFrom]
  | cons instr code ih =>
      have hlength : origin + 1 + code.length = origin + (instr :: code).length := by
        rw [List.length_cons]
        omega
      rw [List.cons_append, numberedFrom_cons, numberedFrom_cons, ih, hlength, and_assoc]

theorem WellNumbered.numberedFrom {code : Code} (h : code.WellNumbered) :
  NumberedFrom 0 code
  := by
  intro position instr hinstr
  rw [(h position instr hinstr).1, Nat.zero_add]

/-- Code is not well numbered if an instruction is not numbered by its position, or jumps to an
address that the code does not have. -/
theorem not_wellNumbered_iff {code : Code} :
  ¬ code.WellNumbered ↔ ∃ (i : Nat) (instr : Instr), code[i]? = some instr
    ∧ (instr.address ≠ i ∨ ∃ target ∈ instr.op.target?, code.length ≤ target)
  := by
  simp only [WellNumbered, Classical.not_forall, Classical.not_and_iff_not_or_not, Nat.not_lt,
    exists_prop]

/-- In numbered code, the instruction with an address is the one at that distance. -/
theorem NumberedFrom.find?_address {origin : Nat} {code : Code} (h : NumberedFrom origin code)
    (address : Nat) :
  code.find? (fun instr => instr.address == address)
    = if origin ≤ address then code[address - origin]? else none
  := by
  induction code generalizing origin with
  | nil => simp
  | cons instr code ih =>
      obtain ⟨rfl, hcode⟩ := numberedFrom_cons.mp h
      rw [List.find?_cons, ih hcode]
      rcases Nat.lt_trichotomy address instr.address with hlt | heq | hgt
      · have hne : (instr.address == address) = false := by simp; omega
        rw [hne, if_neg (by omega), if_neg (by omega)]
      · subst heq
        simp
      · have hne : (instr.address == address) = false := by simp; omega
        obtain ⟨n, rfl⟩ := Nat.exists_eq_add_of_le hgt
        rw [hne, if_pos (by omega), if_pos (by omega)]
        have hn : instr.address.succ + n - instr.address = n + 1 := by omega
        simp [hn]

/-! ### Labels -/

@[simp]
theorem length_label (code : Code) (labels : Addresses) :
  (code.label labels).length = code.length
  := List.length_map _

@[simp]
theorem getElem?_label (code : Code) (labels : Addresses) (position : Nat) :
  (code.label labels)[position]?
    = code[position]?.map fun instr => { instr with labelled := decide (instr.address ∈ labels) }
  := List.getElem?_map

/-- What the instructions do and where, without their labels. -/
def entries (code : Code) : List (Nat × Op) :=
  code.map fun instr => (instr.address, instr.op)

@[simp]
theorem entries_label (code : Code) (labels : Addresses) :
  (code.label labels).entries = code.entries
  := List.map_map

/-- Code with the same entries has the same instructions, up to their labels. -/
theorem exists_getElem?_of_entries_eq {code code' : Code} (h : code.entries = code'.entries)
    {i : Nat} {instr' : Instr} (hinstr' : code'[i]? = some instr') :
  ∃ instr, code[i]? = some instr ∧ instr.address = instr'.address ∧ instr.op = instr'.op
  := by
  have hentry : code.entries[i]? = some (instr'.address, instr'.op) := by
    rw [h, entries, List.getElem?_map, hinstr']
    rfl
  rw [entries, List.getElem?_map] at hentry
  obtain ⟨instr, hinstr, heq⟩ := Option.map_eq_some_iff.mp hentry
  use instr, hinstr, congrArg Prod.fst heq, congrArg Prod.snd heq

theorem NumberedFrom.label {origin : Nat} {code : Code} (h : NumberedFrom origin code)
    (labels : Addresses) :
  NumberedFrom origin (code.label labels)
  := by
  intro position instr hinstr
  rw [getElem?_label] at hinstr
  obtain ⟨other, hother, rfl⟩ := Option.map_eq_some_iff.mp hinstr
  apply h position other hother

end Code

namespace Table

/-- The first instruction of code is the first one of the first subroutine. -/
theorem exists_ofCode_cons (instr : Instr) (code : Code) :
  ∃ rest later, ofCode (instr :: code) = ⟨instr, rest⟩ :: later
  := by
  change ∃ rest later, push instr (ofCode code) = ⟨instr, rest⟩ :: later
  cases ofCode code with
  | nil => exact ⟨[], [], rfl⟩
  | cons s later =>
      rw [push]
      split
      · use [], s :: later
      · use s.code, later

/-- One more instruction comes into a subroutine of its own, or into the first one. -/
theorem exists_ofCode_cons_cons (instr other : Instr) (code : Code) :
  ∃ rest later, ofCode (other :: code) = ⟨other, rest⟩ :: later
    ∧ ofCode (instr :: other :: code)
        = if other.labelled then ⟨instr, []⟩ :: ⟨other, rest⟩ :: later
          else ⟨instr, other :: rest⟩ :: later
  := by
  obtain ⟨rest, later, htable⟩ := exists_ofCode_cons other code
  use rest, later, htable, congrArg (push instr) htable

/-- Cutting code neither drops nor moves an instruction. -/
theorem code_ofCode (code : Code) :
  (ofCode code).code = code
  := by
  induction code with
  | nil => rfl
  | cons instr code ih =>
      cases code with
      | nil => rfl
      | cons other code =>
          obtain ⟨rest, later, htable, hpush⟩ := exists_ofCode_cons_cons instr other code
          rw [htable] at ih
          rw [hpush, ← ih]
          split
          · rfl
          · rfl

/-- Subroutines start at the first instruction and at every labelled one after it. -/
theorem map_start_ofCode (instr : Instr) (code : Code) :
  (ofCode (instr :: code)).map Subroutine.start
    = instr.address :: (code.filter Instr.labelled).map Instr.address
  := by
  induction code generalizing instr with
  | nil => rfl
  | cons other code ih =>
      obtain ⟨rest, later, htable, hpush⟩ := exists_ofCode_cons_cons instr other code
      have hstarts := ih other
      rw [htable, List.map_cons] at hstarts
      obtain ⟨-, hlater⟩ := List.cons_eq_cons.mp hstarts
      rw [hpush]
      by_cases hlabel : other.labelled
      · rw [if_pos hlabel, List.filter_cons_of_pos hlabel, List.map_cons, List.map_cons,
          List.map_cons, hlater]
        rfl
      · rw [if_neg hlabel, List.filter_cons_of_neg hlabel, List.map_cons, hlater]
        rfl

theorem code_cons (s : Subroutine) (later : Table) :
  code (s :: later) = s.code ++ code later
  := List.flatMap_cons

section Numbered

variable {origin : Nat} {table later : Table} {s : Subroutine}

theorem start_of_numberedFrom (h : (code (s :: later)).NumberedFrom origin) :
  s.start = origin
  := by
  rw [code_cons] at h
  apply (Code.numberedFrom_cons.mp (Code.numberedFrom_append.mp h).1).1

/-- Each subroutine of a numbered table is numbered. -/
theorem numberedFrom_of_mem (h : table.code.NumberedFrom origin) (hs : s ∈ table) :
  s.code.NumberedFrom s.start
  := by
  induction table generalizing origin with
  | nil => cases hs
  | cons first later ih =>
      have hstart := start_of_numberedFrom h
      rw [code_cons] at h
      obtain ⟨hfirst, hlater⟩ := Code.numberedFrom_append.mp h
      rcases List.mem_cons.mp hs with rfl | hs
      · rw [hstart]
        apply hfirst
      · apply ih hlater hs

/-- A numbered table stops behind its last instruction. -/
theorem stop_of_numberedFrom (h : (code (s :: later)).NumberedFrom origin) :
  stop (s :: later) = origin + size (s :: later)
  := by
  induction later generalizing origin s with
  | nil =>
      have hstart := start_of_numberedFrom h
      simp [stop, size, code, Subroutine.stop, hstart]
  | cons t later ih =>
      have hlater : (code (t :: later)).NumberedFrom (origin + s.code.length) := by
        rw [code_cons] at h
        apply (Code.numberedFrom_append.mp h).2
      have hstop : stop (s :: t :: later) = stop (t :: later) := by
        simp [stop]
      rw [hstop, ih hlater, size, size, code_cons s, List.length_append, Nat.add_assoc]

end Numbered

/-- In a table of numbered subroutines, an address leads to the instruction that has it. -/
theorem fetch?_eq_find? {table : Table} (h : ∀ s ∈ table, s.code.NumberedFrom s.start)
    (address : Nat) :
  table.fetch? address = table.code.find? (fun instr => instr.address == address)
  := by
  induction table with
  | nil => rfl
  | cons s later ih =>
      have hs : s.fetch? address = s.code.find? (fun instr => instr.address == address) := by
        rw [(h s List.mem_cons_self).find?_address]
        rfl
      have hlater := ih fun other hother => h other (List.mem_cons_of_mem _ hother)
      rw [fetch?] at hlater ⊢
      rw [List.findSome?_cons, hlater, hs, code_cons, List.find?_append]
      cases s.code.find? (fun instr => instr.address == address) with
      | none => rfl
      | some instr => rfl

end Table

namespace Code

variable {code : Code}

theorem code_table (code : Code) :
  code.table.code = code.label code.boundaries
  := Table.code_ofCode _

theorem WellNumbered.numberedFrom_table (h : code.WellNumbered) :
  code.table.code.NumberedFrom 0
  := by
  rw [code_table]
  apply h.numberedFrom.label

/-- The table of well numbered code has the instruction of the code at each address. -/
theorem WellNumbered.fetch?_table (h : code.WellNumbered) (address : Nat) :
  code.table.fetch? address = (code.label code.boundaries)[address]?
  := by
  have hnumbered := h.numberedFrom_table
  rw [Table.fetch?_eq_find? fun s hs => Table.numberedFrom_of_mem hnumbered hs,
    hnumbered.find?_address, if_pos (Nat.zero_le address), Nat.sub_zero, code_table]

/-- The table of well numbered code stops behind the last instruction. -/
theorem WellNumbered.stop_table (h : code.WellNumbered) :
  code.table.stop = code.length
  := by
  have hnumbered := h.numberedFrom_table
  have hsize : code.table.size = code.length := by
    rw [Table.size, code_table, length_label]
  cases htable : code.table with
  | nil =>
      rw [← hsize, htable]
      rfl
  | cons s later =>
      rw [htable] at hnumbered
      rw [Table.stop_of_numberedFrom hnumbered, ← htable, hsize, Nat.zero_add]

/-- The table of well numbered code starts at the first address. -/
theorem WellNumbered.start_table (h : code.WellNumbered) :
  code.table.start = 0
  := by
  have hnumbered := h.numberedFrom_table
  cases htable : code.table with
  | nil => rfl
  | cons s later =>
      rw [htable] at hnumbered
      apply Table.start_of_numberedFrom hnumbered

/-- The boundaries are the entry, the targets of jumps and what follows a suspension. -/
theorem mem_boundaries_iff {address : Nat} :
  address ∈ code.boundaries ↔ address = 0 ∨ address ∈ code.jumpTargets
    ∨ ∃ instr ∈ code, instr.op = .suspend ∧ instr.address + 1 = address ∧ address < code.length
  := by
  have hresumption : ∀ instr : Instr, resumption? code.length instr = some address
      ↔ instr.op = .suspend ∧ instr.address + 1 = address ∧ address < code.length := by
    intro instr
    unfold resumption?
    cases instr.op with
    | suspend =>
        simp only [Option.ite_none_right_eq_some, Option.some.injEq, true_and]
        constructor
        · rintro ⟨hlt, rfl⟩
          exact ⟨rfl, hlt⟩
        · rintro ⟨rfl, hlt⟩
          use hlt
    | action text => simp
    | noop => simp
    | jumpIf cond polarity target => simp
    | jump target => simp
  simp only [boundaries, targets, Addresses.mem_union, Addresses.mem_ofList, List.mem_singleton,
    List.mem_filterMap, hresumption]

/-- A subroutine of the table of well numbered code starts at each boundary inside the code. -/
theorem WellNumbered.mem_map_start_iff (h : code.WellNumbered) {address : Nat} :
  address ∈ code.table.map Subroutine.start ↔ address < code.length ∧ address ∈ code.boundaries
  := by
  cases code with
  | nil => simp [table, label, Table.ofCode]
  | cons instr code =>
      have hstarts := Table.map_start_ofCode
        { instr with labelled := decide (instr.address ∈ boundaries (instr :: code)) }
        (label code (boundaries (instr :: code)))
      have hlabelled : address ∈ ((label code (boundaries (instr :: code))).filter
            Instr.labelled).map Instr.address
          ↔ ∃ other ∈ code, other.address ∈ boundaries (instr :: code)
            ∧ other.address = address := by
        simp [label, List.filter_map, and_assoc]
      rw [table, label, List.map_cons, ← label, hstarts, List.mem_cons, hlabelled]
      constructor
      · rintro (rfl | ⟨other, hother, hboundary, rfl⟩)
        · rw [(h 0 instr rfl).1]
          exact ⟨Nat.zero_lt_succ _, mem_boundaries_iff.mpr (.inl rfl)⟩
        · use ?_, hboundary
          obtain ⟨position, hposition⟩ := List.mem_iff_getElem?.mp hother
          rw [(h (position + 1) other hposition).1, List.length_cons]
          have := (List.getElem?_eq_some_iff.mp hposition).1
          omega
      · rintro ⟨hlt, hboundary⟩
        cases address with
        | zero =>
            left
            apply (h 0 instr rfl).1.symm
        | succ position =>
            have hlt : position < code.length := Nat.lt_of_succ_lt_succ hlt
            have haddress := (h (position + 1) code[position] (List.getElem?_eq_getElem hlt)).1
            right
            use code[position], List.getElem_mem hlt
            rw [haddress]
            use hboundary

theorem WellNumbered.isStart_table_iff (h : code.WellNumbered) {address : Nat} :
  code.table.isStart address ↔ address < code.length ∧ address ∈ code.boundaries
  := by
  rw [← h.mem_map_start_iff]
  simp [Table.isStart]

theorem WellNumbered.partition_eq (hcode : code.WellNumbered) :
  code.partition = .ok code.table
  := by
  rw [partition, fault?_eq_none_iff.mpr hcode]

end Code

end Resumable
