import Resumable.Table

/-!
# Texts of code

Actions and conditions are texts that no stage of the lowering looks into. `Code.mapText g` is the
code with `g` applied to every text in it, and `Table.mapText g` is the same for tables. Compressing
and partitioning commute with that, whatever `g` is (`Code.compress_mapText`,
`Code.partition_mapText`): they neither compare texts nor take one for another.
-/

namespace Resumable

variable {g : String → String}

/-- The operation with `g` applied to its text. -/
def Op.mapText (g : String → String) : Op → Op
  | action text => action (g text)
  | suspend => suspend
  | noop => noop
  | jumpIf cond polarity target => jumpIf (g cond) polarity target
  | jump target => jump target

/-- The instruction with `g` applied to its text. -/
def Instr.mapText (g : String → String) (instr : Instr) : Instr :=
  { instr with op := instr.op.mapText g }

/-- The code with `g` applied to every text in it. -/
def Code.mapText (g : String → String) (code : Code) : Code :=
  code.map (Instr.mapText g)

/-- The subroutine with `g` applied to every text in it. -/
def Subroutine.mapText (g : String → String) (s : Subroutine) : Subroutine where
  first := s.first.mapText g
  rest := s.rest.map (Instr.mapText g)

/-- The table with `g` applied to every text in it. -/
def Table.mapText (g : String → String) (table : Table) : Table :=
  table.map (Subroutine.mapText g)

namespace Op

@[simp]
theorem target?_mapText (op : Op) :
  (op.mapText g).target? = op.target?
  := by
  cases op <;> rfl

theorem retarget_mapText (f : Nat → Nat) (op : Op) :
  (op.mapText g).retarget f = (op.retarget f).mapText g
  := by
  cases op <;> rfl

end Op

namespace Code

/-! ### Addresses -/

@[simp]
theorem length_mapText (code : Code) :
  (code.mapText g).length = code.length
  := List.length_map _

@[simp]
theorem targets_mapText (code : Code) :
  (code.mapText g).targets = code.targets
  := by
  have hjumps : (code.mapText g).jumpTargets = code.jumpTargets := by
    rw [jumpTargets, mapText, List.filterMap_map]
    congr 1
    funext instr
    apply Op.target?_mapText
  rw [targets, hjumps, targets]

theorem label_mapText (code : Code) (labels : Addresses) :
  (code.mapText g).label labels = (code.label labels).mapText g
  := by
  rw [label, mapText, mapText, label, List.map_map, List.map_map]
  rfl

/-- A fault is about addresses only. -/
theorem fault?_mapText (code : Code) :
  (code.mapText g).fault? = code.fault?
  := by
  have hinstr : ∀ size position (instr : Instr),
      (instr.mapText g).fault? size position = instr.fault? size position := by
    intro size position instr
    simp only [Instr.fault?, Instr.mapText, Op.target?_mapText]
  rw [fault?, mapText, List.zipIdx_map, List.findSome?_map, List.length_map, fault?]
  congr 1
  funext entry
  apply hinstr

/-! ### Compression -/

theorem isSpare_mapText (code : Code) (instr : Instr) :
  (code.mapText g).isSpare (instr.mapText g) = code.isSpare instr
  := by
  obtain ⟨address, op, labelled⟩ := instr
  cases op with
  | noop => simp [isSpare, Instr.mapText, Op.mapText]
  | _ => rfl

theorem dangles_mapText (code : Code) (marks : List Bool) :
  (code.mapText g).dangles marks = code.dangles marks
  := by
  rw [dangles, mapText, List.zip_map_left, List.any_map, dangles]
  congr 1
  funext entry
  simp [Instr.mapText]

/-- The same instructions are kept. -/
theorem marks_mapText (code : Code) :
  (code.mapText g).marks = code.marks
  := by
  have hmap : ((code.mapText g).map fun instr => !(code.mapText g).isSpare instr)
      = code.map fun instr => !code.isSpare instr := by
    rw [mapText, List.map_map, ← mapText]
    congr 1
    funext instr
    rw [Function.comp_apply, isSpare_mapText]
  rw [marks, hmap, dangles_mapText, length_mapText, marks]

theorem pass_mapText (code : Code) :
  (code.mapText g).pass = code.pass.mapText g
  := by
  have hmoved : ∀ marks (instr : Instr),
      moved marks (instr.mapText g) = (moved marks instr).mapText g := by
    intro marks instr
    simp only [moved, Instr.mapText, Op.retarget_mapText]
  rw [pass, marks_mapText, mapText, List.zip_map_left, List.filterMap_map, pass, mapText,
    List.map_filterMap]
  congr 1
  funext entry
  obtain ⟨instr, mark⟩ := entry
  cases mark with
  | true => simp [hmoved]
  | false => rfl

theorem settle_mapText (rounds : Nat) (code : Code) :
  settle rounds (code.mapText g) = (settle rounds code).mapText g
  := by
  induction rounds generalizing code with
  | zero => rfl
  | succ rounds ih =>
      rw [settle, settle, marks_mapText, pass_mapText, ih, apply_ite (mapText g)]

theorem compact_mapText (code : Code) :
  (code.mapText g).compact = code.compact.mapText g
  := by
  rw [compact, length_mapText, settle_mapText, targets_mapText, label_mapText, compact]

/-- Compressing does not look at texts: it commutes with every change of them. -/
theorem compress_mapText (g : String → String) (code : Code) :
  (code.mapText g).compress = code.compress.map (mapText g)
  := by
  rw [compress, fault?_mapText, compact_mapText, compress]
  cases code.fault? with
  | none => rfl
  | some fault => rfl

/-! ### Partition -/

theorem boundaries_mapText (code : Code) :
  (code.mapText g).boundaries = code.boundaries
  := by
  have hresumption : ∀ size (instr : Instr),
      resumption? size (instr.mapText g) = resumption? size instr := by
    intro size instr
    obtain ⟨address, op, labelled⟩ := instr
    cases op <;> rfl
  have hresumptions : (code.mapText g).filterMap (resumption? code.length)
      = code.filterMap (resumption? code.length) := by
    rw [mapText, List.filterMap_map]
    congr 1
    funext instr
    apply hresumption
  rw [boundaries, targets_mapText, length_mapText, hresumptions, boundaries]

theorem ofCode_mapText (code : Code) :
  Table.ofCode (code.mapText g) = (Table.ofCode code).mapText g
  := by
  have hpush : ∀ (instr : Instr) (table : Table),
      Table.push (instr.mapText g) (table.mapText g) = (Table.push instr table).mapText g := by
    intro instr table
    cases table with
    | nil => rfl
    | cons s rest =>
        rw [Table.push, apply_ite (Table.mapText g)]
        rfl
  induction code with
  | nil => rfl
  | cons instr code ih =>
      have hrest := congrArg (Table.push (instr.mapText g)) ih
      rw [hpush] at hrest
      apply hrest

/-- Cutting code into subroutines does not look at texts: it commutes with every change of them. -/
theorem partition_mapText (g : String → String) (code : Code) :
  (code.mapText g).partition = code.partition.map (Table.mapText g)
  := by
  have htable : (code.mapText g).table = code.table.mapText g := by
    rw [table, boundaries_mapText, label_mapText, ofCode_mapText, table]
  rw [partition, fault?_mapText, htable, partition]
  cases code.fault? with
  | none => rfl
  | some fault => rfl

end Code

end Resumable
