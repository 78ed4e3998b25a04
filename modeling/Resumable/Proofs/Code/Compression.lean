import Resumable.Code.Compression
import Resumable.Proofs.Code.Renumbering
import Resumable.Proofs.Machine.History
import Mathlib.Data.List.Induction

/-!
# Compression keeps behaviour

A pass renumbers well numbered code by the ranks of its addresses among the kept instructions
(`WellNumbered.renumbers_pass`), hence so does compression as a whole
(`WellNumbered.exists_renumbers_compact`). So machines over the code and over what it is
compressed to have the same histories.
-/

universe u

namespace Resumable

namespace Code

/-! ### Ranks -/

section Rank

variable {marks : List Bool} {i j : Nat}

theorem rank_succ_of_true (h : marks[i]? = some true) :
  rank marks (i + 1) = rank marks i + 1
  := by
  unfold rank
  rw [List.take_add_one, h, List.count_append]
  rfl

theorem rank_succ_of_false (h : marks[i]? = some false) :
  rank marks (i + 1) = rank marks i
  := by
  unfold rank
  rw [List.take_add_one, h, List.count_append]
  rfl

theorem rank_length (marks : List Bool) :
  rank marks marks.length = marks.count true
  := by
  rw [rank, List.take_length]

theorem rank_mono (marks : List Bool) (h : i ≤ j) :
  rank marks i ≤ rank marks j
  := by
  apply List.Sublist.count_le
  apply List.IsPrefix.sublist
  apply List.take_prefix_take_left h

/-- In front of an address there are fewer kept instructions than in all, if one from there on is
kept. -/
theorem rank_lt_count (h : marks[j]? = some true) (hij : i ≤ j) :
  rank marks i < marks.count true
  := by
  have hj : j + 1 ≤ marks.length := (List.getElem?_eq_some_iff.mp h).1
  calc rank marks i
    _ < rank marks j + 1 := Nat.lt_succ_of_le (rank_mono marks hij)
    _ = rank marks (j + 1) := (rank_succ_of_true h).symm
    _ ≤ rank marks marks.length := rank_mono marks hj
    _ = marks.count true := rank_length marks

@[simp]
theorem keptEnd_concat_true (marks : List Bool) :
  keptEnd (marks ++ [true]) = marks.length + 1
  := by
  simp [keptEnd]

@[simp]
theorem keptEnd_concat_false (marks : List Bool) :
  keptEnd (marks ++ [false]) = keptEnd marks
  := by
  simp [keptEnd]

theorem exists_true_of_lt_keptEnd (h : i < keptEnd marks) :
  ∃ j, i ≤ j ∧ marks[j]? = some true
  := by
  induction marks using List.reverseRecOn with
  | nil => cases h
  | append_singleton marks mark ih =>
      cases mark with
      | true =>
          rw [keptEnd_concat_true] at h
          use marks.length, Nat.le_of_lt_succ h
          rw [List.getElem?_concat_length]
      | false =>
          rw [keptEnd_concat_false] at h
          obtain ⟨j, hij, hj⟩ := ih h
          use j, hij
          rw [List.getElem?_append_left (List.getElem?_eq_some_iff.mp hj).1, hj]

end Rank

/-! ### Which instructions are kept -/

section Marks

variable {code : Code} {instr : Instr} {i target : Nat}

/-- The kept instructions are those that are not spare, and then no jump dangles, or these and the
last one. -/
theorem marks_cases (code : Code) :
  (code.marks = code.map (fun instr => !code.isSpare instr) ∧ code.dangles code.marks = false)
    ∨ code.marks = (code.map fun instr => !code.isSpare instr).set (code.length - 1) true
  := by
  by_cases hdangles : code.dangles (code.map fun instr => !code.isSpare instr) = true
  · right
    apply if_pos hdangles
  · left
    have hmarks : code.marks = code.map fun instr => !code.isSpare instr := if_neg hdangles
    use hmarks
    rw [hmarks]
    apply Bool.eq_false_iff.mpr hdangles

theorem length_marks (code : Code) :
  code.marks.length = code.length
  := by
  rcases code.marks_cases with ⟨hmarks, -⟩ | hmarks
  · rw [hmarks, List.length_map]
  · rw [hmarks, List.length_set, List.length_map]

/-- Only spare instructions are removed. -/
theorem isSpare_of_marks (hinstr : code[i]? = some instr) (h : code.marks[i]? = some false) :
  code.isSpare instr = true
  := by
  have hmap : (code.map fun instr => !code.isSpare instr)[i]? = some false := by
    rcases code.marks_cases with ⟨hmarks, -⟩ | hmarks
    · rw [← hmarks, h]
    · rw [hmarks, List.getElem?_set] at h
      split at h
      · split at h
        · cases h
        · cases h
      · apply h
  rw [List.getElem?_map, hinstr] at hmap
  simpa using hmap

theorem op_of_isSpare (h : code.isSpare instr = true) :
  instr.op = .noop ∨ instr.op = .jump (instr.address + 1)
  := by
  unfold isSpare at h
  cases hop : instr.op with
  | noop =>
      left
      rfl
  | jump target =>
      simp only [hop, beq_iff_eq] at h
      rw [h]
      right
      rfl
  | action text => simp [hop] at h
  | suspend => simp [hop] at h
  | jumpIf cond polarity target => simp [hop] at h

/-- An instruction is kept at or behind every target of an instruction that is kept. -/
theorem WellNumbered.exists_marks_of_target (hcode : code.WellNumbered)
    (hinstr : code[i]? = some instr) (hkept : code.marks[i]? = some true)
    (htarget : target ∈ instr.op.target?) :
  ∃ j, target ≤ j ∧ code.marks[j]? = some true
  := by
  have hlt := (hcode i instr hinstr).2 target htarget
  rcases code.marks_cases with ⟨-, hdangles⟩ | hmarks
  · apply exists_true_of_lt_keptEnd
    apply Nat.lt_of_not_le
    intro hle
    have hentry : (instr, true) ∈ code.zip code.marks := by
      apply List.mem_of_getElem?
      apply List.getElem?_zip_eq_some.mpr ⟨hinstr, hkept⟩
    have hfalse := List.any_eq_false.mp hdangles _ hentry
    rw [Option.mem_def] at htarget
    simp [htarget, hle] at hfalse
  · -- the last instruction is kept, whatever it is
    use code.length - 1, by omega
    rw [hmarks, List.getElem?_set_self]
    rw [List.length_map]
    omega

end Marks

/-! ### Passes -/

section Pass

variable {code : Code}

/-- There are as many instructions left as are kept. -/
theorem length_filterMap_zip (f : Instr → Instr) {code : List Instr} {marks : List Bool}
    (h : code.length = marks.length) :
  ((code.zip marks).filterMap fun entry => if entry.2 then some (f entry.1) else none).length
    = marks.count true
  := by
  induction marks generalizing code with
  | nil => simp
  | cons mark marks ih =>
      cases code with
      | nil => cases h
      | cons instr code =>
          have hrest := ih (Nat.succ.inj h)
          cases mark with
          | true => simp [hrest]
          | false => simp [hrest]

/-- An instruction that is kept is at its rank among those that are left. -/
theorem getElem?_filterMap_zip (f : Instr → Instr) {code : List Instr} {marks : List Bool}
    {i : Nat} {instr : Instr} (hinstr : code[i]? = some instr) (hkept : marks[i]? = some true) :
  ((code.zip marks).filterMap
    fun entry => if entry.2 then some (f entry.1) else none)[rank marks i]? = some (f instr)
  := by
  induction marks generalizing code i with
  | nil => cases hkept
  | cons mark marks ih =>
      cases code with
      | nil => cases hinstr
      | cons first code =>
          cases i with
          | zero =>
              cases hkept
              cases hinstr
              simp [rank]
          | succ i =>
              rw [List.getElem?_cons_succ] at hinstr hkept
              have hrest := ih hinstr hkept
              cases mark with
              | true => simpa [rank] using hrest
              | false => simpa [rank] using hrest

theorem length_pass (code : Code) :
  code.pass.length = code.marks.count true
  := by
  apply length_filterMap_zip _ code.length_marks.symm

/-- A pass moves the addresses of well numbered code to their ranks among what it keeps. -/
theorem WellNumbered.renumbers_pass (hcode : code.WellNumbered) :
  Renumbers code code.pass (code.marks[·]? = some true) (rank code.marks)
  := by
  have hfalse : ∀ i < code.length, ¬ code.marks[i]? = some true → code.marks[i]? = some false := by
    intro i hi hremoved
    rw [← code.length_marks] at hi
    rw [List.getElem?_eq_getElem hi] at hremoved ⊢
    simpa using hremoved
  constructor
  case place_zero => rfl
  case place_length => rw [length_pass, ← rank_length, length_marks]
  case place_succ =>
    intro i _ hkept
    apply rank_succ_of_true hkept
  case place_succ_of_removed =>
    intro i hi hremoved
    apply rank_succ_of_false (hfalse i hi hremoved)
  case getElem?_place =>
    intro i instr hinstr hkept
    refine ⟨_, getElem?_filterMap_zip _ hinstr hkept, ?_, rfl⟩
    rw [moved, (hcode i instr hinstr).1]
  case place_target_lt =>
    intro i instr hinstr hkept target htarget
    obtain ⟨j, hle, hj⟩ := hcode.exists_marks_of_target hinstr hkept htarget
    rw [length_pass]
    apply rank_lt_count hj hle
  case removed =>
    intro i instr hinstr hremoved
    have hi := (List.getElem?_eq_some_iff.mp hinstr).1
    have hmark := hfalse i hi hremoved
    rcases op_of_isSpare (isSpare_of_marks hinstr hmark) with hnoop | hjump
    · left
      apply hnoop
    · right
      rw [(hcode i instr hinstr).1] at hjump
      use i + 1, hjump, Nat.lt_succ_self i
      apply rank_succ_of_false hmark

theorem WellNumbered.exists_renumbers_settle (hcode : code.WellNumbered) (rounds : Nat) :
  ∃ kept place, Renumbers code (settle rounds code) kept place
  := by
  induction rounds generalizing code with
  | zero => exact ⟨_, _, .refl hcode⟩
  | succ rounds ih =>
      rw [settle]
      split
      · exact ⟨_, _, .refl hcode⟩
      · have hpass := hcode.renumbers_pass
        obtain ⟨kept, place, hsettle⟩ := ih hpass.wellNumbered
        exact ⟨_, _, hpass.trans hsettle⟩

/-- Compression renumbers well numbered code. -/
theorem WellNumbered.exists_renumbers_compact (hcode : code.WellNumbered) :
  ∃ kept place, Renumbers code code.compact kept place
  := by
  obtain ⟨kept, place, hsettle⟩ := hcode.exists_renumbers_settle code.length
  exact ⟨kept, place, hsettle.label _⟩

end Pass

/-! ### Machines over compressed code -/

section Compress

open Machine

variable {code : Code}

theorem WellNumbered.compress_eq (hcode : code.WellNumbered) :
  code.compress = .ok code.compact
  := by
  rw [compress, fault?_eq_none_iff.mpr hcode]

theorem WellNumbered.compact (hcode : code.WellNumbered) :
  code.compact.WellNumbered
  := by
  obtain ⟨kept, place, h⟩ := hcode.exists_renumbers_compact
  apply h.wellNumbered

theorem WellNumbered.alike_compact (hcode : code.WellNumbered) :
  Process.Alike.{0, 0, u} code.next code.compact.next 0 0
  := by
  obtain ⟨kept, place, h⟩ := hcode.exists_renumbers_compact
  apply h.alike hcode

/-- Well numbered code can be compressed, and the machines over the code and over what it is
compressed to have the same histories on every host: resume by resume they get the same results,
with the same calls. After the same history, a resume of one returns if one of the other does. -/
theorem WellNumbered.history_compress_iff (hcode : code.WellNumbered) :
  ∃ compressed table table', code.compress = .ok compressed
    ∧ code.partition = .ok table ∧ compressed.partition = .ok table'
    ∧ ∀ {σ : Type u} (host : Host σ) (s t : σ) (episodes : List Episode),
      ((∃ after, History host (ofTable table) s episodes after t)
        ↔ ∃ after, History host (ofTable table') s episodes after t)
      ∧ ∀ after after', History host (ofTable table) s episodes after t →
        History host (ofTable table') s episodes after' t →
        (after.Returns host t ↔ after'.Returns host t)
  := by
  have hcompact := hcode.compact
  have htwins := Twins.ofTable.{u} hcode hcompact hcode.alike_compact
  use code.compact, code.table, code.compact.table
  use hcode.compress_eq, hcode.partition_eq, hcompact.partition_eq
  intro σ host s t episodes
  constructor
  · constructor
    · rintro ⟨after, hhistory⟩
      obtain ⟨after', hhistory', -⟩ := htwins.history hhistory
      use after', hhistory'
    · rintro ⟨after, hhistory⟩
      obtain ⟨after', hhistory', -⟩ := htwins.symm.history hhistory
      use after', hhistory'
  · intro after after' hhistory hhistory'
    obtain ⟨after'', hhistory'', hafter⟩ := htwins.history hhistory
    obtain ⟨-, rfl, -⟩ := hhistory'.unique hhistory'' rfl
    constructor
    · apply hafter.returns
    · apply hafter.symm.returns

/-- Compression takes out an operation without effect and a jump, but not the jump to itself: both
machines suspend after the same calls. -/
theorem WellNumbered.history_compress_iff_self_jump :
  (ofOps [.action "a", .noop, .suspend, .jump 4, .jump 4]).WellNumbered
    ∧ ∃ compressed table',
      (ofOps [.action "a", .noop, .suspend, .jump 4, .jump 4]).compress = .ok compressed
      ∧ compressed.length = 3 ∧ compressed.partition = .ok table'
      ∧ ∀ (host : Host Nat) (s : Nat), ∃ after,
        History host (ofTable table') s [⟨.ok .suspended, [.performed "a", .suspended]⟩] after
          (host.suspend (host.perform "a" s))
  := by
  have hcode : (ofOps [.action "a", .noop, .suspend, .jump 4, .jump 4]).WellNumbered := by decide
  obtain ⟨compressed, table, table', hcompress, hpartition, hpartition', h⟩ :=
    history_compress_iff hcode
  refine ⟨hcode, compressed, table', hcompress, ?_, hpartition', ?_⟩
  · cases hcode.compress_eq.symm.trans hcompress
    decide
  · intro host s
    apply (h host s _ _).1.mp
    cases hcode.partition_eq.symm.trans hpartition
    have hresume : (ofTable (ofOps [.action "a", .noop, .suspend, .jump 4, .jump 4]).table).resume
        host.recorded 3 (s, #[])
        = some ⟨.ok .suspended, ⟨_, .ready 3⟩,
            (host.suspend (host.perform "a" s), #[.performed "a", .suspended])⟩ := rfl
    exact ⟨_, .cons hresume (.nil _ _)⟩

end Compress

end Code

end Resumable
