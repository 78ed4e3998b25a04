import Resumable.Proofs.Code.Compression
import Mathlib.Logic.Function.Iterate

/-!
# Compressed code

Code is compressed, `Code.IsCompressed`, when it has no operation without effect except for the
entry and for an end on which a jump lands, and no jump to the next address. A pass over well
numbered code removes something unless the code is compressed (`WellNumbered.isCompressed_iff`):
where the last instruction is kept for a jump that would dangle, there is another one to remove.

Every pass that removes something makes the code shorter, so passes come to an end
(`exists_settle_eq`), and they do with compressed code. Compressing code is repeating passes.
-/

namespace Resumable.Code

variable {code code' : Code} {instr : Instr} {i target : Nat}

/-! ### Spare instructions -/

/-- Nothing is left to remove from the code. -/
structure IsCompressed (code : Code) : Prop where
  /-- An operation without effect is the entry, or the end on which a jump lands. -/
  noop : ∀ (i : Nat) (instr : Instr), code[i]? = some instr → instr.op = .noop →
    i = 0 ∨ i + 1 = code.length ∧ i ∈ code.jumpTargets
  /-- No jump leads to the next address. -/
  jump : ∀ (i : Nat) (instr : Instr), code[i]? = some instr → instr.op ≠ .jump (i + 1)

theorem isSpare_iff (haddress : instr.address = i) :
  code.isSpare instr = true ↔ instr.op = .jump (i + 1)
    ∨ instr.op = .noop ∧ ¬ (i = 0 ∨ i + 1 = code.length ∧ i ∈ code.jumpTargets)
  := by
  unfold isSpare
  cases instr.op with
  | noop => simp [haddress, targets, imp_iff_not_or]
  | jump target => simp [haddress]
  | action text => simp
  | suspend => simp
  | jumpIf cond polarity target => simp

/-- Code is compressed if none of its instructions is spare. -/
theorem WellNumbered.isCompressed_iff_isSpare (hcode : code.WellNumbered) :
  code.IsCompressed
    ↔ ∀ (i : Nat) (instr : Instr), code[i]? = some instr → ¬ code.isSpare instr = true
  := by
  constructor
  · intro h i instr hinstr hspare
    rcases (isSpare_iff (hcode i instr hinstr).1).mp hspare with hjump | ⟨hnoop, hinner⟩
    · apply h.jump i instr hinstr hjump
    · apply hinner (h.noop i instr hinstr hnoop)
  · intro h
    constructor
    · intro i instr hinstr hnoop
      by_contra hinner
      apply h i instr hinstr
      apply (isSpare_iff (hcode i instr hinstr).1).mpr (.inr ⟨hnoop, hinner⟩)
    · intro i instr hinstr hjump
      apply h i instr hinstr
      apply (isSpare_iff (hcode i instr hinstr).1).mpr (.inl hjump)

theorem lt_keptEnd {marks : List Bool} (h : marks[i]? = some true) :
  i < keptEnd marks
  := by
  induction marks using List.reverseRecOn with
  | nil => cases h
  | append_singleton marks mark ih =>
      have hi := (List.getElem?_eq_some_iff.mp h).1
      rw [List.length_append, List.length_singleton] at hi
      cases mark with
      | true =>
          rw [keptEnd_concat_true]
          apply hi
      | false =>
          rw [keptEnd_concat_false]
          apply ih
          rcases Nat.lt_or_eq_of_le (Nat.le_of_lt_succ hi) with hlt | rfl
          · rw [← h, List.getElem?_append_left hlt]
          · rw [List.getElem?_concat_length] at h
            cases h

theorem getElem?_map_isSpare (h : code[i]? = some instr) :
  (code.map fun instr => !code.isSpare instr)[i]? = some !code.isSpare instr
  := by
  rw [List.getElem?_map, h]
  rfl

/-- A jump that would dangle leads to a spare instruction, which is not the last one. -/
theorem WellNumbered.exists_isSpare_of_dangles (hcode : code.WellNumbered)
    (h : code.dangles (code.map fun instr => !code.isSpare instr) = true) :
  ∃ (i : Nat) (instr : Instr), code[i]? = some instr ∧ code.isSpare instr = true
    ∧ i ≠ code.length - 1
  := by
  obtain ⟨⟨source, mark⟩, hentry, hmark⟩ := List.any_eq_true.mp h
  obtain ⟨-, htarget⟩ := Bool.and_eq_true_iff.mp hmark
  obtain ⟨target, htarget, hend⟩ := (Option.any_eq_true _ _).mp htarget
  have hsource := (List.of_mem_zip hentry).1
  obtain ⟨j, hj⟩ := List.mem_iff_getElem?.mp hsource
  have hlt := (hcode j source hj).2 target htarget
  obtain ⟨instr, hinstr⟩ : ∃ instr, code[target]? = some instr := ⟨_, List.getElem?_eq_getElem hlt⟩
  -- a target behind the kept instructions is not one of them
  have hspare : code.isSpare instr = true := by
    by_contra hkept
    have hmarked : (code.map fun instr => !code.isSpare instr)[target]? = some true := by
      rw [getElem?_map_isSpare hinstr]
      simpa using hkept
    have := lt_keptEnd hmarked
    have := of_decide_eq_true hend
    omega
  refine ⟨target, instr, hinstr, hspare, ?_⟩
  intro hlast
  rcases (isSpare_iff (hcode target _ hinstr).1).mp hspare with hjump | ⟨-, hinner⟩
  · -- the last instruction cannot jump to the next address
    have := (hcode target _ hinstr).2 (target + 1) (congrArg Op.target? hjump)
    omega
  · apply hinner
    right
    constructor
    · omega
    · apply List.mem_filterMap.mpr ⟨source, hsource, htarget⟩

/-- A pass has something to remove unless the code is compressed. -/
theorem WellNumbered.isCompressed_iff (hcode : code.WellNumbered) :
  code.IsCompressed ↔ false ∉ code.marks
  := by
  rw [hcode.isCompressed_iff_isSpare]
  constructor
  · intro h hmem
    obtain ⟨i, hi⟩ := List.mem_iff_getElem?.mp hmem
    have hlt := (List.getElem?_eq_some_iff.mp hi).1
    rw [length_marks] at hlt
    have hinstr : code[i]? = some code[i] := List.getElem?_eq_getElem hlt
    apply h i _ hinstr (isSpare_of_marks hinstr hi)
  · intro h i instr hinstr hspare
    apply h
    by_cases hdangles : code.dangles (code.map fun instr => !code.isSpare instr) = true
    · obtain ⟨j, other, hother, hspare', hne⟩ := hcode.exists_isSpare_of_dangles hdangles
      apply List.mem_of_getElem? (i := j)
      rw [marks, if_pos hdangles, List.getElem?_set_ne hne.symm, getElem?_map_isSpare hother,
        hspare']
      rfl
    · apply List.mem_of_getElem? (i := i)
      rw [marks, if_neg hdangles, getElem?_map_isSpare hinstr, hspare]
      rfl

/-! ### Repeated passes -/

/-- A pass that removes something makes the code shorter. -/
theorem length_pass_lt (h : false ∈ code.marks) :
  code.pass.length < code.length
  := by
  rw [length_pass, ← length_marks]
  apply Nat.lt_of_le_of_ne List.count_le_length
  intro hall
  cases List.count_eq_length.mp hall false h

/-- Passes are made as long as they remove something, and no longer. -/
theorem exists_settle_eq {rounds : Nat} (h : code.length ≤ rounds) :
  ∃ n, settle rounds code = pass^[n] code ∧ (∀ k < n, false ∈ (pass^[k] code).marks)
    ∧ false ∉ (pass^[n] code).marks
  := by
  induction rounds generalizing code with
  | zero =>
      obtain rfl := List.eq_nil_of_length_eq_zero (Nat.le_zero.mp h)
      use 0, rfl, by simp
      simp [marks, dangles]
  | succ rounds ih =>
      rw [settle]
      split
      · next hall =>
        use 0, rfl, by simp
        intro hmem
        cases List.all_eq_true.mp hall false hmem
      · next hall =>
        have hremoves : false ∈ code.marks := by simpa using hall
        have hlt := length_pass_lt hremoves
        have hfits : code.pass.length ≤ rounds := by omega
        obtain ⟨n, hsettle, hpasses, hlast⟩ := ih hfits
        use n + 1, hsettle
        constructor
        · rintro (_ | k) hk
          · apply hremoves
          · apply hpasses k (by omega)
        · apply hlast

theorem WellNumbered.iterate_pass (hcode : code.WellNumbered) (n : Nat) :
  (pass^[n] code).WellNumbered
  := by
  induction n with
  | zero => apply hcode
  | succ n ih =>
      rw [Function.iterate_succ_apply']
      apply ih.renumbers_pass.wellNumbered

/-! ### Compression -/

theorem jumpTargets_eq (h : code.entries = code'.entries) :
  code.jumpTargets = code'.jumpTargets
  := by
  have hentries (code : Code) :
      code.jumpTargets = code.entries.filterMap fun entry => entry.2.target? := by
    rw [entries, List.filterMap_map]
    rfl
  rw [hentries, h, hentries]

/-- Whether code is compressed does not depend on its labels. -/
theorem IsCompressed.of_entries_eq (hcode : code.IsCompressed) (h : code.entries = code'.entries) :
  code'.IsCompressed
  := by
  have hlength : code.length = code'.length := by
    simpa [entries] using congrArg List.length h
  constructor
  · intro i instr' hinstr' hnoop
    obtain ⟨instr, hinstr, -, heq⟩ := exists_getElem?_of_entries_eq h hinstr'
    rw [← hlength, ← jumpTargets_eq h]
    apply hcode.noop i instr hinstr (heq.trans hnoop)
  · intro i instr' hinstr' hjump
    obtain ⟨instr, hinstr, -, heq⟩ := exists_getElem?_of_entries_eq h hinstr'
    apply hcode.jump i instr hinstr (heq.trans hjump)

theorem WellNumbered.isCompressed_settle (hcode : code.WellNumbered) :
  (settle code.length code).IsCompressed
  := by
  obtain ⟨n, hsettle, -, hlast⟩ := exists_settle_eq (Nat.le_refl code.length)
  rw [hsettle]
  apply (hcode.iterate_pass n).isCompressed_iff.mpr hlast

theorem WellNumbered.settle_eq_of_isCompressed (hcode : code.WellNumbered) (h : code.IsCompressed)
    (rounds : Nat) :
  settle rounds code = code
  := by
  cases rounds with
  | zero => rfl
  | succ rounds =>
      have hall : code.marks.all id = true := by
        simpa using hcode.isCompressed_iff.mp h
      rw [settle, if_pos hall]

theorem entries_compact (code : Code) :
  code.compact.entries = (settle code.length code).entries
  := by
  rw [compact, entries_label]

theorem WellNumbered.isCompressed_compact (hcode : code.WellNumbered) :
  code.compact.IsCompressed
  := by
  apply hcode.isCompressed_settle.of_entries_eq
  rw [entries_compact]

/-- In compressed code, an instruction is labelled if a jump leads to it. -/
theorem WellNumbered.labelled_compact_iff (hcode : code.WellNumbered)
    (hinstr : code.compact[i]? = some instr) :
  instr.labelled = true ↔ i ∈ code.compact.jumpTargets
  := by
  have haddress := (hcode.compact i instr hinstr).1
  rw [jumpTargets_eq code.entries_compact, ← haddress]
  rw [Code.compact, getElem?_label] at hinstr
  obtain ⟨other, -, rfl⟩ := Option.map_eq_some_iff.mp hinstr
  simp [targets]

/-- Compressed code stays as it is, with its labels. -/
theorem WellNumbered.compact_compact (hcode : code.WellNumbered) :
  code.compact.compact = code.compact
  := by
  have hsettle := hcode.compact.settle_eq_of_isCompressed hcode.isCompressed_compact
  have htargets : code.compact.targets = (settle code.length code).targets :=
    congrArg Addresses.ofList (jumpTargets_eq code.entries_compact)
  calc code.compact.compact
    _ = code.compact.label code.compact.targets := by
      rw [Code.compact.eq_def code.compact, hsettle]
    _ = ((settle code.length code).label code.compact.targets).label code.compact.targets := by
      rw [htargets]
      rfl
    _ = (settle code.length code).label code.compact.targets := List.map_map
    _ = code.compact := by
      rw [htargets]
      rfl

theorem compress_error_iff :
  (∃ fault, code.compress = .error fault) ↔ ¬ code.WellNumbered
  := by
  rw [← fault?_eq_none_iff, compress]
  cases code.fault? with
  | none => simp
  | some fault => simp

/-- Compressing fails just if an instruction is not numbered by its position or jumps to an address
that the code does not have. If not, a pass that removes something only looks up addresses of the
code it is made over, and leaves shorter code that is well numbered again. Passes are made until
there is nothing to remove; what is left then is the result, with labels where jumps lead to. -/
theorem compress_settles (code : Code) :
  ((∃ fault, code.compress = .error fault)
    ↔ ∃ (i : Nat) (instr : Instr), code[i]? = some instr
      ∧ (instr.address ≠ i ∨ ∃ target ∈ instr.op.target?, code.length ≤ target))
  ∧ (code.WellNumbered →
    (∀ k, false ∈ (pass^[k] code).marks →
      (∀ instr ∈ pass^[k] code, instr.address < (pass^[k] code).marks.length
        ∧ ∀ target ∈ instr.op.target?, target < (pass^[k] code).marks.length)
      ∧ (pass^[k + 1] code).length < (pass^[k] code).length
      ∧ (pass^[k + 1] code).WellNumbered)
    ∧ ∃ rounds result, (∀ k < rounds, false ∈ (pass^[k] code).marks)
      ∧ false ∉ (pass^[rounds] code).marks
      ∧ code.compress = .ok result ∧ result.entries = (pass^[rounds] code).entries
      ∧ result.WellNumbered
      ∧ ∀ (i : Nat) (instr : Instr), result[i]? = some instr →
        (instr.labelled = true ↔ ∃ other ∈ result, other.op.target? = some i))
  := by
  constructor
  · rw [compress_error_iff, not_wellNumbered_iff]
  intro hcode
  constructor
  · intro k hremoves
    have hbefore := hcode.iterate_pass k
    refine ⟨?_, ?_, hcode.iterate_pass (k + 1)⟩
    · intro instr hmem
      obtain ⟨i, hi⟩ := List.mem_iff_getElem?.mp hmem
      obtain ⟨haddress, htarget⟩ := hbefore i instr hi
      rw [length_marks, haddress]
      exact ⟨(List.getElem?_eq_some_iff.mp hi).1, htarget⟩
    · rw [Function.iterate_succ_apply']
      apply length_pass_lt hremoves
  · obtain ⟨rounds, hsettle, hpasses, hlast⟩ := exists_settle_eq (Nat.le_refl code.length)
    refine ⟨rounds, code.compact, hpasses, hlast, hcode.compress_eq, ?_, hcode.compact, ?_⟩
    · rw [entries_compact, hsettle]
    · intro i instr hinstr
      rw [hcode.labelled_compact_iff hinstr, jumpTargets, List.mem_filterMap]

/-- A jump leads to an operation that goes, so the last one is kept for it. -/
theorem compress_settles_dangling :
  let code := ofOps [.action "a", .jumpIf "c" .onTrue 2, .noop, .noop]
  code.WellNumbered ∧ code.marks = [true, true, false, true]
    ∧ code.pass.length < code.length ∧ code.pass.WellNumbered
    ∧ ∃ result, code.compress = .ok result
      ∧ result = [⟨0, .action "a", false⟩, ⟨1, .jumpIf "c" .onTrue 2, false⟩, ⟨2, .noop, true⟩]
      ∧ result.WellNumbered
  := by
  intro code
  have hcode : code.WellNumbered := by decide
  have hmarks : code.marks = [true, true, false, true] := by decide
  obtain ⟨hpass, rounds, result, -, -, hcompress, -, hresult, -⟩ := (compress_settles code).2 hcode
  have hremoves : false ∈ (pass^[0] code).marks := by
    rw [Function.iterate_zero_apply, hmarks]
    decide
  obtain ⟨-, hshorter, hnumbered⟩ := hpass 0 hremoves
  refine ⟨hcode, hmarks, hshorter, hnumbered, result, hcompress, ?_, hresult⟩
  have heq : result = code.compact := Except.ok.inj (hcompress.symm.trans hcode.compress_eq)
  rw [heq]
  decide

/-- Well numbered code is compressed to code from which nothing can be removed, and code from which
nothing can be removed stays as it is, up to its labels. So compressing it once more changes
nothing at all. -/
theorem WellNumbered.compress_isCompressed (hcode : code.WellNumbered) :
  ∃ result, code.compress = .ok result ∧ result.IsCompressed
    ∧ (result.entries = code.entries ↔ code.IsCompressed)
    ∧ result.compress = .ok result
  := by
  refine ⟨code.compact, hcode.compress_eq, hcode.isCompressed_compact, ?_, ?_⟩
  · constructor
    · apply hcode.isCompressed_compact.of_entries_eq
    · intro h
      rw [entries_compact, hcode.settle_eq_of_isCompressed h]
  · rw [hcode.compact.compress_eq, hcode.compact_compact]

/-- The jump leads to the next address only after the operation behind it is gone. -/
theorem WellNumbered.compress_isCompressed_exposed :
  let code := ofOps [.jumpIf "c" .onTrue 3, .jump 3, .noop, .noop]
  code.WellNumbered ∧ ∃ result, code.compress = .ok result
    ∧ result.entries = [(0, .jumpIf "c" .onTrue 1), (1, .noop)]
    ∧ result.IsCompressed ∧ ¬ code.IsCompressed ∧ result.compress = .ok result
  := by
  intro code
  have hcode : code.WellNumbered := by decide
  obtain ⟨result, hcompress, hresult, hfixed, hagain⟩ := compress_isCompressed hcode
  have hentries : result.entries = [(0, .jumpIf "c" .onTrue 1), (1, .noop)] := by
    have heq : result = code.compact := Except.ok.inj (hcompress.symm.trans hcode.compress_eq)
    rw [heq]
    decide
  refine ⟨hcode, result, hcompress, hentries, hresult, ?_, hagain⟩
  rw [← hfixed, hentries]
  decide

end Resumable.Code
