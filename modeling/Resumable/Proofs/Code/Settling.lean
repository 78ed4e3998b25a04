import Resumable.Proofs.Code.Effects
import Resumable.Proofs.Code.Loops

/-!
# Code that settles at once

Code settles at once, `Code.SettlesAtOnce`, if all that compression removes from it are the
operations without effect in front of its end, and the first pass removes them all: no jump leads to
the next address, and none does when they are gone (`SettlesAtOnce.isCompressed_pass`), because each
jump forward leads over an instruction that stays. So compressing such code takes one pass
(`SettlesAtOnce.entries_compact`).
-/

namespace Resumable

namespace Placement

/-- Jumps lead back, or forward over an operation which is not one without effect. -/
def LeapsForward (placed : Placement) : Prop :=
  ∀ i target, placed i (.jump target) →
    target ≤ i ∨ i + 2 ≤ target ∧ ∃ op, placed (i + 1) op ∧ op ≠ .noop

end Placement

theorem Op.retarget_eq_self {f : Nat → Nat} {op : Op}
    (h : ∀ target ∈ op.target?, f target = target) :
  op.retarget f = op
  := by
  cases op with
  | jumpIf cond polarity target => rw [retarget, h target rfl]
  | jump target => rw [retarget, h target rfl]
  | _ => rfl

theorem Op.retarget_eq_noop_iff {f : Nat → Nat} {op : Op} :
  op.retarget f = .noop ↔ op = .noop
  := by
  constructor
  · apply eq_noop_of_retarget
  · rintro rfl
    rfl

namespace Code

variable {code code' : Code} {kept kept' : Nat → Prop} {place : Nat → Nat} {instr : Instr} {i : Nat}

/-- The operation at the address has an effect or leads somewhere, or is the last one. -/
def Stays (code : Code) (i : Nat) : Prop :=
  code.placement i .noop → i + 1 = code.length

/-- Only operations without effect are spare, and no jump is when they are gone. -/
structure SettlesAtOnce (code : Code) : Prop where
  entry : ¬ code.placement 0 .noop
  /-- A jump lands on the last instruction if it is without effect. -/
  last : ∀ i, code.placement i .noop → i + 1 = code.length → i ∈ code.jumpTargets
  jump : code.placement.LeapsForward

theorem placement_iff {op : Op} (hinstr : code[i]? = some instr) :
  code.placement i op ↔ instr.op = op
  := by
  constructor
  · rintro ⟨other, hother, rfl⟩
    rw [hinstr] at hother
    cases hother
    rfl
  · intro hop
    use instr, hinstr, hop

theorem mem_jumpTargets_iff {target : Nat} :
  target ∈ code.jumpTargets ↔ ∃ i op, code.placement i op ∧ op.target? = some target
  := by
  rw [jumpTargets, List.mem_filterMap]
  constructor
  · rintro ⟨instr, hmem, htarget⟩
    obtain ⟨i, hi⟩ := List.mem_iff_getElem?.mp hmem
    exact ⟨i, instr.op, ⟨instr, hi, rfl⟩, htarget⟩
  · rintro ⟨i, _, ⟨instr, hinstr, rfl⟩, htarget⟩
    exact ⟨instr, List.mem_of_getElem? hinstr, htarget⟩

namespace Renumbers

/-- Which positions behind the end are kept does not matter. -/
theorem of_kept_iff (h : Renumbers code code' kept place)
    (hkept : ∀ i < code.length, kept i ↔ kept' i) :
  Renumbers code code' kept' place
  where
  place_zero := h.place_zero
  place_length := h.place_length
  place_succ i hi hi' := h.place_succ i hi ((hkept i hi).mpr hi')
  place_succ_of_removed i hi hi' := h.place_succ_of_removed i hi (mt (hkept i hi).mp hi')
  getElem?_place i instr hinstr hi :=
    h.getElem?_place i instr hinstr ((hkept i (List.getElem?_eq_some_iff.mp hinstr).1).mpr hi)
  place_target_lt i instr hinstr hi :=
    h.place_target_lt i instr hinstr ((hkept i (List.getElem?_eq_some_iff.mp hinstr).1).mpr hi)
  removed i instr hinstr hi :=
    h.removed i instr hinstr (mt (hkept i (List.getElem?_eq_some_iff.mp hinstr).1).mp hi)

/-- The labels of the renumbered code do not matter. -/
theorem of_entries_eq {code'' : Code} (h : Renumbers code code' kept place)
    (heq : code'.entries = code''.entries) :
  Renumbers code code'' kept place
  := by
  have hlength : code'.length = code''.length := by
    simpa [entries] using congrArg List.length heq
  constructor
  case place_zero => apply h.place_zero
  case place_length => rw [h.place_length, hlength]
  case place_succ => apply h.place_succ
  case place_succ_of_removed => apply h.place_succ_of_removed
  case getElem?_place =>
    intro i instr hinstr hkept
    obtain ⟨instr', hinstr', haddress, hop⟩ := h.getElem?_place i instr hinstr hkept
    obtain ⟨instr'', hinstr'', haddress', hop'⟩ := exists_getElem?_of_entries_eq heq.symm hinstr'
    exact ⟨instr'', hinstr'', haddress'.trans haddress, hop'.trans hop⟩
  case place_target_lt =>
    rw [← hlength]
    apply h.place_target_lt
  case removed => apply h.removed

theorem place_eq_self (h : Renumbers code code' kept place) (hkept : ∀ i < code.length, kept i)
    (hi : i ≤ code.length) :
  place i = i
  := by
  induction i with
  | zero => apply h.place_zero
  | succ i ih => rw [h.place_succ i hi (hkept i hi), ih (Nat.le_of_lt hi)]

/-- If all instructions are kept, they stay as they are, up to their labels. -/
theorem entries_eq (h : Renumbers code code' kept place) (hcode : code.WellNumbered)
    (hkept : ∀ i < code.length, kept i) :
  code'.entries = code.entries
  := by
  have hlength : code'.length = code.length := by
    rw [← h.place_length, h.place_eq_self hkept (Nat.le_refl _)]
  apply List.ext_getElem?
  intro i
  rw [entries, entries, List.getElem?_map, List.getElem?_map]
  by_cases hi : i < code.length
  · have hinstr := List.getElem?_eq_getElem hi
    obtain ⟨haddress, htarget⟩ := hcode i _ hinstr
    obtain ⟨instr', hinstr', haddress', hop⟩ := h.getElem?_place i _ hinstr (hkept i hi)
    rw [h.place_eq_self hkept (Nat.le_of_lt hi)] at hinstr' haddress'
    rw [Op.retarget_eq_self fun target hmem =>
      h.place_eq_self hkept (Nat.le_of_lt (htarget target hmem))] at hop
    rw [hinstr, hinstr', Option.map_some, Option.map_some, haddress, haddress', hop]
  · rw [List.getElem?_eq_none (Nat.le_of_not_lt hi),
      List.getElem?_eq_none (hlength ▸ Nat.le_of_not_lt hi)]

end Renumbers

namespace SettlesAtOnce

/-- An instruction is spare just if it does not stay. -/
theorem isSpare_iff (h : code.SettlesAtOnce) (hcode : code.WellNumbered)
    (hinstr : code[i]? = some instr) :
  code.isSpare instr = true ↔ ¬ code.Stays i
  := by
  rw [Code.isSpare_iff (hcode i instr hinstr).1, Stays, Classical.not_imp, placement_iff hinstr]
  constructor
  · rintro (hjump | ⟨hnoop, hinner⟩)
    · have := h.jump i (i + 1) ((placement_iff hinstr).mpr hjump)
      omega
    · use hnoop
      intro hlast
      apply hinner
      right
      use hlast
      apply h.last i ((placement_iff hinstr).mpr hnoop) hlast
  · rintro ⟨hnoop, hne⟩
    right
    use hnoop
    rintro (rfl | ⟨hlast, -⟩)
    · apply h.entry ((placement_iff hinstr).mpr hnoop)
    · apply hne hlast

/-- The last instruction stays, so no jump can dangle. -/
theorem marks_eq (h : code.SettlesAtOnce) (hcode : code.WellNumbered) :
  code.marks = code.map fun instr => !code.isSpare instr
  := by
  apply if_neg
  intro hdangles
  obtain ⟨⟨instr, mark⟩, hentry, hmark⟩ := List.any_eq_true.mp hdangles
  obtain ⟨-, htarget⟩ := Bool.and_eq_true_iff.mp hmark
  obtain ⟨target, htarget, hend⟩ := (Option.any_eq_true _ _).mp htarget
  obtain ⟨i, hi⟩ := List.mem_iff_getElem?.mp (List.of_mem_zip hentry).1
  have hlt := (hcode i instr hi).2 target htarget
  have hlast : code[code.length - 1]? = some (code[code.length - 1]) :=
    List.getElem?_eq_getElem (by omega)
  have hstays : ¬ code.isSpare code[code.length - 1] = true := by
    rw [h.isSpare_iff hcode hlast, not_not]
    intro _
    omega
  have hkept : (code.map fun instr => !code.isSpare instr)[code.length - 1]? = some true := by
    rw [getElem?_map_isSpare hlast]
    simpa using hstays
  have := lt_keptEnd hkept
  have := of_decide_eq_true hend
  omega

theorem marks_iff (h : code.SettlesAtOnce) (hcode : code.WellNumbered) (hi : i < code.length) :
  code.marks[i]? = some true ↔ code.Stays i
  := by
  have hinstr := List.getElem?_eq_getElem hi
  rw [h.marks_eq hcode, getElem?_map_isSpare hinstr, ← not_not (a := code.Stays i),
    ← h.isSpare_iff hcode hinstr]
  simp

/-- A pass keeps what stays. -/
theorem renumbers_pass (h : code.SettlesAtOnce) (hcode : code.WellNumbered) :
  Renumbers code code.pass code.Stays (rank code.marks)
  := hcode.renumbers_pass.of_kept_iff fun _ => h.marks_iff hcode

end SettlesAtOnce

theorem stays_of_placement {op : Op} (hop : code.placement i op) (hne : op ≠ .noop) :
  code.Stays i
  := by
  obtain ⟨instr, hinstr, rfl⟩ := hop
  intro hnoop
  exact absurd ((placement_iff hinstr).mp hnoop) hne

namespace Renumbers

/-- What is left without effect is the last instruction, and it is one on which a jump lands if it
was one before. -/
theorem noop_of_stays (h : Renumbers code code' code.Stays place) (hsettles : code.SettlesAtOnce)
    {j : Nat} (hnoop : code'.placement j .noop) :
  j + 1 = code'.length ∧ j ∈ code'.jumpTargets
  := by
  obtain ⟨i, op, hop, hstays, rfl, heq⟩ := h.exists_placement hnoop
  obtain rfl := Op.eq_noop_of_retarget heq.symm
  have hlast := hstays hop
  constructor
  · rw [← h.place_succ i (lt_length_of_placement hop) hstays, hlast, h.place_length]
  · obtain ⟨k, source, hsource, htarget⟩ := mem_jumpTargets_iff.mp (hsettles.last i hop hlast)
    have hne : source ≠ .noop := by
      rintro rfl
      cases htarget
    have hplaced := h.placement_place hsource (stays_of_placement hsource hne)
    refine mem_jumpTargets_iff.mpr ⟨_, _, hplaced, ?_⟩
    rw [Op.target?_retarget, htarget]
    rfl

/-- No jump leads to the next address when only operations without effect are gone. -/
theorem jump_ne_of_stays (h : Renumbers code code' code.Stays place)
    (hcode : code.WellNumbered) (hsettles : code.SettlesAtOnce) {j : Nat} :
  ¬ code'.placement j (.jump (j + 1))
  := by
  intro hjump
  obtain ⟨i, op, hop, hstays, rfl, heq⟩ := h.exists_placement hjump
  obtain ⟨target, rfl, htarget⟩ := Op.exists_eq_jump_of_retarget heq.symm
  have hi := lt_length_of_placement hop
  have hlt := hcode.target_lt hop rfl
  rcases hsettles.jump i target hop with hback | ⟨hleap, next, hnext, hne⟩
  · have := h.place_mono hback (Nat.le_of_lt hi)
    omega
  · -- the jump and the instruction that it leads over both stay
    have hsucc := h.place_succ i hi hstays
    have hsucc' := h.place_succ (i + 1) (by omega) (stays_of_placement hnext hne)
    have hleap' : place (i + 1 + 1) ≤ place target := h.place_mono hleap (Nat.le_of_lt hlt)
    omega

/-- Only operations without effect change the length. -/
theorem length_add_count (h : Renumbers code code' code.Stays place) :
  code'.length + (code.map Instr.op).count .noop = code.length + (code'.map Instr.op).count .noop
  := by
  have hothers : (code'.map Instr.op).countP (fun op => ¬ (op == .noop))
      = (code.map Instr.op).countP fun op => ¬ (op == .noop) := by
    apply h.countP_op
    · intro op
      simp only [beq_iff_eq, Op.retarget_eq_noop_iff]
    · intro i instr hinstr hremoved
      have hnoop := (Classical.not_imp.mp hremoved).1
      rw [(placement_iff hinstr).mp hnoop]
      rfl
  have hlength (code : Code) : code.length = (code.map Instr.op).count .noop
      + (code.map Instr.op).countP fun op => ¬ (op == .noop) := by
    rw [← List.length_map Instr.op, List.length_eq_countP_add_countP (· == .noop), List.count]
  rw [hlength code, hlength code', hothers]
  omega

end Renumbers

namespace SettlesAtOnce

/-- After one pass nothing is left to remove. -/
theorem isCompressed_pass (h : code.SettlesAtOnce) (hcode : code.WellNumbered) :
  code.pass.IsCompressed
  := by
  have hpass := h.renumbers_pass hcode
  constructor
  · intro i instr hinstr hnoop
    right
    apply hpass.noop_of_stays h ⟨instr, hinstr, hnoop⟩
  · intro i instr hinstr hjump
    apply hpass.jump_ne_of_stays hcode h ⟨instr, hinstr, hjump⟩

/-- Compressing takes one pass. -/
theorem entries_compact (h : code.SettlesAtOnce) (hcode : code.WellNumbered) :
  code.compact.entries = code.pass.entries
  := by
  have hpass := (hcode.iterate_pass 1).isCompressed_iff.mp (h.isCompressed_pass hcode)
  obtain ⟨n, hsettle, hremoves, hlast⟩ := exists_settle_eq (Nat.le_refl code.length)
  rw [Code.entries_compact, hsettle]
  have hn : n ≤ 1 := by
    apply Nat.le_of_not_lt
    intro hlt
    exact hpass (hremoves 1 hlt)
  obtain rfl | rfl : n = 0 ∨ n = 1 := by omega
  · symm
    apply hcode.renumbers_pass.entries_eq hcode
    intro i hi
    rw [← length_marks] at hi
    rw [List.getElem?_eq_getElem hi, Option.some_inj, ← Bool.not_eq_false]
    intro hfalse
    apply hlast
    rw [Function.iterate_zero_apply, ← hfalse]
    apply List.getElem_mem
  · rfl

theorem renumbers_compact (h : code.SettlesAtOnce) (hcode : code.WellNumbered) :
  Renumbers code code.compact code.Stays (rank code.marks)
  := (h.renumbers_pass hcode).of_entries_eq (h.entries_compact hcode).symm

end SettlesAtOnce

/-- There is one operation without effect, if it is the last one. -/
theorem count_noop_of_last (hnoop : code.placement i .noop)
    (hlast : ∀ j, code.placement j .noop → j + 1 = code.length) :
  (code.map Instr.op).count .noop = 1
  := by
  obtain ⟨instr, hinstr, hop⟩ := hnoop
  have hi := hlast i ⟨instr, hinstr, hop⟩
  obtain rfl | ⟨init, last, rfl⟩ := List.eq_nil_or_concat code
  · cases hinstr
  rw [List.concat_eq_append] at *
  have hinit : .noop ∉ init.map Instr.op := by
    intro hmem
    obtain ⟨other, hother, hop'⟩ := List.mem_map.mp hmem
    obtain ⟨j, hj⟩ := List.mem_iff_getElem?.mp hother
    have hlt := (List.getElem?_eq_some_iff.mp hj).1
    have hend := hlast j ⟨other, by rw [List.getElem?_append_left hlt, hj], hop'⟩
    rw [List.length_append, List.length_singleton] at hend
    omega
  rw [List.length_append, List.length_singleton, Nat.succ_inj] at hi
  rw [hi, List.getElem?_concat_length] at hinstr
  cases hinstr
  rw [List.map_append, List.count_append, List.count_eq_zero_of_not_mem hinit, List.map_singleton,
    hop]
  rfl

end Code

end Resumable
