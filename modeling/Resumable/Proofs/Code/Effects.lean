import Resumable.Proofs.Code.NormalForm

/-!
# Effects of compressed code

Renumbering takes out instructions, and what is left stays in order. So whatever is read off the
operations one by one, without looking at targets, stays the same if the removed instructions do not
count (`Renumbers.filterMap_op`). The effects of code, `Code.effects`, are all that its instructions
do but for leading somewhere. Compression keeps them.
-/

namespace Resumable

/-- What an operation does, apart from where it leads. -/
inductive Effect where
  /-- An action is performed. -/
  | action (text : String)
  /-- The run is suspended. -/
  | suspend
  /-- A condition decides whether a jump is taken. -/
  | test (cond : String) (polarity : Polarity)
deriving DecidableEq, Repr

/-- The effect of an operation, if it has one. -/
def Op.effect? : Op → Option Effect
  | action text => some (.action text)
  | suspend => some .suspend
  | jumpIf cond polarity _ => some (.test cond polarity)
  | noop | jump _ => none

@[simp]
theorem Op.effect?_retarget (f : Nat → Nat) (op : Op) :
  (op.retarget f).effect? = op.effect?
  := by
  cases op <;> rfl

namespace Code

/-- The effects of the instructions, in their order. -/
def effects (code : Code) : List Effect :=
  code.filterMap fun instr => instr.op.effect?

variable {code code' : Code} {kept : Nat → Prop} {place : Nat → Nat} {β : Type}

namespace Renumbers

/-- What is read off the operations up to an address is read off those up to its place. -/
theorem filterMap_op_take (h : Renumbers code code' kept place) {g : Op → Option β}
    (hg : ∀ op, g (op.retarget place) = g op)
    (hremoved : ∀ i instr, code[i]? = some instr → ¬ kept i → g instr.op = none) {n : Nat}
    (hn : n ≤ code.length) :
  (code'.take (place n)).filterMap (fun instr => g instr.op)
    = (code.take n).filterMap fun instr => g instr.op
  := by
  induction n with
  | zero => rw [h.place_zero, List.take_zero, List.take_zero]
  | succ n ih =>
      have hearlier := ih (Nat.le_of_lt hn)
      have hinstr := List.getElem?_eq_getElem hn
      rw [List.take_add_one, hinstr, List.filterMap_append, ← hearlier]
      by_cases hkept : kept n
      · obtain ⟨instr', hinstr', -, hop⟩ := h.getElem?_place n _ hinstr hkept
        rw [h.place_succ n hn hkept, List.take_add_one, hinstr', List.filterMap_append]
        simp only [Option.toList_some, List.filterMap_cons, hop, hg]
      · rw [h.place_succ_of_removed n hn hkept]
        simp [hremoved n _ hinstr hkept]

theorem filterMap_op (h : Renumbers code code' kept place) {g : Op → Option β}
    (hg : ∀ op, g (op.retarget place) = g op)
    (hremoved : ∀ i instr, code[i]? = some instr → ¬ kept i → g instr.op = none) :
  code'.filterMap (fun instr => g instr.op) = code.filterMap fun instr => g instr.op
  := by
  have htake := h.filterMap_op_take hg hremoved (Nat.le_refl code.length)
  rw [h.place_length, List.take_length, List.take_length] at htake
  apply htake

theorem countP_op (h : Renumbers code code' kept place) {p : Op → Bool}
    (hp : ∀ op, p (op.retarget place) = p op)
    (hremoved : ∀ i instr, code[i]? = some instr → ¬ kept i → p instr.op = false) :
  (code'.map Instr.op).countP p = (code.map Instr.op).countP p
  := by
  have hcount (code : Code) : (code.map Instr.op).countP p
      = (code.filterMap fun instr => if p instr.op then some () else none).length := by
    rw [List.countP_map, List.length_filterMap_eq_countP]
    congr 1
    funext instr
    cases hop : p instr.op <;> simp [hop]
  have hsame := h.filterMap_op (g := fun op => if p op then some () else none)
    (fun op => by rw [hp]) (fun i instr hinstr hi => by rw [hremoved i instr hinstr hi]; rfl)
  rw [hcount, hcount, hsame]

/-- Nothing with an effect is removed. -/
theorem effects_eq (h : Renumbers code code' kept place) :
  code'.effects = code.effects
  := by
  apply h.filterMap_op (Op.effect?_retarget place)
  intro i instr hinstr hremoved
  rcases h.removed i instr hinstr hremoved with hnoop | ⟨target, hjump, -, -⟩
  · rw [hnoop]
    rfl
  · rw [hjump]
    rfl

end Renumbers

/-- What well numbered code is compressed to is the code without some operations that have no effect
and some jumps which lead to where the next kept instruction is. The rest stays in order and is
renumbered, and labelled where jumps lead to; so actions, suspensions and tests are the same. -/
theorem WellNumbered.compress_renumbers (hcode : code.WellNumbered) :
  ∃ compressed kept place, code.compress = .ok compressed
    ∧ Renumbers code compressed kept place
    ∧ (∀ i ≤ code.length, place i ≤ compressed.length)
    ∧ (∀ (i : Nat) (instr : Instr), compressed[i]? = some instr →
      (instr.labelled = true ↔ ∃ other ∈ compressed, other.op.target? = some i))
    ∧ compressed.effects = code.effects
  := by
  obtain ⟨kept, place, h⟩ := hcode.exists_renumbers_compact
  refine ⟨code.compact, kept, place, hcode.compress_eq, h, ?_, ?_, h.effects_eq⟩
  · intro i hi
    rw [← h.place_length]
    apply h.place_mono hi (Nat.le_refl _)
  · intro i instr hinstr
    rw [hcode.labelled_compact_iff hinstr, jumpTargets, List.mem_filterMap]

/-- The jump leads over an operation without effect, and goes with it: its target is moved to where
it was itself. -/
theorem WellNumbered.compress_renumbers_exposed :
  let code := ofOps [.jumpIf "c" .onTrue 3, .jump 3, .noop, .noop]
  code.WellNumbered ∧ ∃ compressed kept place, code.compress = .ok compressed
    ∧ Renumbers code compressed kept place ∧ compressed.length = 2 ∧ place 1 = 1 ∧ place 3 = 1
    ∧ compressed.effects = [.test "c" .onTrue]
  := by
  intro code
  have hcode : code.WellNumbered := by decide
  obtain ⟨compressed, kept, place, hcompress, h, -, -, heffects⟩ := compress_renumbers hcode
  have hlength : compressed.length = 2 := by
    have heq : compressed = code.compact := Except.ok.inj (hcompress.symm.trans hcode.compress_eq)
    rw [heq]
    decide
  -- the test stays, so there is room for one more instruction from its target on
  have hkept : kept 0 := by
    by_contra hremoved
    rcases h.removed 0 _ rfl hremoved with hnoop | ⟨target, hjump, -⟩
    · cases hnoop
    · cases hjump
  have hfirst : place 1 = 1 := by
    rw [h.place_succ 0 (by decide) hkept, h.place_zero]
  have hlt := h.place_target_lt 0 _ rfl hkept 3 rfl
  have hle : place 1 ≤ place 3 := h.place_mono (by decide) (by decide)
  exact ⟨hcode, compressed, kept, place, hcompress, h, hlength, hfirst, by omega, heffects⟩

end Code

end Resumable
