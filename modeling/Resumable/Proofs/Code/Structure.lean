import Resumable.Proofs.Code.Layout

/-!
# Structured operations

Operations are structured, `Placement.IsStructured`, if their jumps lead forward except for those
that close a loop. A loop, `Placement.IsLoop`, is a stretch of operations between a test and a jump
back to it. No jump leads into it but to the test, and the test is the only jump out of it.

Structured operations can be put together in the ways in which flows are: one after the other
(`IsStructured.append`), as the arms of a branch (`IsStructured.arms`) and as the rounds of a loop
(`IsStructured.loop`). So the operations that a flow is laid out as are structured
(`Flow.isStructured_layout`).
-/

namespace Resumable

/-- Which operations are at which addresses. -/
abbrev Placement := Nat → Op → Prop

/-- The operations one after the other, the first one at `origin`. -/
def Placement.fromOps (origin : Nat) (ops : List Op) : Placement := fun i op =>
  (op, i) ∈ ops.zipIdx origin

/-- The operations of the code at their positions. -/
def Code.placement (code : Code) : Placement := fun i op =>
  ∃ instr, code[i]? = some instr ∧ instr.op = op

namespace Placement

/-- The operations from `first` to `last` are a loop. The test comes first, and leads behind the
loop when the condition does not hold; the last operation leads back to the test. -/
structure IsLoop (placed : Placement) (first last : Nat) : Prop where
  lt : first < last
  test : ∃ cond, placed first (.jumpIf cond .onFalse (last + 1))
  back : placed last (.jump first)
  /-- The jumps between the test and the jump back stay behind the test and in the loop. -/
  inside : ∀ i op, placed i op → first < i → i < last →
    ∀ target ∈ op.target?, first < target ∧ target ≤ last
  /-- The jumps from elsewhere do not lead into the loop but to its test. -/
  outside : ∀ i op, placed i op → i < first ∨ last < i →
    ∀ target ∈ op.target?, target ≤ first ∨ last < target

/-- Conditional jumps lead forward, and other jumps lead forward or close a loop. -/
structure IsStructured (placed : Placement) : Prop where
  jumpIf : ∀ i cond polarity target, placed i (.jumpIf cond polarity target) → i < target
  jump : ∀ i target, placed i (.jump target) → i < target ∨ placed.IsLoop target i

variable {placed placed' : Placement} {first last : Nat}

/-! ### Operations one after the other -/

section FromOps

variable {origin i : Nat} {op : Op} {ops ops' : List Op}

theorem fromOps_append :
  fromOps origin (ops ++ ops') i op
    ↔ fromOps origin ops i op ∨ fromOps (origin + ops.length) ops' i op
  := by
  rw [fromOps, List.zipIdx_append, List.mem_append]
  rfl

theorem fromOps_cons {op' : Op} :
  fromOps origin (op' :: ops) i op ↔ (op = op' ∧ i = origin) ∨ fromOps (origin + 1) ops i op
  := by
  rw [fromOps, List.zipIdx_cons, List.mem_cons, Prod.mk.injEq]
  rfl

theorem fromOps_concat {op' : Op} :
  fromOps origin (ops ++ [op']) i op
    ↔ fromOps origin ops i op ∨ (op = op' ∧ i = origin + ops.length)
  := by
  rw [fromOps_append, fromOps_cons]
  simp [fromOps]

theorem le_of_fromOps (h : fromOps origin ops i op) :
  origin ≤ i
  :=
  List.le_snd_of_mem_zipIdx h

theorem lt_of_fromOps (h : fromOps origin ops i op) :
  i < origin + ops.length
  :=
  List.snd_lt_add_of_mem_zipIdx h

theorem mem_of_fromOps (h : fromOps origin ops i op) :
  op ∈ ops
  :=
  List.fst_mem_of_mem_zipIdx h

theorem exists_fromOps (h : op ∈ ops) (origin : Nat) :
  ∃ i, fromOps origin ops i op
  := by
  obtain ⟨i, hi⟩ := List.mem_iff_getElem?.mp h
  use origin + i
  apply List.mk_mem_zipIdx_iff_le_and_getElem?_sub.mpr
  rw [Nat.add_sub_cancel_left]
  exact ⟨Nat.le_add_right origin i, hi⟩

/-- The operations jump into the stretch from `start` up to `stop` at its start only. -/
def Avoid (start stop : Nat) (ops : List Op) : Prop :=
  ∀ op ∈ ops, ∀ target ∈ op.target?, target ≤ start ∨ stop ≤ target

/-- A loop is still one if operations around the stretch that it is in are added which avoid that
stretch. -/
theorem IsLoop.of_avoid {start stop : Nat} (h : placed.IsLoop first last) (hstart : start ≤ first)
    (hstop : last < stop) (hplaced : ∀ i op, placed i op → placed' i op)
    (hplaced' : ∀ i op, placed' i op → placed i op
      ∨ (i < start ∨ stop ≤ i) ∧ ∀ target ∈ op.target?, target ≤ start ∨ stop ≤ target) :
  placed'.IsLoop first last
  := by
  constructor
  · apply h.lt
  · obtain ⟨cond, htest⟩ := h.test
    use cond, hplaced _ _ htest
  · apply hplaced _ _ h.back
  · intro i op hop hlo hhi
    rcases hplaced' i op hop with hop | ⟨haround, -⟩
    · apply h.inside i op hop hlo hhi
    · omega
  · intro i op hop houtside target htarget
    rcases hplaced' i op hop with hop | ⟨-, havoid⟩
    · apply h.outside i op hop houtside target htarget
    · have := havoid target htarget
      omega

theorem IsLoop.append_left (h : (fromOps origin ops).IsLoop first last)
    (havoid : Avoid origin (origin + ops.length) ops') :
  (fromOps origin (ops ++ ops')).IsLoop first last
  := by
  obtain ⟨cond, htest⟩ := h.test
  apply h.of_avoid (le_of_fromOps htest) (lt_of_fromOps h.back)
  · intro i op hop
    apply fromOps_append.mpr (.inl hop)
  · intro i op hop
    rcases fromOps_append.mp hop with hop | hop
    · left
      apply hop
    · right
      exact ⟨.inr (le_of_fromOps hop), havoid op (mem_of_fromOps hop)⟩

theorem IsLoop.append_right (h : (fromOps (origin + ops.length) ops').IsLoop first last)
    (havoid : Avoid (origin + ops.length) (origin + ops.length + ops'.length) ops) :
  (fromOps origin (ops ++ ops')).IsLoop first last
  := by
  obtain ⟨cond, htest⟩ := h.test
  apply h.of_avoid (le_of_fromOps htest) (lt_of_fromOps h.back)
  · intro i op hop
    apply fromOps_append.mpr (.inr hop)
  · intro i op hop
    rcases fromOps_append.mp hop with hop | hop
    · right
      exact ⟨.inl (lt_of_fromOps hop), havoid op (mem_of_fromOps hop)⟩
    · left
      apply hop

namespace IsStructured

/-- Structured operations jump to their first one or behind it. -/
theorem le_target (h : IsStructured (fromOps origin ops)) (hop : op ∈ ops) :
  ∀ target ∈ op.target?, origin ≤ target
  := by
  intro target htarget
  obtain ⟨i, hi⟩ := exists_fromOps hop origin
  have hle := le_of_fromOps hi
  cases op with
  | jumpIf cond polarity target' =>
      cases htarget
      have := h.jumpIf i cond polarity target hi
      omega
  | jump target' =>
      cases htarget
      rcases h.jump i target hi with hlt | hloop
      · omega
      · obtain ⟨cond, htest⟩ := hloop.test
        apply le_of_fromOps htest
  | _ => cases htarget

theorem append (h : IsStructured (fromOps origin ops))
    (h' : IsStructured (fromOps (origin + ops.length) ops'))
    (havoid : Avoid origin (origin + ops.length) ops')
    (havoid' : Avoid (origin + ops.length) (origin + ops.length + ops'.length) ops) :
  IsStructured (fromOps origin (ops ++ ops'))
  := by
  constructor
  · intro i cond polarity target hop
    rcases fromOps_append.mp hop with hop | hop
    · apply h.jumpIf i cond polarity target hop
    · apply h'.jumpIf i cond polarity target hop
  · intro i target hop
    rcases fromOps_append.mp hop with hop | hop
    · apply (h.jump i target hop).imp_right
      intro hloop
      apply hloop.append_left havoid
    · apply (h'.jump i target hop).imp_right
      intro hloop
      apply hloop.append_right havoid'

theorem nil (origin : Nat) :
  IsStructured (fromOps origin [])
  := by
  constructor
  · intro i cond polarity target hop
    cases hop
  · intro i target hop
    cases hop

theorem singleton (h : ∀ target ∈ op.target?, origin < target) :
  IsStructured (fromOps origin [op])
  := by
  constructor
  · intro i cond polarity target hop
    cases List.mem_singleton.mp hop
    apply h target rfl
  · intro i target hop
    cases List.mem_singleton.mp hop
    left
    apply h target rfl

/-- An operation that jumps behind the others, if at all, can come first. -/
theorem cons (h : IsStructured (fromOps (origin + 1) ops))
    (hop : ∀ target ∈ op.target?, origin + 1 + ops.length ≤ target) :
  IsStructured (fromOps origin (op :: ops))
  := by
  rw [← List.singleton_append]
  apply append (singleton _) h
  · intro other _ target _
    rw [List.length_singleton]
    omega
  · intro other hother target htarget
    rw [List.mem_singleton.mp hother] at htarget
    right
    apply hop target htarget
  · intro target htarget
    have := hop target htarget
    omega

/-- An operation that jumps forward, if at all, can come last. -/
theorem concat (h : IsStructured (fromOps origin ops))
    (hop : ∀ target ∈ op.target?, origin + ops.length < target) :
  IsStructured (fromOps origin (ops ++ [op]))
  := by
  apply append h (singleton hop)
  · intro other hother target htarget
    rw [List.mem_singleton.mp hother] at htarget
    right
    apply Nat.le_of_lt (hop target htarget)
  · intro other _ target _
    rw [List.length_singleton]
    omega

end IsStructured

/-- Two arms of structured operations, the second one from `start` up to `stop`, with a conditional
jump to the second one in front of the first and a jump behind the second one between them. -/
theorem IsStructured.arms {start stop : Nat} (h : IsStructured (fromOps (origin + 1) ops))
    (h' : IsStructured (fromOps start ops')) (cond : String) (skip : Polarity)
    (hbelow : Code.TargetsBelow start ops) (hstart : origin + 1 + ops.length + 1 = start)
    (hstop : start + ops'.length = stop) :
  IsStructured (fromOps origin (.jumpIf cond skip start :: ops ++ [.jump stop] ++ ops'))
  := by
  have hfirst : IsStructured (fromOps origin
      (.jumpIf cond skip start :: ops ++ [.jump stop])) := by
    apply concat
    · apply h.cons
      rintro _ ⟨⟩
      omega
    · rintro _ ⟨⟩
      rw [List.length_cons]
      omega
  have hlength : origin + (Op.jumpIf cond skip start :: ops ++ [Op.jump stop]).length = start := by
    rw [List.length_append, List.length_cons, List.length_singleton]
    omega
  apply hfirst.append
  · rw [hlength]
    apply h'
  · rw [hlength]
    intro op hop target htarget
    right
    apply h'.le_target hop target htarget
  · rw [hlength]
    intro op hop target htarget
    rcases List.mem_append.mp hop with hop | hop
    · left
      rcases List.mem_cons.mp hop with rfl | hop
      · cases htarget
        apply Nat.le_refl
      · apply Nat.le_of_lt (hbelow op hop target htarget)
    · cases List.mem_singleton.mp hop
      cases htarget
      right
      apply Nat.le_of_eq hstop

theorem add_length_cons (h : last = origin + 1 + ops.length) :
  origin + (op :: ops).length = last
  := by
  rw [h, List.length_cons, Nat.add_comm ops.length, Nat.add_assoc]

/-- A test in front of operations that jump to each other, or to the jump back to the test which
follows them, is the test of a loop. -/
theorem isLoop_of_test (cond : String) (hfrom : ∀ op ∈ ops, ∀ target ∈ op.target?, origin < target)
    (hbelow : Code.TargetsBelow (last + 1) ops) (hlast : last = origin + 1 + ops.length) :
  (fromOps origin (.jumpIf cond .onFalse (last + 1) :: ops ++ [.jump origin])).IsLoop origin last
  := by
  have hplaced : ∀ i op,
      fromOps origin (.jumpIf cond .onFalse (last + 1) :: ops ++ [.jump origin]) i op
        ↔ (op = .jumpIf cond .onFalse (last + 1) ∧ i = origin ∨ fromOps (origin + 1) ops i op)
          ∨ op = .jump origin ∧ i = last := by
    intro i op
    rw [fromOps_concat, add_length_cons hlast, fromOps_cons]
  constructor
  · omega
  · use cond
    apply (hplaced _ _).mpr (.inl (.inl ⟨rfl, rfl⟩))
  · apply (hplaced _ _).mpr (.inr ⟨rfl, rfl⟩)
  · intro i op hop hlo hhi target htarget
    rcases (hplaced i op).mp hop with (⟨-, rfl⟩ | hop) | ⟨-, rfl⟩
    · omega
    · have hmem := mem_of_fromOps hop
      exact ⟨hfrom op hmem target htarget, Nat.le_of_lt_succ (hbelow op hmem target htarget)⟩
    · omega
  · intro i op hop houtside
    rcases (hplaced i op).mp hop with (⟨-, rfl⟩ | hop) | ⟨-, rfl⟩
    · omega
    · have := le_of_fromOps hop
      have := lt_of_fromOps hop
      omega
    · omega

/-- A test in front of structured operations and a jump back to it behind them are structured. -/
theorem IsStructured.loop (h : IsStructured (fromOps (origin + 1) ops)) (cond : String)
    (hbelow : Code.TargetsBelow (last + 1) ops) (hlast : last = origin + 1 + ops.length) :
  IsStructured (fromOps origin (.jumpIf cond .onFalse (last + 1) :: ops ++ [.jump origin]))
  := by
  have hloop := isLoop_of_test cond (fun op => h.le_target) hbelow hlast
  have hinner : IsStructured (fromOps origin (.jumpIf cond .onFalse (last + 1) :: ops)) := by
    apply h.cons
    rintro _ ⟨⟩
    omega
  constructor
  · intro i cond' polarity target hop
    rcases fromOps_concat.mp hop with hop | ⟨⟨⟩, -⟩
    apply hinner.jumpIf i cond' polarity target hop
  · intro i target hop
    rcases fromOps_concat.mp hop with hop | ⟨⟨⟩, hi⟩
    · apply (hinner.jump i target hop).imp_right
      intro hother
      apply hother.append_left
      simp [Avoid, Op.target?]
    · right
      rw [hi, add_length_cons hlast]
      apply hloop

end FromOps

end Placement

/-! ### Operations of a flow -/

namespace Flow

open Placement Code

variable {origin : Nat}

theorem isStructured_layout_cons {node : Node} {rest : Flow}
    (hnode : IsStructured (fromOps origin (node.layout origin)))
    (hrest : ∀ origin, IsStructured (fromOps origin (layout origin rest))) :
  IsStructured (fromOps origin (layout origin (node :: rest)))
  := by
  have hbelow := targetsBelow_layout [node] origin
  rw [layout_singleton] at hbelow
  have hlater := hrest (origin + (node.layout origin).length)
  rw [layout]
  apply hnode.append hlater
  · intro op hop target htarget
    right
    apply hlater.le_target hop target htarget
  · intro op hop target htarget
    left
    apply Nat.le_of_lt (hbelow op hop target htarget)

theorem isStructured_layout_branch {polarity : Polarity} {cond : String} {body otherwise : Flow}
    (hbody : ∀ origin, IsStructured (fromOps origin (layout origin body)))
    (hotherwise : ∀ origin, IsStructured (fromOps origin (layout origin otherwise))) :
  IsStructured (fromOps origin (Node.layout origin (.branch polarity cond body otherwise)))
  := by
  obtain ⟨-, stop, hstop, -, hlayout⟩ | ⟨-, start, stop, hstart, hstop, -, hlayout⟩ :=
    Node.layout_branch_cases origin polarity cond body otherwise
  · rw [hlayout, ← List.cons_append]
    apply IsStructured.concat
    · apply (hbody (origin + 1)).cons
      rintro _ ⟨⟩
      omega
    · rintro _ ⟨⟩
  · have hbelow := targetsBelow_layout body (origin + 1)
    have harms := (hbody (origin + 1)).arms (hotherwise start) cond polarity.flip
      (hbelow.mono (by omega)) hstart hstop
    rw [List.append_assoc, List.singleton_append] at harms
    rw [hlayout, ← List.cons_append, ← List.cons_append, ← List.append_assoc]
    apply harms.concat
    rintro _ ⟨⟩

theorem isStructured_stepOps (counting : Option Counting) :
  IsStructured (fromOps origin (Counting.stepOps counting))
  := by
  cases counting with
  | none => apply IsStructured.nil
  | some counting =>
      apply IsStructured.singleton
      rintro _ ⟨⟩

theorem isStructured_layout_loop {counting : Option Counting} {cond : String} {body : Flow}
    (hinit : counting.bind Counting.init = none)
    (hbody : ∀ origin, IsStructured (fromOps origin (layout origin body))) :
  IsStructured (fromOps origin (Node.layout origin (.loop counting cond body)))
  := by
  have hbelow := targetsBelow_layout body (origin + 1)
  have hround : IsStructured (fromOps (origin + 1)
      (layout (origin + 1) body ++ Counting.stepOps counting)) := by
    apply (hbody (origin + 1)).append (isStructured_stepOps counting)
    · intro op hop target htarget
      left
      apply Nat.le_of_lt (targetsBelow_stepOps counting op hop target htarget)
    · intro op hop target htarget
      left
      apply Nat.le_of_lt (hbelow op hop target htarget)
  obtain ⟨back, hback, -, hlayout⟩ := Node.exists_layout_loop hinit origin cond body
  have hlast : back
      = origin + 1 + (layout (origin + 1) body ++ Counting.stepOps counting).length := by
    rw [List.length_append]
    omega
  have hpieces : Node.layout origin (.loop counting cond body)
      = .jumpIf cond .onFalse (back + 1) :: (layout (origin + 1) body ++ Counting.stepOps counting)
        ++ [.jump origin] ++ [.noop] := by
    rw [hlayout]
    simp
  rw [hpieces]
  apply IsStructured.concat
  · apply hround.loop cond _ hlast
    apply targetsBelow_append.mpr
    constructor
    · apply hbelow.mono
      omega
    · apply targetsBelow_stepOps
  · rintro _ ⟨⟩

/-- The operations of a flow are structured. -/
theorem isStructured_layout (flow : Flow) (origin : Nat) :
  IsStructured (fromOps origin (flow.layout origin))
  := by
  induction flow using Flow.induction generalizing origin with
  | nil => apply IsStructured.nil
  | action text rest hrest =>
      apply isStructured_layout_cons _ hrest
      apply IsStructured.singleton
      rintro _ ⟨⟩
  | suspend rest hrest =>
      apply isStructured_layout_cons _ hrest
      apply IsStructured.singleton
      rintro _ ⟨⟩
  | branch polarity cond body otherwise rest hbody hotherwise hrest =>
      apply isStructured_layout_cons _ hrest
      apply isStructured_layout_branch hbody hotherwise
  | loop counting cond body rest hbody hrest =>
      apply isStructured_layout_cons _ hrest
      cases hinit : counting.bind Counting.init with
      | none => apply isStructured_layout_loop hinit hbody
      | some init =>
          obtain ⟨step, rfl⟩ := Counting.exists_eq_of_init hinit
          rw [Node.layout_loop_init]
          apply (isStructured_layout_loop rfl hbody).cons
          rintro _ ⟨⟩

theorem placement_code (flow : Flow) :
  flow.code.placement = fromOps 0 (flow.layout 0)
  := by
  funext i op
  rw [fromOps, List.mk_mem_zipIdx_iff_getElem?]
  apply propext
  constructor
  · rintro ⟨instr, hinstr, rfl⟩
    rw [code, getElem?_ofOps] at hinstr
    obtain ⟨op, hop, rfl⟩ := Option.map_eq_some_iff.mp hinstr
    apply hop
  · intro hop
    refine ⟨⟨i, op, true⟩, ?_, rfl⟩
    rw [code, getElem?_ofOps, hop]
    rfl

end Flow

end Resumable
