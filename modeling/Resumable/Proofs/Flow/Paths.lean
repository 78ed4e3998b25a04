import Resumable.Flow.Defect
import Resumable.Proofs.Text.Decimal
import Mathlib.Tactic.Use

/-!
# Paths through flows

`Flow.at?` follows a path through a flow to the node that it leads to. A path leads to every node
that is in the flow at some depth (`Flow.contains_iff`).

A path is written into a note as words and positions between dots. `Path.read?` reads it back from
there (`Path.read?_note`), so different paths are written differently.

`Path.Before` is the order in which a flow is gone through depth first. No path comes before itself
(`Path.Before.ne`).
-/

namespace Resumable

/-! ### Following a path -/

/-- The flow that is the given arm of the node; there is nothing in an arm that it does not have. -/
def Node.arm : Node → Arm → Flow
  | .branch _ _ body _, .body => body
  | .branch _ _ _ otherwise, .otherwise => otherwise
  | .loop _ _ body, .body => body
  | .loop _ _ _, .otherwise => []
  | .action _, _ => []
  | .suspend, _ => []

/-- The flow that is reached through nodes at the given positions, each time in the given arm. -/
def Flow.descend? : Flow → List (Nat × Arm) → Option Flow
  | flow, [] => some flow
  | flow, (position, arm) :: steps => flow[position]?.bind fun node => descend? (node.arm arm) steps

/-- The node that the path leads to. -/
def Flow.at? (flow : Flow) (path : Path) : Option Node :=
  (flow.descend? path.enclosing).bind fun inner => inner[path.position]?

/-- The node is in the flow, or in an arm of a node of the flow, at any depth. -/
inductive Flow.Contains : Flow → Node → Prop where
  | here {flow : Flow} {node : Node} : node ∈ flow → Contains flow node
  | there {flow : Flow} {outer node : Node} {arm : Arm} :
      outer ∈ flow → Contains (outer.arm arm) node → Contains flow node

namespace Path

variable {path path' : Path} {i : Nat} {arm : Arm}

/-- What holds of the paths that lead into no node, and passes to a path from the part of it within
its first node, holds of all paths. -/
@[elab_as_elim]
protected theorem induction {P : Path → Prop} (top : ∀ i, P ⟨[], i⟩)
    (within : ∀ i arm path, P path → P (path.within i arm)) (path : Path) :
  P path
  := by
  obtain ⟨enclosing, position⟩ := path
  induction enclosing with
  | nil => apply top
  | cons step steps ih => apply within step.1 step.2 ⟨steps, position⟩ ih

theorem within_inj :
  path.within i arm = path'.within i arm ↔ path = path'
  := by
  cases path
  cases path'
  simp [within]

end Path

namespace Flow

variable {flow : Flow} {node : Node}

/-- A property of all flows follows if it holds of the empty flow and passes to a flow from the
arms of its first node and the nodes after it. -/
@[elab_as_elim]
theorem induction_arms {P : Flow → Prop} (nil : P [])
    (cons : ∀ node rest, (∀ arm, P (node.arm arm)) → P rest → P (node :: rest)) (flow : Flow) :
  P flow
  := by
  induction flow using Flow.induction with
  | nil => apply nil
  | action text rest ih =>
      apply cons _ rest _ ih
      intro arm
      apply nil
  | suspend rest ih =>
      apply cons _ rest _ ih
      intro arm
      apply nil
  | branch polarity cond body otherwise rest hbody hotherwise ih =>
      apply cons _ rest _ ih
      rintro (_ | _)
      · apply hbody
      · apply hotherwise
  | loop counting cond body rest hbody ih =>
      apply cons _ rest _ ih
      rintro (_ | _)
      · apply hbody
      · apply nil

theorem at?_within (flow : Flow) (i : Nat) (arm : Arm) (path : Path) :
  flow.at? (path.within i arm) = flow[i]?.bind fun node => (node.arm arm).at? path
  := Option.bind_assoc ..

/-- The nodes at any depth are those that a path leads to. -/
theorem contains_iff :
  flow.Contains node ↔ ∃ path, flow.at? path = some node
  := by
  constructor
  · intro h
    induction h with
    | here hmem =>
        obtain ⟨i, hi⟩ := List.mem_iff_getElem?.mp hmem
        use ⟨[], i⟩, hi
    | @there flow outer node arm hmem _ ih =>
        obtain ⟨i, hi⟩ := List.mem_iff_getElem?.mp hmem
        obtain ⟨path, hpath⟩ := ih
        use path.within i arm
        rw [at?_within, hi, Option.bind_some, hpath]
  · rintro ⟨path, hpath⟩
    induction path using Path.induction generalizing flow with
    | top i => apply Contains.here (List.mem_of_getElem? hpath)
    | within i arm path ih =>
        rw [at?_within] at hpath
        obtain ⟨outer, houter, hinner⟩ := Option.bind_eq_some_iff.mp hpath
        apply Contains.there (List.mem_of_getElem? houter) (ih hinner)

end Flow

/-! ### Reading a path -/

/-- The arm with the given name. -/
def Arm.ofName? (name : String) : Option Arm :=
  [body, otherwise].find? fun arm => arm.name == name

theorem Arm.ofName?_name (arm : Arm) :
  ofName? arm.name = some arm
  := by
  cases arm with
  | body => decide
  | otherwise => decide

namespace Path

/-- A word and the number in brackets that follows it. -/
def readSegment? (segment : List Char) : Option (String × Nat) :=
  match segment.dropWhile (· != '[') with
  | [] => none
  | _ :: rest =>
    let digits := rest.dropLast
    if rest.getLast? = some ']' ∧ digits ≠ [] ∧ digits.all Char.isDigit then
      some (String.ofList (segment.takeWhile (· != '[')), Text.digitsValue digits)
    else none

/-- The path that is written in the segments between dots, and the word in front of it. The word in
front of each later position names the arm in which the position is. -/
def ofSegments? : List (List Char) → Option (String × Path)
  | [] => none
  | [segment] => (readSegment? segment).map fun (word, position) => (word, ⟨[], position⟩)
  | segment :: next :: rest =>
    (readSegment? segment).bind fun (word, position) =>
      (ofSegments? (next :: rest)).bind fun (name, path) =>
        (Arm.ofName? name).map fun arm => (word, path.within position arm)

/-- The path in a note that says where something is. -/
def read? (note : String) : Option Path :=
  match ofSegments? (note.toList.splitOn '.') with
  | none => none
  | some (word, path) => if word = "at flow" then some path else none

/-- The note that says that something is at the path. -/
def note (path : Path) : String :=
  "at " ++ path.text

/-- The segments between the dots of a path, the first one with the given word in front. -/
def segments (word : List Char) : List (Nat × Arm) → Nat → List (List Char)
  | [], position => [word ++ (bracket position).toList]
  | (i, arm) :: steps, position =>
    (word ++ (bracket i).toList) :: segments arm.name.toList steps position

variable {word : List Char}

theorem toList_bracket (i : Nat) :
  (bracket i).toList = '[' :: (Nat.toDigits 10 i ++ [']'])
  := by
  simp [bracket]

theorem segments_ne_nil (word : List Char) (steps : List (Nat × Arm)) (position : Nat) :
  segments word steps position ≠ []
  := by
  cases steps <;> simp [segments]

/-- The text of a path is its segments with dots between them. -/
theorem intercalate_segments (word : List Char) (steps : List (Nat × Arm)) (position : Nat) :
  ['.'].intercalate (segments word steps position)
    = word ++ (steps.flatMap fun step => (bracket step.1).toList ++ '.' :: step.2.name.toList)
      ++ (bracket position).toList
  := by
  induction steps generalizing word with
  | nil => simp [segments]
  | cons step steps ih =>
      have hrest := ih step.2.name.toList
      obtain ⟨next, rest, hsegments⟩ :=
        List.exists_cons_of_ne_nil (segments_ne_nil step.2.name.toList steps position)
      rw [hsegments] at hrest
      simp [segments, hsegments, List.intercalate_cons_cons, hrest]

theorem toList_note (path : Path) :
  path.note.toList
    = ['.'].intercalate (segments "at flow".toList path.enclosing path.position)
  := by
  rw [intercalate_segments]
  simp [note, text, List.flatMap_map]

/-- There are no dots in a segment. -/
theorem dot_not_mem_segments (hword : '.' ∉ word) (steps : List (Nat × Arm)) (position : Nat) :
  ∀ segment ∈ segments word steps position, '.' ∉ segment
  := by
  have hbracket (i : Nat) : '.' ∉ (bracket i).toList := by
    rw [toList_bracket]
    simp [Text.not_mem_toDigits]
  induction steps generalizing word with
  | nil => simp [segments, hword, hbracket]
  | cons step steps ih =>
      have hname : '.' ∉ step.2.name.toList := by
        cases step.2 with
        | body => decide
        | otherwise => decide
      rw [segments, List.forall_mem_cons]
      exact ⟨by simp [hword, hbracket], ih hname⟩

theorem readSegment?_append_bracket (hword : '[' ∉ word) (i : Nat) :
  readSegment? (word ++ (bracket i).toList) = some (String.ofList word, i)
  := by
  have hpos : ∀ c ∈ word, (c != '[') = true := by
    intro c hc
    rw [bne_iff_ne]
    rintro rfl
    apply hword hc
  rw [readSegment?, List.dropWhile_append_of_pos hpos, List.takeWhile_append_of_pos hpos,
    toList_bracket]
  have hdigits : ∀ c ∈ Nat.toDigits 10 i, c.isDigit = true := by
    intro c hc
    apply Text.isDigit_of_mem_toDigits hc
  simpa using hdigits

theorem ofSegments?_segments (hword : '[' ∉ word) (path : Path) :
  ofSegments? (segments word path.enclosing path.position) = some (String.ofList word, path)
  := by
  induction path using Path.induction generalizing word with
  | top i =>
      simp only [segments, ofSegments?, readSegment?_append_bracket hword, Option.map_some]
  | within i arm path ih =>
      have hname : '[' ∉ arm.name.toList := by
        cases arm with
        | body => decide
        | otherwise => decide
      have hrest := ih hname
      obtain ⟨next, rest, hsegments⟩ := List.exists_cons_of_ne_nil
        (segments_ne_nil arm.name.toList path.enclosing path.position)
      simp only [within, segments, hsegments] at hrest ⊢
      simp only [ofSegments?, readSegment?_append_bracket hword, hrest, Option.bind_some,
        String.ofList_toList, Arm.ofName?_name, Option.map_some]
      rfl

/-- A path can be read from its note. -/
theorem read?_note (path : Path) :
  read? path.note = some path
  := by
  have hsplit : path.note.toList.splitOn '.'
      = segments "at flow".toList path.enclosing path.position := by
    rw [toList_note]
    apply List.splitOn_intercalate
    · apply dot_not_mem_segments
      decide
    · apply segments_ne_nil
  rw [read?, hsplit, ofSegments?_segments (by decide), String.ofList_toList]
  rfl

theorem note_injective :
  Function.Injective note
  := by
  intro path path' h
  apply Option.some.inj
  rw [← read?_note path, h, read?_note]

/-! ### Order of paths -/

/-- The position of the first node that the path leads to or through. -/
def outermost (path : Path) : Nat :=
  (path.enclosing.head?.map Prod.fst).getD path.position

/-- The one path comes before the other when a flow is gone through depth first. -/
inductive Before : Path → Path → Prop where
  /-- All that is in a node comes before all that is in a later node. -/
  | later {path path' : Path} : path.outermost < path'.outermost → Before path path'
  /-- A node comes before the nodes nested in it. -/
  | nested {i : Nat} {arm : Arm} {path : Path} : Before ⟨[], i⟩ (path.within i arm)
  /-- The body of a node comes before the other arm. -/
  | arms {i : Nat} {path path' : Path} :
      Before (path.within i .body) (path'.within i .otherwise)
  /-- Within an arm of a node the order is that of the flow which the arm is. -/
  | within {i : Nat} {arm : Arm} {path path' : Path} :
      Before path path' → Before (path.within i arm) (path'.within i arm)

/-- No path comes before itself. -/
theorem Before.ne {path path' : Path} (h : path.Before path') :
  path ≠ path'
  := by
  induction h with
  | later hlt =>
      rintro rfl
      apply Nat.lt_irrefl _ hlt
  | nested => rintro ⟨⟩
  | arms => rintro ⟨⟩
  | within _ ih =>
      intro heq
      apply ih (within_inj.mp heq)

end Path

end Resumable
