/-!
# Sets of addresses

A finite set of addresses, kept as a strictly ascending list, so that two sets with the same
elements are equal. Sets are built by `insert`, `ofList` and `union`; `mem_insert`,
`mem_ofList` and `mem_union` say which elements they have.
-/

namespace Resumable

/-- A finite set of addresses. -/
structure Addresses where
  /-- The elements in ascending order. -/
  elements : List Nat
  /-- No element is listed twice or out of order. -/
  ascending : elements.Pairwise (· < ·)
deriving DecidableEq

namespace Addresses

instance : Membership Nat Addresses where
  mem s a := a ∈ s.elements

instance (a : Nat) (s : Addresses) : Decidable (a ∈ s) :=
  inferInstanceAs (Decidable (a ∈ s.elements))

/-- The list with `a` at its place in the ascending order. -/
def place (a : Nat) : List Nat → List Nat
  | [] => [a]
  | b :: bs =>
    if a < b then a :: b :: bs
    else if a = b then b :: bs
    else b :: place a bs

/-- Placing `a` adds `a` and nothing else. -/
theorem mem_place {a x : Nat} {l : List Nat} :
  x ∈ place a l ↔ x = a ∨ x ∈ l
  := by
  induction l with
  | nil => simp [place]
  | cons b bs ih =>
      rw [place]
      split
      · simp
      · split
        · next h => simp [h]
        · simp only [List.mem_cons, ih]
          apply or_left_comm

/-- Placing keeps a list ascending. -/
theorem pairwise_place {a : Nat} {l : List Nat} (h : l.Pairwise (· < ·)) :
  (place a l).Pairwise (· < ·)
  := by
  induction l with
  | nil => simp [place]
  | cons b bs ih =>
      obtain ⟨hb, hbs⟩ := List.pairwise_cons.1 h
      rw [place]
      split
      · next hab =>
        refine List.pairwise_cons.2 ⟨fun x hx => ?_, h⟩
        rcases List.mem_cons.1 hx with rfl | hx
        · apply hab
        · apply Nat.lt_trans hab (hb x hx)
      · split
        · apply h
        · refine List.pairwise_cons.2 ⟨fun x hx => ?_, ih hbs⟩
          rcases mem_place.1 hx with rfl | hx
          · omega
          · apply hb x hx

/-- The set without elements. -/
def empty : Addresses where
  elements := []
  ascending := List.Pairwise.nil

/-- The set with one more element. -/
def insert (a : Nat) (s : Addresses) : Addresses where
  elements := place a s.elements
  ascending := pairwise_place s.ascending

/-- The set of the elements of a list. -/
def ofList (l : List Nat) : Addresses :=
  l.foldr insert empty

/-- The elements of both sets together. -/
def union (s t : Addresses) : Addresses :=
  s.elements.foldr insert t

/-- The number of elements. -/
def size (s : Addresses) : Nat :=
  s.elements.length

/-- The elements in braces. -/
def text (s : Addresses) : String :=
  String.singleton '{' ++ ", ".intercalate (s.elements.map toString) ++ String.singleton '}'

@[simp]
theorem not_mem_empty (x : Nat) :
  x ∉ empty
  :=
  List.not_mem_nil

@[simp]
theorem mem_insert {a x : Nat} {s : Addresses} :
  x ∈ insert a s ↔ x = a ∨ x ∈ s
  :=
  mem_place

@[simp]
theorem mem_foldr_insert {x : Nat} {l : List Nat} {s : Addresses} :
  x ∈ l.foldr insert s ↔ x ∈ l ∨ x ∈ s
  := by
  induction l with
  | nil => simp
  | cons a l ih => simp [ih, or_assoc]

@[simp]
theorem mem_ofList {x : Nat} {l : List Nat} :
  x ∈ ofList l ↔ x ∈ l
  := by
  simp [ofList]

@[simp]
theorem mem_union {x : Nat} {s t : Addresses} :
  x ∈ union s t ↔ x ∈ s ∨ x ∈ t
  :=
  mem_foldr_insert

end Addresses

end Resumable
