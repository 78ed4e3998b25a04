import Resumable.Flow.Basic

/-!
# The gallery

Built-in flows with their names, to try the lowering on.
-/

namespace Resumable.Gallery

/-- Nothing to do. -/
def empty : Flow :=
  []

/-- A branch with two arms. -/
def ifElse : Flow :=
  [.when .onTrue "CheckSomething()" [.act "DoSomething()"] [.act "DoSomethingElse()"],
   .act "Finalize()"]

/-- A branch with one arm. -/
def ifWithoutElse : Flow :=
  [.when .onTrue "CheckSomething()" [.act "DoSomething()"] [],
   .act "Finalize()"]

/-- Branches in both arms of a branch. -/
def nestedIfs : Flow :=
  [.when .onTrue "CheckOuter()"
    [.when .onTrue "OuterTrue_CheckInner()"
      [.act "OuterTrue_DoInner()"]
      [.act "OuterTrue_DoElseInner()"]]
    [.when .onTrue "OuterFalse_CheckInner()"
      [.act "OuterFalse_DoInner()"]
      [.act "OuterFalse_DoElseInner()"]],
   .act "Finalize()"]

/-- A counted loop that suspends in each round. -/
def forLoop : Flow :=
  [.counted (some "Start()") "!Done()" "Next()" [.act "DoSomething()", .suspend],
   .act "Finalize()"]

/-- A loop that does not suspend. -/
def whileLoop : Flow :=
  [.whilst "!Done()" [.act "DoSomething()"],
   .act "Finalize()"]

/-- A loop in a counted loop, both of which suspend. -/
def nestedLoops : Flow :=
  [.counted (some "i = 0") "i < rows" "++i"
    [.act "j = 0",
     .whilst "j < columns"
      [.when .onFalse "IsZero(i, j)" [.act "value_ = At(i, j)", .suspend] [],
       .act "++j"],
     .suspend],
   .act "Finalize()"]

/-- Verifies an optional property: suspends for each error of its value. -/
def verifyProperty (property : String) : Node :=
  .when .onTrue ("instance_." ++ property ++ ".HasValue()")
    [.act ("verification = VerifyConstrainedPrimitive(instance_." ++ property ++ ".Value())\n"
      ++ "iterator_ = verification.Begin()\n"
      ++ "iterator_end_ = verification.End()"),
     .counted none "iterator_ != iterator_end_" "++iterator_"
      [.act "error_ = *iterator_", .suspend],
     .act "iterator_.reset()\niterator_end_.reset()"]
    []

/-- Verifies an instance: suspends for each invariant that it violates and for each error of its
properties. -/
def verificator : Flow :=
  [.when .onTrue "Invariant0Invalidated" [.act "error_ = ErrorForInvariant0()", .suspend] [],
   .when .onTrue "Invariant1Invalidated" [.act "error_ = ErrorForInvariant1()", .suspend] [],
   verifyProperty "prop0",
   verifyProperty "prop1",
   .act "error_.Reset()\nFinalize()"]

/-- The built-in flows with their names. -/
def all : List (String × Flow) :=
  [("empty", empty), ("if_else", ifElse), ("if_without_else", ifWithoutElse),
   ("nested_ifs", nestedIfs), ("for_loop", forLoop), ("while_loop", whileLoop),
   ("nested_loops", nestedLoops), ("verificator", verificator)]

/-- The names of the built-in flows. -/
def names : List String :=
  all.map Prod.fst

/-- The built-in flow with the given name. -/
def find? (name : String) : Option Flow :=
  all.lookup name

end Resumable.Gallery
