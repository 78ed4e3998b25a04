import Resumable.Text.Lines

/-!
# Diagnostics

A diagnostic is a message with a severity, an optional code and notes; `Diagnostic.render`
writes it as text. A `Reporter` queues diagnostics in the order they are emitted and remembers
whether one of them was an error; `display` writes the queue out and `flush` hands it over.
-/

namespace Resumable

/-- How serious a diagnostic is. -/
inductive Severity where
  | bug
  | error
  | warning
  | note
  | help
deriving DecidableEq, Repr

namespace Severity

/-- The word for the severity. -/
def name : Severity → String
  | bug => "bug"
  | error => "error"
  | warning => "warning"
  | note => "note"
  | help => "help"

/-- Bugs and errors are failures. -/
def isFailure : Severity → Bool
  | bug | error => true
  | warning | note | help => false

end Severity

/-- A message for the user. -/
structure Diagnostic where
  /-- How serious the message is. -/
  severity : Severity
  /-- The code of its kind of message. -/
  code : Option String
  /-- What is the matter. -/
  message : String
  /-- Further remarks, such as where. -/
  notes : List String
deriving DecidableEq, Repr

namespace Diagnostic

/-- The code in brackets; a missing or empty code is not written. -/
def codeText : Option String → String
  | none => ""
  | some code => if code.isEmpty then "" else "[" ++ code ++ "]"

/-- A note, its first line marked by an equals sign and the others aligned with it. -/
def noteText (note : String) : String :=
  match Text.lines note with
  | [] => ""
  | first :: rest =>
    " = " ++ first ++ "\n" ++ String.join (rest.map fun line => "   " ++ line ++ "\n")

/-- The diagnostic as text: a headline, the notes and an empty line. -/
def render (d : Diagnostic) : String :=
  d.severity.name ++ codeText d.code ++ ": " ++ d.message ++ "\n"
    ++ String.join (d.notes.map noteText) ++ "\n"

end Diagnostic

/-- The diagnostics that were emitted and not yet written out or handed over. -/
structure Reporter where
  /-- The diagnostics in the order they were emitted. -/
  pending : List Diagnostic
  /-- Whether a failure was emitted since the last flush. -/
  hasErrors : Bool
deriving DecidableEq, Repr

namespace Reporter

/-- The reporter to which nothing was emitted. -/
def empty : Reporter where
  pending := []
  hasErrors := false

/-- Adds a diagnostic at the end of the queue. -/
def emit (r : Reporter) (d : Diagnostic) : Reporter where
  pending := r.pending ++ [d]
  hasErrors := r.hasErrors || d.severity.isFailure

/-- Adds diagnostics in their order. -/
def emitAll (r : Reporter) (ds : List Diagnostic) : Reporter :=
  ds.foldl emit r

/-- Hands over all that was emitted, and starts anew. -/
def flush (r : Reporter) : Reporter × Reporter :=
  (r, empty)

/-- Writes the queue out; the line that is under way is started over. Whether there was a failure
is remembered. -/
def display (r : Reporter) : String × Reporter :=
  ("\r" ++ String.join (r.pending.map Diagnostic.render), { r with pending := [] })

/-- The reporter with one error: its root cause as the message, and as notes what it was the
cause of, from the inside out. -/
def ofErrorChain (root : String) (contexts : List String) : Reporter :=
  empty.emit
    { severity := .error
      code := none
      message := root
      notes := contexts.map fun context => "Caused by: " ++ context }

@[simp]
theorem pending_emitAll (r : Reporter) (ds : List Diagnostic) :
  (r.emitAll ds).pending = r.pending ++ ds
  := by
  induction ds generalizing r with
  | nil => simp [emitAll]
  | cons d ds ih =>
      have h := ih (r.emit d)
      simpa [emitAll, emit] using h

@[simp]
theorem hasErrors_emitAll (r : Reporter) (ds : List Diagnostic) :
  (r.emitAll ds).hasErrors = (r.hasErrors || ds.any fun d => d.severity.isFailure)
  := by
  induction ds generalizing r with
  | nil => simp [emitAll]
  | cons d ds ih =>
      have h := ih (r.emit d)
      simpa [emitAll, emit, Bool.or_assoc] using h

end Reporter

end Resumable
