import Resumable.Table

/-!
# Sessions

A session runs the stages of the lowering for a user: it checks flows and reports their defects,
and tells about its progress if it is asked to be verbose. It keeps a configuration and a
reporter from one operation to the next. What it writes are notices, and `Operation.perform`
is what each operation does.
-/

namespace Resumable

/-- The stages of the lowering whose result can be listed. -/
inductive Stage where
  | linear
  | compressed
  | subroutines
deriving DecidableEq, Repr

/-- The stage with the given name. -/
def Stage.ofName? : String → Option Stage
  | "linear" => some linear
  | "compressed" => some compressed
  | "subroutines" => some subroutines
  | _ => none

/-- The settings of a session. -/
structure Config where
  /-- Whether to tell about progress. -/
  verbose : Bool := false
  /-- The stage that is listed. -/
  stage : Stage := .subroutines
deriving DecidableEq, Repr

/-- Something that a session writes for its user. -/
inductive Notice where
  | checking
  | checked
  | linearizing
  | linearized (size : Nat)
  | compressing
  | compressed (before after : Nat)
  | partitioning
  | partitioned (count : Nat)
  | neverSuspends
  /-- Diagnostics, already as text. -/
  | diagnostics (text : String)
deriving DecidableEq, Repr

/-- The notice as text. The end of a stage is written over its beginning, with the time that
it took. -/
def Notice.text (elapsed : String) : Notice → String
  | checking => "Checking..."
  | checked => s!"\rChecked [{elapsed}]\n"
  | linearizing => "Linearizing..."
  | linearized size => s!"\rLinearized into {size} instructions [{elapsed}]\n"
  | compressing => "Compressing..."
  | compressed before after => s!"\rCompressed {before} into {after} instructions [{elapsed}]\n"
  | partitioning => "Partitioning..."
  | partitioned count => s!"\rPartitioned into {count} subroutines [{elapsed}]\n"
  | neverSuspends => "Flow never suspends, it completes on its first resumption\n"
  | diagnostics text => text

/-- The state of a session. -/
structure Session where
  /-- The settings. -/
  config : Config := {}
  /-- The diagnostics that were reported. -/
  reporter : Reporter := .empty
  /-- What was written, in order. -/
  notices : List Notice := []
deriving DecidableEq, Repr

/-- The reason why an operation of a session failed. -/
inductive SessionError where
  /-- The reporter holds an error after the check of a flow. -/
  | rejected
  /-- A stage refused its input. -/
  | fault (cause : Fault)
deriving DecidableEq, Repr

/-- The error in words. -/
def SessionError.message : SessionError → String
  | rejected => "found malformed flow nodes"
  | fault cause => cause.message

/-- A step of a session. The state is kept also when the step fails. -/
abbrev Step := EStateM SessionError Session

namespace Session

/-- Writes a notice. -/
def write (notice : Notice) : Step Unit :=
  modify fun session => { session with notices := session.notices ++ [notice] }

/-- Writes a notice if the session is verbose. -/
def tell (notice : Notice) : Step Unit := do
  if (← get).config.verbose then write notice

/-- Reports diagnostics. -/
def report (diagnostics : List Diagnostic) : Step Unit :=
  modify fun session => { session with reporter := session.reporter.emitAll diagnostics }

/-- The result of a stage; a fault makes the step fail. -/
def accept {α : Type} : Except Fault α → Step α
  | .ok a => pure a
  | .error fault => throw (.fault fault)

/-- Reports the defects of a flow. It fails if the reporter holds an error then. -/
def check (flow : Flow) : Step Unit := do
  tell .checking
  report flow.diagnostics
  let session ← get
  tell .checked
  if session.reporter.hasErrors then throw .rejected

/-- Lays a flow out as code. -/
def linearize (flow : Flow) : Step Code := do
  tell .linearizing
  let code ← accept flow.linearize
  tell (.linearized code.length)
  return code

/-- Compresses code. -/
def compress (code : Code) : Step Code := do
  tell .compressing
  let result ← accept code.compress
  tell (.compressed code.length result.length)
  return result

/-- Cuts code into subroutines. -/
def partition (code : Code) : Step Table := do
  tell .partitioning
  let table ← accept code.partition
  tell (.partitioned table.length)
  return table

/-- Checks a flow and lowers it to its table. -/
def lower (flow : Flow) : Step Table := do
  check flow
  let linear ← linearize flow
  let compressed ← compress linear
  let table ← partition compressed
  if !flow.suspends then tell .neverSuspends
  return table

/-- Checks a flow, lowers it to the stage of the configuration and lists the result. -/
def list (flow : Flow) : Step String := do
  check flow
  let linear ← linearize flow
  let stage := (← get).config.stage
  if stage = .linear then return linear.listing
  let compressed ← compress linear
  if stage = .compressed then return compressed.listing
  let table ← partition compressed
  return table.listing

/-- Hands over the reported diagnostics and forgets about errors. -/
def flush : Step Reporter :=
  modifyGet fun session =>
    let flushed := session.reporter.flush
    (flushed.1, { session with reporter := flushed.2 })

/-- Writes the diagnostics of a reporter, and gives the reporter without them. -/
def display (reporter : Reporter) : Step Reporter := do
  let displayed := reporter.display
  write (.diagnostics displayed.1)
  return displayed.2

end Session

/-- What a user can ask of a session. -/
inductive Operation where
  /-- Start over. -/
  | reset
  /-- Change the settings. -/
  | configure (config : Config)
  /-- Report a diagnostic. -/
  | emit (diagnostic : Diagnostic)
  /-- Report the defects of a flow. -/
  | check (flow : Flow)
  /-- Lower a flow to its table. -/
  | lower (flow : Flow)
  /-- List a stage of a flow. -/
  | list (flow : Flow)
  /-- Lay a flow out as code. -/
  | linearize (flow : Flow)
  /-- Compress code. -/
  | compress (code : Code)
  /-- Cut code into subroutines. -/
  | partition (code : Code)
  /-- Hand over the reported diagnostics. -/
  | flush
  /-- Hand over the reported diagnostics and write them. -/
  | flushAndDisplay
  /-- Write the reported diagnostics. -/
  | display

/-- What an operation answers. -/
inductive Reply where
  | nothing
  | accepted
  | table (table : Table)
  | text (text : String)
  | code (code : Code)
  | diagnostics (diagnostics : List Diagnostic)
deriving DecidableEq, Repr

/-- Performs an operation. -/
def Operation.perform : Operation → Step Reply
  | reset => do
    modify fun session => { session with config := {}, reporter := .empty }
    return .nothing
  | configure config => do
    modify fun session => { session with config := config }
    return .nothing
  | emit diagnostic => do
    Session.report [diagnostic]
    return .nothing
  | check flow => do
    Session.check flow
    return .accepted
  | lower flow => return .table (← Session.lower flow)
  | list flow => return .text (← Session.list flow)
  | linearize flow => return .code (← Session.linearize flow)
  | compress code => return .code (← Session.compress code)
  | partition code => return .table (← Session.partition code)
  | flush => return .diagnostics (← Session.flush).pending
  | flushAndDisplay => do
    let _ ← Session.display (← Session.flush)
    return .nothing
  | display => do
    let rest ← Session.display (← get).reporter
    modify fun session => { session with reporter := rest }
    return .nothing

end Resumable
