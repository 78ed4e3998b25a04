import Resumable.Gallery
import Resumable.Script
import Resumable.Session

/-!
# The command line

The program lists a built-in flow at a stage of its lowering and runs it on request.
`CommandLine.parse` reads its arguments from left to right: the first argument that cannot be
understood makes a usage error, unless the version was asked for before it. `CommandLine.run`
is what the program writes and its exit code.
-/

namespace Resumable

/-- A request to list a built-in flow. -/
structure Invocation where
  /-- The name of the flow. -/
  flow : String
  /-- The settings of the session. -/
  config : Config
  /-- If the flow is to be run: for how many evaluations each condition holds. -/
  limit : Option Nat
deriving DecidableEq, Repr

/-- What the program writes, and its exit code. -/
structure Response where
  /-- The exit code. -/
  exit : Nat
  /-- What goes to the standard output. -/
  output : String
  /-- What goes to the standard error. -/
  notices : List Notice
deriving DecidableEq, Repr

namespace CommandLine

/-- An argument by its form. -/
inductive Argument where
  /-- Two dashes alone: all arguments after it are operands. -/
  | separator
  /-- A name after two dashes, and what follows its equals sign. -/
  | long (name : String) (value : Option String)
  /-- Letters after a dash. -/
  | short (letters : List Char)
  /-- Anything else. -/
  | operand (text : String)
deriving DecidableEq, Repr

/-- The form of an argument. A dash alone is an operand. -/
def Argument.ofString (s : String) : Argument :=
  match s.toList with
  | ['-', '-'] => .separator
  | '-' :: '-' :: cs =>
    let value :=
      match cs.dropWhile (· != '=') with
      | [] => none
      | _ :: value => some (String.ofList value)
    .long (String.ofList (cs.takeWhile (· != '='))) value
  | '-' :: c :: cs => .short (c :: cs)
  | _ => .operand s

/-- Options that take a value. -/
inductive Setting where
  | stage
  | run
deriving DecidableEq, Repr

/-- Why the arguments are not read to their end. -/
inductive Halt where
  /-- They cannot be understood. -/
  | usage
  /-- They ask for the version. -/
  | version
deriving DecidableEq, Repr

/-- What is known after some of the arguments. -/
structure Scan where
  /-- The name of the flow. -/
  flow : Option String := none
  /-- The stage that is listed. -/
  stage : Option Stage := none
  /-- For how many evaluations each condition holds. -/
  limit : Option Nat := none
  /-- Whether to tell about progress. -/
  verbose : Bool := false
  /-- The option whose value has to come next. -/
  awaiting : Option Setting := none
  /-- Whether all further arguments are operands. -/
  operandsOnly : Bool := false
deriving DecidableEq, Repr

namespace Scan

/-- Takes the name of the flow, which is given once. -/
def operand (scan : Scan) (text : String) : Except Halt Scan :=
  match scan.flow with
  | none => .ok { scan with flow := some text }
  | some _ => .error .usage

/-- Takes the value of an option, which is given once. -/
def set (scan : Scan) (setting : Setting) (value : String) : Except Halt Scan :=
  match setting with
  | .stage =>
    match scan.stage, Stage.ofName? value with
    | none, some stage => .ok { scan with stage := some stage, awaiting := none }
    | _, _ => .error .usage
  | .run =>
    match scan.limit, Text.readWord? value with
    | none, some limit => .ok { scan with limit := some limit, awaiting := none }
    | _, _ => .error .usage

/-- Takes the value behind the equals sign of an option, or waits for the next argument. -/
def option (scan : Scan) (setting : Setting) : Option String → Except Halt Scan
  | some value => scan.set setting value
  | none => .ok { scan with awaiting := some setting }

/-- Asks for progress to be told, which is done once. -/
def beVerbose (scan : Scan) : Except Halt Scan :=
  if scan.verbose then .error .usage else .ok { scan with verbose := true }

/-- Takes an option of one letter. -/
def letter (scan : Scan) : Char → Except Halt Scan
  | 'v' => scan.beVerbose
  | 'V' => .error .version
  | _ => .error .usage

/-- Takes an option by its name. -/
def long (scan : Scan) : String → Option String → Except Halt Scan
  | "stage", value => scan.option .stage value
  | "run", value => scan.option .run value
  | "verbose", none => scan.beVerbose
  | "version", none => .error .version
  | _, _ => .error .usage

/-- Takes the next argument. The value of an option does not begin with a dash. -/
def step (scan : Scan) (text : String) : Except Halt Scan :=
  if scan.operandsOnly then scan.operand text
  else
    match scan.awaiting, Argument.ofString text with
    | some setting, .operand value => scan.set setting value
    | some _, _ => .error .usage
    | none, .operand text => scan.operand text
    | none, .separator => .ok { scan with operandsOnly := true }
    | none, .long name value => scan.long name value
    | none, .short letters => letters.foldlM letter scan

/-- The invocation, once all arguments were taken. -/
def finish (scan : Scan) : Except Halt Invocation :=
  match scan.awaiting, scan.flow with
  | none, some flow =>
    .ok
      { flow := flow
        config := { verbose := scan.verbose, stage := scan.stage.getD .subroutines }
        limit := scan.limit }
  | _, _ => .error .usage

end Scan

/-- The invocation that the arguments describe. -/
def parse (args : List String) : Except Halt Invocation := do
  let scan ← args.foldlM Scan.step {}
  scan.finish

/-- The failure of the program: the reported diagnostics and then the error are displayed. -/
def failure (session : Session) (output message : String) : Response where
  exit := 1
  output := output
  notices :=
    session.notices
      ++ [.diagnostics session.reporter.display.1,
          .diagnostics (Reporter.ofErrorChain message []).display.1]

/-- The report of a run of the flow's table. -/
def runText (suspensions : Nat) (calls : List Call) : String :=
  "===\n" ++ Call.transcript calls ++ s!"=== completed after {suspensions} suspension(s)\n"

/-- Lowers the flow once more and runs its table, after `output` was written. -/
def runFlow (session : Session) (output : String) (flow : Flow) (limit : Nat) : Response :=
  match (Session.lower flow).run session with
  | .error error session => failure session output error.message
  | .ok table session =>
    let script := (Script.scripted limit).recorded
    match script.complete (.ofTable table) script.start with
    | none => failure session output "the run does not end"
    | some ⟨.error error, _, _⟩ => failure session output error.message
    | some ⟨.ok suspensions, _, host⟩ =>
      { exit := 0
        output := output ++ runText suspensions host.2.toList
        notices := session.notices }

/-- Lists the flow and runs it if that is asked for. -/
def listFlow (invocation : Invocation) (flow : Flow) : Response :=
  match (Session.list flow).run { config := invocation.config } with
  | .error error session => failure session "" error.message
  | .ok text session =>
    match invocation.limit with
    | none => { exit := 0, output := text ++ "\n", notices := session.notices }
    | some limit => runFlow session (text ++ "\n") flow limit

/-- The error for a name that no built-in flow has. -/
def unknownFlow (name : String) : String :=
  s!"unknown flow `{name}`, expected one of: " ++ ", ".intercalate Gallery.names

/-- What the program does with an invocation. -/
def execute (invocation : Invocation) : Response :=
  match Gallery.find? invocation.flow with
  | none => failure { config := invocation.config } "" (unknownFlow invocation.flow)
  | some flow => listFlow invocation flow

/-- How the program is called. -/
def usage : String :=
  "usage: yielding [--stage linear|compressed|subroutines] [--run K] [-v|--verbose] FLOW\n"

/-- What the program does with its arguments. -/
def run (args : List String) : Response :=
  match parse args with
  | .ok invocation => execute invocation
  | .error .version => { exit := 0, output := "yielding 0.1.0\n", notices := [] }
  | .error .usage => { exit := 2, output := "", notices := [.diagnostics usage] }

end CommandLine

end Resumable
