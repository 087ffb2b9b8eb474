import TreeScript.Command.Arguments
import TreeScript.Command.Excerpt
import TreeScript.Command.FileTree
import TreeScript.Config.Basic
import TreeScript.Json.Printer
import TreeScript.Node.Printer
import TreeScript.Node.Reader
import TreeScript.Procedure.Reader
import TreeScript.Procedure.Run

/-!
# Running commands

A command reads files, writes lines, and may fail.  Reading is given by a function from paths to what the
files hold, so that a run is a function of its command line and its files.

- `Command.perform`: one command.
- `Invocation.run`: a command line with its configuration.
- `Request.run`: what the program is asked for.
-/

namespace TreeScript

/-- What the files of given paths hold, or why they cannot be read. -/
abbrev Files := String → Except String (List UInt8)

/-- The files that paths lead to from a place in a file tree. -/
def Place.files (p : Place) : Files := fun path => (p.read path).mapError PathFault.message

/-- Why a command fails. -/
inductive Failure where
  /-- A cause in words. -/
  | stated (message : String)
  /-- An error in a source. -/
  | inSource (error : Error) (source : String)

namespace Failure

/-- The lines that report a failure.  An error with a place comes with an excerpt of its source. -/
def report : Failure → List String
  | stated message => [s!"error: {message}"]
  | inSource error source =>
    let name := error.phase.name
    let message := error.message
    s!"error[{name}]: {message}" ::
      match error.position? with
      | some place => Command.excerpt source place.line place.column
      | none => []

end Failure

/-- What a command did. -/
structure Outcome where
  /-- The lines that it wrote. -/
  lines : List String
  /-- Why it stopped before its end. -/
  failure : Option Failure

namespace Outcome

/-- A command that wrote its lines and did not fail. -/
def done (lines : List String) : Outcome := ⟨lines, none⟩

/-- A command that failed before it wrote anything. -/
def failed (failure : Failure) : Outcome := ⟨[], some failure⟩

def exitCode (o : Outcome) : Nat := if o.failure.isSome then 1 else 0

/-- Lines as a text, each with a line end. -/
def text (lines : List String) : String := String.join (lines.map (· ++ "\n"))

/-- What was written to the standard output. -/
def standardOutput (o : Outcome) : String := text o.lines

/-- What was written to the standard error. -/
def standardError (o : Outcome) : String :=
  text ((o.failure.map Failure.report).getD [])

/-- The outcome of a computation that ends with an outcome or with a failure. -/
def ofExcept : Except Failure Outcome → Outcome
  | .ok o => o
  | .error f => failed f

end Outcome

namespace Command

/-- The text of a file. -/
def readFile (files : Files) (path : String) : Except Failure String :=
  match files path with
  | .error cause => .error (.stated s!"cannot read '{path}': {cause}")
  | .ok bytes =>
    match String.fromUTF8? ⟨bytes.toArray⟩ with
    | some text => .ok text
    | none =>
      let cause := Source.damage
      .error (.stated s!"cannot read '{path}': {cause}")

/-- An error in a source, as a failure. -/
def blame {α : Type} (source : String) (result : Except Error α) : Except Failure α :=
  result.mapError (.inSource · source)

/-- The nodes of a file. -/
def readDocument (files : Files) (mode : ReadMode) (path : String) : Except Failure (List Node) := do
  let source ← readFile files path
  blame source (Node.parseSource mode (.ofString source))

/-- The scope of several variables. -/
def scopeOf (bindings : List (String × String)) : Scope :=
  .ofList (bindings.map fun (name, value) => Node.leafOfText name value)

/-- The native function that a procedure can call: it writes its arguments as one line. -/
def natives : Registry Unit := Registry.empty.register "print" ()

/-- The line that a call of the native function writes. -/
def printed (call : Call) : String := " ".intercalate (call.arguments.map Value.written)

/-- Writes a document in its canonical form, without placeholders. -/
def formatDocument (files : Files) (file : String) (flat : Bool) : Except Failure Outcome := do
  let nodes ← readDocument files (if flat then .flat else .recursive) file
  return .done ((nodes.filter (!·.isPlaceholder)).map Node.written)

/-- Writes a document as JSON. -/
def convertDocument (files : Files) (file : String) : Except Failure Outcome := do
  let nodes ← readDocument files .recursive file
  return .done [(Json.ofNodes nodes).written]

/-- Evaluates an expression. -/
def evaluate (expression : String) (domain : Domain) (bindings : List (String × String)) :
    Except Failure Outcome := do
  let e ← blame expression (Expr.parse expression)
  let value ← blame expression (TypedExpr.eval ⟨scopeOf bindings, none⟩ ⟨e, domain⟩)
  return .done [value.written]

/-- Runs a procedure of a file.  Its calls write their lines, and at the end the variables of its caller
are written. -/
def runProcedure (files : Files) (engine : Engine) (file procedure : String)
    (arguments : List String) (bindings : List (String × String)) : Except Failure Outcome := do
  let source ← readFile files file
  let procedures ← blame source (Procedure.parseAll natives engine source)
  match procedures.find? procedure with
  | none => throw (.stated s!"no function named '{procedure}' in '{file}'")
  | some p =>
    let (machine, error) := p.run arguments (scopeOf bindings)
    let calls := machine.calls.map printed
    match error with
    | some e => return ⟨calls, some (.inSource e source)⟩
    | none => return .done (calls ++ machine.caller.items.map Node.written)

/-- Runs a command. -/
def perform (files : Files) (engine : Engine) : Command → Except Failure Outcome
  | .format file flat => formatDocument files file flat
  | .json file => convertDocument files file
  | .eval expression domain bindings => evaluate expression domain bindings
  | .run file procedure arguments bindings strict =>
    let engine := { engine with strictNatives := engine.strictNatives || strict }
    runProcedure files engine file procedure arguments bindings

/-- The file that a command reads. -/
def file? : Command → Option String
  | .format file _ => some file
  | .json file => some file
  | .eval _ _ _ => none
  | .run file _ _ _ _ => some file

end Command

namespace Invocation

/-- The configuration of a file. -/
def readConfig (files : Files) : Option String → Except Failure Config
  | none => .ok .default
  | some path => do
    let source ← Command.readFile files path
    match Config.parse? source with
    | some config => return config
    | none => throw (.stated s!"cannot parse '{path}': not a configuration")

/-- The configuration of a command line and the levels of its log, which have to be known levels. -/
def settings (files : Files) (i : Invocation) : Except Failure (Config × LogLevels) := do
  let config ← readConfig files i.config
  let levels ← (config.logLevels i.logLevel).mapError fun fault => Failure.stated fault.message
  return (config, levels)

/-- Runs a command line. -/
def run (files : Files) (i : Invocation) : Outcome :=
  .ofExcept do
    let (config, _) ← i.settings files
    i.command.perform files config.engine

/-- The files that a command line reads. -/
def paths (i : Invocation) : List String := i.config.toList ++ i.command.file?.toList

end Invocation

namespace Request

/-- The line that names the program and its version. -/
def versionLine : String := "nea 0.1.0"

/-- Does what the program is asked for. -/
def run (files : Files) : Request → Outcome
  | version => .done [versionLine]
  | ofInvocation i => i.run files

/-- The files that have to be read for it. -/
def paths : Request → List String
  | version => []
  | ofInvocation i => i.paths

end Request

end TreeScript
