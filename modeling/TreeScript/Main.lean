import TreeScript.Command.Run

/-!
# The command line program

Reads the files of a command line, runs it, and writes what it has to say.
-/

namespace TreeScript.Program

/-- The number of a system fault, which may come with its sign turned. -/
def faultNumber (code : UInt32) : Nat := min code.toNat (-code).toNat

/-- A system fault in words. -/
def systemFault (code : UInt32) (details : String) : String :=
  let number := faultNumber code
  match PathFault.ofCode? number with
  | some fault => fault.message
  | none =>
    let description := details.capitalize
    s!"{description} (os error {number})"

/-- Why a file cannot be read. -/
def cause : IO.Error → String
  | .noFileOrDirectory _ code details => systemFault code details
  | .permissionDenied _ code details => systemFault code details
  | .inappropriateType _ code details => systemFault code details
  | .invalidArgument _ code details => systemFault code details
  | .resourceExhausted _ code details => systemFault code details
  | .otherError code details => systemFault code details
  | e => toString e

/-- The bytes of a file, or why it cannot be read. -/
def readBytes (path : String) : IO (Except String (List UInt8)) := do
  try
    let bytes ← IO.FS.readBinFile path
    return .ok bytes.toList
  catch e => return .error (cause e)

/-- How the program is called. -/
def usage : String :=
  "usage: fmt FILE [--flat] | json FILE" ++
    " | eval EXPRESSION [--domain int|decimal|bool] [--var NAME=VALUE]" ++
    " | run FILE FUNCTION [ARGUMENT ...] [--var NAME=VALUE] [--strict]\n" ++
    "options: --config FILE, --log-level LEVEL, --log-format pretty|compact|json"

/-- Runs a list of arguments, and gives the exit code. -/
def run (texts : List String) : IO UInt32 := do
  match Request.parse? texts with
  | none =>
    IO.eprintln usage
    return 2
  | some request =>
    let contents ← request.paths.mapM fun path => do return (path, ← readBytes path)
    let files : Files := fun path => (contents.lookup path).getD (.error "not read")
    let outcome := request.run files
    IO.print outcome.standardOutput
    IO.eprint outcome.standardError
    return outcome.exitCode.toUInt32

end TreeScript.Program

def main (texts : List String) : IO UInt32 := TreeScript.Program.run texts
