import TreeScript.Domain
import TreeScript.Text.Blank

/-!
# Command lines

A command line has options, a command, and what belongs to the command.  Options are long; those with a
value have it behind an equals sign or as their next argument.  Behind a double dash nothing is an option.

- `Invocation`: a command line that can be run.
- `Request`: an invocation, or the wish to know the version.
- `Request.parse?`: what a list of arguments asks for, if they fit together.
-/

namespace TreeScript

/-- How log lines are laid out. -/
inductive LogFormat where
  | pretty
  | compact
  | json
deriving Repr, DecidableEq

/-- What a command line asks for. -/
inductive Command where
  /-- Writes a document in its canonical form. -/
  | format (file : String) (flat : Bool)
  /-- Writes a document as JSON. -/
  | json (file : String)
  /-- Evaluates an expression. -/
  | eval (expression : String) (domain : Domain) (bindings : List (String × String))
  /-- Runs a procedure. -/
  | run (file procedure : String) (arguments : List String) (bindings : List (String × String))
      (strict : Bool)
deriving Repr, DecidableEq

/-- A command line that can be run. -/
structure Invocation where
  config : Option String
  logLevel : Option String
  logFormat : LogFormat
  command : Command
deriving Repr, DecidableEq

/-- What the program is asked for. -/
inductive Request where
  | version
  | ofInvocation (invocation : Invocation)
deriving Repr, DecidableEq

namespace Command

/-! ### Arguments -/

/-- One part of a command line. -/
inductive Argument where
  | flag (name : String)
  | option (name value : String)
  | positional (text : String)
deriving Repr, DecidableEq

/-- The options of a command, by the kind of their values. -/
structure Options where
  /-- Options with a value, given at most once. -/
  single : List String
  /-- Options with a value, given any number of times. -/
  repeated : List String
  /-- Options without a value, given at most once. -/
  flags : List String
  /-- The option that ends the options, like a command, by its long name and by its letter. -/
  closing : Option (String × Char)
deriving Repr, DecidableEq

/-- Whether an argument could be an option; a single dash could not. -/
def isDashed (text : String) : Bool := text.startsWith "-" && text != "-"

/-- Whether a text is the option that ends the options.  More letters may follow its own. -/
def isClosing (options : Options) (text : String) : Bool :=
  match options.closing with
  | none => false
  | some (name, letter) => text = "--" ++ name || text.startsWith (String.ofList ['-', letter])

/-- The text of a long option without its dashes: its name, and its value if one is attached. -/
def splitOption (text : List Char) : String × Option String :=
  let name := text.takeWhile (· ≠ '=')
  match text.dropWhile (· ≠ '=') with
  | [] => (String.ofList name, none)
  | _ :: value => (String.ofList name, some (String.ofList value))

/-- The options in front of the first positional argument, double dash or closing option, and the arguments
from there. -/
def leadingOptions? (options : Options) : List String → Option (List Argument × List String)
  | [] => some ([], [])
  | text :: rest =>
    if text = "--" || !isDashed text || isClosing options text then some ([], text :: rest)
    else
      match text.toList with
      | '-' :: '-' :: long =>
        let (name, attached) := splitOption long
        if name ∈ options.flags then
          match attached with
          | some _ => none
          | none => (leadingOptions? options rest).map fun (found, rest) => (.flag name :: found, rest)
        else if name ∈ options.single ++ options.repeated then
          match attached with
          | some value =>
            (leadingOptions? options rest).map fun (found, rest) => (.option name value :: found, rest)
          | none =>
            match rest with
            | [] => none
            | value :: rest =>
              if isDashed value then none
              else
                (leadingOptions? options rest).map fun (found, rest) =>
                  (.option name value :: found, rest)
        else none
      | _ => none

theorem length_leadingOptions?_le {options : Options} {texts rest : List String}
    {found : List Argument} (h : leadingOptions? options texts = some (found, rest)) :
    rest.length ≤ texts.length := by
  fun_induction leadingOptions? options texts generalizing found rest <;>
    grind [Option.map_eq_some_iff]

/-- The parts of a list of arguments. -/
def arguments? (options : Options) (texts : List String) : Option (List Argument) :=
  match _h : leadingOptions? options texts with
  | none => none
  | some (found, []) => some found
  | some (found, text :: rest) =>
    if text = "--" then some (found ++ rest.map .positional)
    else (arguments? options rest).map fun others => found ++ .positional text :: others
termination_by texts.length
decreasing_by
  have := length_leadingOptions?_le _h
  simp only [List.length_cons] at this
  omega

/-- The values of an option, in their order. -/
def valuesOf (name : String) (arguments : List Argument) : List String :=
  arguments.filterMap fun
    | .option other value => if other = name then some value else none
    | _ => none

/-- The positional arguments, in their order. -/
def positionals (arguments : List Argument) : List String :=
  arguments.filterMap fun
    | .positional text => some text
    | _ => none

/-- Whether an option without a value is given. -/
def hasFlag (name : String) (arguments : List Argument) : Bool := .flag name ∈ arguments

/-- Whether no option is given too often. -/
def wellCounted (options : Options) (arguments : List Argument) : Bool :=
  options.single.all (fun name => (valuesOf name arguments).length ≤ 1) &&
    options.flags.all fun name => (arguments.filter (· = .flag name)).length ≤ 1

/-! ### Values -/

/-- A path, which is not empty. -/
def path? (text : String) : Option String := if text.isEmpty then none else some text

/-- A variable and its value, with an equals sign between them. -/
def binding? (text : String) : Option (String × String) :=
  let (name, value) := splitOption text.toList
  let name := String.ofList (Text.trim name.toList)
  if name.isEmpty then none else value.map (name, ·)

/-- The domain of a given name on the command line. -/
def domain? : String → Option Domain
  | "int" => some .integer
  | "decimal" => some .decimal
  | "bool" => some .boolean
  | _ => none

/-- The log format of a given name. -/
def logFormat? : String → Option LogFormat
  | "pretty" => some .pretty
  | "compact" => some .compact
  | "json" => some .json
  | _ => none

/-! ### Commands -/

/-- The options that may stand in front of the command and behind it. -/
def globalOptions : List String := ["config", "log-level", "log-format"]

/-- The options of a command of a given name. -/
def options? : String → Option Options
  | "fmt" => some ⟨globalOptions, [], ["flat"], none⟩
  | "json" => some ⟨globalOptions, [], [], none⟩
  | "eval" => some ⟨globalOptions ++ ["domain"], ["var"], [], none⟩
  | "run" => some ⟨globalOptions, ["var"], ["strict"], none⟩
  | _ => none

/-- The variables that are given, with their values. -/
def bindings? (arguments : List Argument) : Option (List (String × String)) :=
  (valuesOf "var" arguments).mapM binding?

/-- The command of a given name and its arguments. -/
def ofArguments? (name : String) (arguments : List Argument) : Option Command :=
  match name, positionals arguments with
  | "fmt", [file] => (path? file).map (.format · (hasFlag "flat" arguments))
  | "json", [file] => (path? file).map .json
  | "eval", [expression] => do
    let domain ← ((valuesOf "domain" arguments).getLast?.getD "decimal" |> domain?)
    return .eval expression domain (← bindings? arguments)
  | "run", file :: procedure :: rest => do
    return .run (← path? file) procedure rest (← bindings? arguments) (hasFlag "strict" arguments)
  | _, _ => none

end Command

namespace Request

open Command

/-- The options in front of the command. -/
def frontOptions : Options := ⟨globalOptions, [], [], some ("version", 'V')⟩

/-- The invocation of given options and a command.  An option that is given on both sides of the command
counts as given behind it. -/
def invocation? (arguments : List Argument) (command : Command) : Option Invocation := do
  let configs ← (valuesOf "config" arguments).mapM path?
  let formats ← (valuesOf "log-format" arguments).mapM logFormat?
  return {
    config := configs.getLast?
    logLevel := (valuesOf "log-level" arguments).getLast?
    logFormat := formats.getLast?.getD .compact
    command }

/-- What a list of arguments asks for.  The version is told whatever follows the wish to know it. -/
def parse? (texts : List String) : Option Request := do
  let (before, rest) ← leadingOptions? frontOptions texts
  let name :: rest := rest | none
  if !wellCounted frontOptions before then none
  if isClosing frontOptions name then
    let _ ← (valuesOf "config" before).mapM path?
    let _ ← (valuesOf "log-format" before).mapM logFormat?
    return .version
  let options ← options? name
  let behind ← arguments? options rest
  if !wellCounted options behind then none
  let command ← ofArguments? name behind
  let invocation ← invocation? (before ++ behind) command
  return .ofInvocation invocation

end Request

end TreeScript
