import TreeScript.Config.Setting
import TreeScript.Error
import TreeScript.Procedure.Engine

/-!
# Configurations

A configuration sets the engine and the level of the log.  It is a record, or the list of what the
record's fields hold in their order; what is missing is as in `Config.default`.

- `Config.parse?`: the configuration that a text stands for.
- `Config.logLevels`: the level of each phase, where the command line may set the general one.
-/

namespace TreeScript

/-- What a program can be configured with. -/
structure Config where
  engine : Engine
  /-- The name of the general log level. -/
  logLevel : Option String
  /-- Names of phases and of their log levels, in the order of the phases' names. -/
  phaseLevels : List (String × String)
deriving Repr, DecidableEq

/-- A log level, from the gravest lines only to all lines. -/
inductive Level where
  | error
  | warn
  | info
  | debug
  | trace
deriving Repr, DecidableEq

namespace Level

/-- The level's name in listings. -/
def name : Level → String
  | error => "ERROR"
  | warn => "WARN"
  | info => "INFO"
  | debug => "DEBUG"
  | trace => "TRACE"

/-- The level of a name in any case; a silent log still holds errors. -/
def ofName? (name : String) : Option Level :=
  let word := String.ofList (name.toList.map Char.toLower)
  if word = "silent" then some error
  else [error, warn, info, debug, trace].find? fun level =>
    level.name.toList.map Char.toLower = word.toList

end Level

/-- The log levels of a run. -/
structure LogLevels where
  general : Level
  ofPhase : Phase → Level

/-- What can be wrong with the log levels of a configuration. -/
inductive LogFault where
  | levelUnknown (name : String)
  | phaseUnknown (name : String)
deriving Repr, DecidableEq

namespace LogFault

/-- The fault in words. -/
def message : LogFault → String
  | levelUnknown name => s!"unknown log level '{name}'"
  | phaseUnknown name => s!"unknown phase '{name}' in phase_log_levels"

end LogFault

namespace Config

/-- The configuration without settings. -/
def default : Config := ⟨{}, none, []⟩

instance : Inhabited Config := ⟨default⟩

/-! ### Settings as values -/

def flag? : Setting → Option Bool
  | .flag b => some b
  | _ => none

def text? : Setting → Option String
  | .text content => content
  | _ => none

/-- A policy is its name, or a record that holds nothing under its name. -/
def policy? : Setting → Option WritePolicy
  | .text content => content.bind WritePolicy.ofName?
  | .record [(name, .null)] => name.bind WritePolicy.ofName?
  | _ => none

/-- A text, or nothing. -/
def optionalText? : Setting → Option (Option String)
  | .null => some none
  | s => (text? s).map some

/-- Puts an entry into a list in the order of the names, in place of the one with its name. -/
def putEntry (entry : String × String) : List (String × String) → List (String × String)
  | [] => [entry]
  | e :: entries =>
    match compare entry.1 e.1 with
    | .lt => entry :: e :: entries
    | .eq => entry :: entries
    | .gt => e :: putEntry entry entries

/-- Texts by name; of several texts with one name the last one counts. -/
def entries? : Setting → Option (List (String × String))
  | .record fields =>
    fields.foldlM (fun entries (name, s) => do return putEntry (← name, ← text? s) entries) []
  | _ => none

/-- A field of a record: its name, and how its setting changes what is configured. -/
structure Field (α : Type) where
  name : String
  set : Setting → α → Option α

/-- Reads settings by name or by place.  Every field may be set once; other names are ignored, and there
are no other places. -/
def fields? {α : Type} (fields : List (Field α)) (initial : α) : Setting → Option α
  | .list settings =>
    if settings.length ≤ fields.length then
      (fields.zip settings).foldlM (fun value (field, s) => field.set s value) initial
    else none
  | .record named => do
    let names ← named.mapM Prod.fst
    let known := names.filter fun name => fields.any (·.name = name)
    if known.eraseDups.length < known.length then none
    else
      (names.zip (named.map Prod.snd)).foldlM (fun value (name, s) =>
        match fields.find? (·.name = name) with
        | some field => field.set s value
        | none => some value) initial
  | _ => none

/-- The fields of an engine. -/
def engineFields : List (Field Engine) :=
  [⟨"strict_natives", fun s e => (flag? s).map fun b => { e with strictNatives := b }⟩,
   ⟨"write_policy", fun s e => (policy? s).map fun p => { e with writePolicy := p }⟩]

/-- The fields of a configuration. -/
def configFields : List (Field Config) :=
  [⟨"engine", fun s c => (fields? engineFields {} s).map fun e => { c with engine := e }⟩,
   ⟨"log_level", fun s c => (optionalText? s).map fun l => { c with logLevel := l }⟩,
   ⟨"phase_log_levels", fun s c => (entries? s).map fun ls => { c with phaseLevels := ls }⟩]

/-- The configuration that a text stands for. -/
def parse? (source : String) : Option Config :=
  (Setting.parse? source).bind (fields? configFields default)

/-! ### Log levels -/

/-- The level of a name. -/
def level (name : String) : Except LogFault Level :=
  match Level.ofName? name with
  | some l => .ok l
  | none => .error (.levelUnknown name)

/-- The general level, which only serious lines reach unless another one is set. -/
def generalLevel (c : Config) (override : Option String) : Except LogFault Level :=
  match override <|> c.logLevel with
  | some name => level name
  | none => .ok .warn

/-- Sets the level of one phase. -/
def setPhase (levels : Phase → Option Level) (entry : String × String) :
    Except LogFault (Phase → Option Level) :=
  match Phase.ofName? entry.1 with
  | none => .error (.phaseUnknown entry.1)
  | some phase => (level entry.2).map fun l p => if p = phase then some l else levels p

/-- The log levels of a configuration, where `override` stands for the name of the general level. -/
def logLevels (c : Config) (override : Option String) : Except LogFault LogLevels := do
  let general ← c.generalLevel override
  let levels ← c.phaseLevels.foldlM setPhase fun _ => none
  return ⟨general, fun p => (levels p).getD general⟩

/-- The name under which the log lines of a phase are known. -/
def logTarget (p : Phase) : String := "neakit::" ++ p.name

end Config

end TreeScript
