import TreeScript.Domain
import TreeScript.Text.Position

/-!
# Errors

An error is a cause: what went wrong, with the facts that its message needs.  The wording is in one
function for each type.

- `Phase`: the part of the library that finds an error.
- `Flaw`: what can be wrong at a place of a text.
- `Error`: a flaw with its place, or a cause that has no place.
-/

namespace TreeScript

/-- The part of the library that an error or a log line belongs to. -/
inductive Phase where
  | reader
  | tree
  | expression
  | function
deriving Repr, DecidableEq

namespace Phase

/-- The phase's name in reports and configurations. -/
def name : Phase → String
  | reader => "reader"
  | tree => "tree"
  | expression => "expr"
  | function => "function"

/-- Every phase, in the order in which a text passes through them. -/
def all : List Phase := [reader, tree, expression, function]

/-- The phase of a given name. -/
def ofName? (name : String) : Option Phase := all.find? (·.name = name)

theorem mem_all (p : Phase) : p ∈ all := by cases p <;> decide

theorem ofName?_name (p : Phase) : ofName? p.name = some p := by cases p <;> decide

end Phase

/-- What stands where something else was expected: a quoted character, or the end of the text. -/
def foundText : Option Char → String
  | some c => s!"'{c}'"
  | none => "end of input"

/-- What can be wrong at a place of a text. -/
inductive Flaw where
  /-- A section was asked for and its opening delimiter never comes. -/
  | openingExpected (opening : String)
  /-- A section is opened and never closed. -/
  | sectionUnclosed (closing : String)
  /-- A node was asked for at the end of the text. -/
  | nodeExpected
  /-- Text stands in front of the bracket that opens a composite node. -/
  | textBeforeBracket (text : String)
  /-- The value of a leaf has no end. -/
  | valueUnclosed (key : String)
  /-- The key of a composite node has no end. -/
  | keyUnclosed (key : String)
  /-- An operand was asked for and something else stands there. -/
  | operandExpected (found : Option Char)
  /-- An expression is over and its text goes on. -/
  | operatorUnrecognized (found : Char)
  /-- The name of a function has no end. -/
  | functionNameUnclosed (name : String)
  /-- A statement was asked for and a delimiter stands there. -/
  | statementExpected (found : Char)
  /-- A statement starts with a word that is neither a keyword nor a call. -/
  | statementUnknown (word : String)
  /-- A keyword is not followed by a name. -/
  | nameExpected (keyword : String)
  /-- The expression of an assignment has no end. -/
  | assignmentUnclosed (name : String)
  /-- A parameter is given a value. -/
  | parameterInitialized (name : String)
  /-- A parameter declaration goes on as a call. -/
  | parameterCall (name : String)
  /-- A declared name is followed by something else than its three continuations. -/
  | continuationExpected (name : String) (found : Option Char)
  /-- An argument list has no end. -/
  | argumentsUnclosed
  /-- An argument is followed by something else than a separator or the end of its list. -/
  | separatorExpected (found : Option Char)
  /-- A call names no registered native function, and this is not allowed. -/
  | nativeUnknown (name : String)
  /-- A flaw that a program built on this library reports in its own words. -/
  | stated (phase : Phase) (message : String)
deriving Repr, DecidableEq

namespace Flaw

/-- The phase whose rules the text breaks. -/
def phase : Flaw → Phase
  | openingExpected _ | sectionUnclosed _ => .reader
  | nodeExpected | textBeforeBracket _ | valueUnclosed _ | keyUnclosed _ => .tree
  | operandExpected _ | operatorUnrecognized _ => .expression
  | functionNameUnclosed _ | statementExpected _ | statementUnknown _ | nameExpected _
  | assignmentUnclosed _ | parameterInitialized _ | parameterCall _ | continuationExpected _ _
  | argumentsUnclosed | separatorExpected _ | nativeUnknown _ => .function
  | stated phase _ => phase

/-- The flaw in words, without its place. -/
def message : Flaw → String
  | openingExpected opening => s!"expected '{opening}'"
  | sectionUnclosed closing => s!"unterminated section, expected '{closing}'"
  | nodeExpected => "unexpected end of input, expected a node"
  | textBeforeBracket text => s!"unexpected text '{text}' before '['"
  | valueUnclosed key => s!"missing ';' after value of '{key}'"
  | keyUnclosed key => s!"missing ':' after key '{key}'"
  | operandExpected found => "expected an operand, found " ++ foundText found
  | operatorUnrecognized found => s!"unrecognized operator '{found}'"
  | functionNameUnclosed name => s!"missing ':' after function name '{name}'"
  | statementExpected found => s!"expected a statement, found '{found}'"
  | statementUnknown word => s!"unknown statement '{word}'"
  | nameExpected keyword => s!"expected a name after '{keyword}'"
  | assignmentUnclosed name => s!"missing ';' after assignment to '{name}'"
  | parameterInitialized name => s!"parameter '{name}' cannot have an initializer"
  | parameterCall name => s!"'param' cannot introduce a call to '{name}'"
  | continuationExpected name found =>
    s!"expected ';', ':' or '[' after '{name}', found " ++ foundText found
  | argumentsUnclosed => "unterminated argument list, expected ']'"
  | separatorExpected found => "expected ';' or ']' in argument list, found " ++ foundText found
  | nativeUnknown name => s!"unknown native function '{name}'"
  | stated _ message => message

end Flaw

/-- Why an operation of this library fails. -/
inductive Error where
  /-- A text is malformed at some place. -/
  | malformed (flaw : Flaw) (position : Position)
  /-- A text, or the text of a value, is not the literal of a value in the domain. -/
  | unparsable (text : String) (domain : Domain)
  /-- A function was run with the wrong number of arguments. -/
  | argumentCount (function : String) (expected : Nat) (found : Nat)
  /-- An operator has no meaning in the domain that is asked for. -/
  | operatorOutside (symbol : String) (domain : Domain)
  /-- A stored value cannot be read as what is asked for. -/
  | unreadable (key : String) (value : String) (reading : Reading)
  /-- The right operand of a division is zero. -/
  | divisionByZero
  /-- The source of a text failed. -/
  | sourceFailed (message : String)
deriving Repr, DecidableEq

namespace Error

/-- The phase that an error belongs to. -/
def phase : Error → Phase
  | malformed flaw _ => flaw.phase
  | unparsable _ _ | sourceFailed _ => .reader
  | argumentCount _ _ _ => .function
  | operatorOutside _ _ | divisionByZero => .expression
  | unreadable _ _ _ => .tree

/-- The place of an error, for those that have one. -/
def position? : Error → Option Position
  | malformed _ position => some position
  | _ => none

/-- The error in words. -/
def message : Error → String
  | malformed flaw position => s!"[{position.line}:{position.column}] " ++ flaw.message
  | unparsable text domain => s!"cannot parse '{text}' as " ++ domain.name
  | argumentCount function expected found =>
    s!"function '{function}' expects {expected} argument(s), got {found}"
  | operatorOutside symbol domain =>
    s!"operator '{symbol}' cannot produce a " ++ domain.name ++ " value"
  | unreadable key value reading =>
    s!"value '{value}' of '{key}' cannot be read as " ++ reading.name
  | divisionByZero => "division by zero"
  | sourceFailed message => s!"I/O error: {message}"

end Error

end TreeScript
