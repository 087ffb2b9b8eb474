import TreeScript.Expr.Eval
import TreeScript.Procedure.Engine
import TreeScript.Procedure.Keyword
import TreeScript.Procedure.Registry

/-!
# Procedures

A procedure has a name, metadata, parameters, variables of its own, and statements.  It is built up from
the items of its text in their order: declarations, assignments and calls.

- `Statement`: what a procedure does.
- `Item`: what a procedure is written with.
- `Procedure.addItem`: what an item adds to a procedure.
-/

namespace TreeScript

/-- One step of a procedure. -/
inductive Statement where
  /-- Writes the value of an expression into a variable. -/
  | assign (target : String) (value : TypedExpr)
  /-- Calls a native function with the values of several expressions. -/
  | call (native : String) (arguments : List TypedExpr)
deriving Repr, DecidableEq

namespace Statement

/-- A statement as a text. -/
def written : Statement → String
  | assign target value => target ++ " <- " ++ value.written
  | call native arguments =>
    native ++ "[" ++ "; ".intercalate (arguments.map TypedExpr.written) ++ "]"

instance : ToString Statement := ⟨written⟩

end Statement

/-- One item of the text of a procedure. -/
inductive Item where
  /-- Declares a name. -/
  | declare (keyword : Keyword) (name : String)
  /-- Declares a name and assigns to it. -/
  | assign (keyword : Keyword) (name : String) (value : TypedExpr)
  /-- Calls a native function; its name, or the item, stands at a place of the text. -/
  | call (native : String) (arguments : List TypedExpr) (position : Position)
deriving Repr, DecidableEq

/-- A named block of statements with variables of its own. -/
structure Procedure where
  name : String
  /-- The node in front of the items. -/
  metadata : Option Node
  /-- The names that arguments are bound to, in order. -/
  parameters : List String
  statements : List Statement
  /-- The variables and what they hold. -/
  locals : Scope
  /-- The variables and what they start with, in the order of their declarations. -/
  declared : List Node
  engine : Engine

namespace Procedure

instance : Keyed Procedure String := ⟨Procedure.name⟩

/-- The room that is reserved for the variables of a procedure. -/
def localsCapacity : Nat := 4

/-- A procedure without items. -/
def blank (name : String) (metadata : Option Node) (engine : Engine) : Procedure where
  name := name
  metadata := metadata
  parameters := []
  statements := []
  locals := .withCapacity localsCapacity
  declared := []
  engine := engine

/-- Declares a name.  A name is a variable of the procedure once, with what its first declaration gives
it; it is a parameter once, at its first declaration as one. -/
def declare (p : Procedure) (keyword : Keyword) (name : String) : Procedure :=
  let entry := Node.leaf name keyword.initial
  let fresh := !p.locals.contains name
  { p with
    parameters :=
      if keyword = .param ∧ name ∉ p.parameters then p.parameters ++ [name] else p.parameters
    locals := if fresh then p.locals.insert entry else p.locals
    declared := if fresh then p.declared ++ [entry] else p.declared }

/-- Adds a statement behind the others. -/
def addStatement (p : Procedure) (s : Statement) : Procedure :=
  { p with statements := p.statements ++ [s] }

/-- Adds an item.  A call to a native function that is not on offer is dropped, or refused if the
procedure's engine is strict. -/
def addItem {α : Type} (natives : Registry α) (p : Procedure) : Item → Except Error Procedure
  | .declare keyword name => .ok (p.declare keyword name)
  | .assign keyword name value => .ok ((p.declare keyword name).addStatement (.assign name value))
  | .call native arguments position =>
    if natives.contains native then .ok (p.addStatement (.call native arguments))
    else if p.engine.strictNatives then .error (.malformed (.nativeUnknown native) position)
    else .ok p

/-- A child of the metadata. -/
def metadata? (p : Procedure) (key : String) : Option Node := p.metadata.bind (·.get? key)

/-- A variable of the procedure. -/
def local? (p : Procedure) (name : String) : Option Node := p.locals.find? name

/-- Gives every variable what it started with. -/
def reset (p : Procedure) : Procedure := { p with locals := .ofList p.declared }

end Procedure

end TreeScript
