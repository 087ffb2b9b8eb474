import TreeScript.Procedure.Basic

/-!
# Running procedures

A run binds the arguments to the parameters and takes the statements in their order.  It stops in front
of a statement that fails; what the statements before it did stays done.

- `Machine`: the two scopes and the calls so far.
- `Statement.step`: one statement.
- `Procedure.run`: a whole run.
-/

namespace TreeScript

/-- A native function that was called, and its arguments. -/
structure Call where
  native : String
  arguments : List Value

/-- The state of a run. -/
structure Machine where
  /-- The variables of the procedure. -/
  locals : Scope
  /-- The variables of its caller. -/
  caller : Scope
  /-- The calls of native functions, the first one first. -/
  calls : List Call

namespace Machine

/-- The scopes in the order in which names are looked up. -/
def scopes (policy : WritePolicy) (m : Machine) : Scopes :=
  match policy with
  | .callerFirst => ⟨m.caller, some m.locals⟩
  | .localFirst => ⟨m.locals, some m.caller⟩

/-- Writes a scalar into the variable of a scope, which is added if it is missing. -/
def write (scope : Scope) (name : String) (scalar : Scalar) : Scope :=
  if scope.contains name then scope.update name (·.setScalar scalar)
  else scope.insert (.leaf name scalar)

/-- Whether a name is written in the scope of the caller: it has to have the name, and the procedure must
not if its own scope comes first. -/
def writesCaller (policy : WritePolicy) (m : Machine) (name : String) : Bool :=
  match policy with
  | .callerFirst => m.caller.contains name
  | .localFirst => !m.locals.contains name && m.caller.contains name

/-- Writes a value into a variable. -/
def assign (policy : WritePolicy) (m : Machine) (name : String) (value : Value) : Machine :=
  if m.writesCaller policy name then { m with caller := write m.caller name value.toScalar }
  else { m with locals := write m.locals name value.toScalar }

end Machine

/-- What a statement does to the state of a run. -/
def Statement.step (policy : WritePolicy) (m : Machine) : Statement → Except Error Machine
  | .assign target value => do
    let v ← value.eval (m.scopes policy)
    return m.assign policy target v
  | .call native arguments => do
    let vs ← arguments.mapM (·.eval (m.scopes policy))
    return { m with calls := m.calls ++ [⟨native, vs⟩] }

/-- Takes statements in their order, up to the first one that fails. -/
def Statement.stepAll (policy : WritePolicy) (m : Machine) : List Statement → Machine × Option Error
  | [] => (m, none)
  | s :: rest =>
    match s.step policy m with
    | .ok m' => stepAll policy m' rest
    | .error e => (m, some e)

namespace Procedure

/-- Binds an argument, whose scalar is inferred from how it is written. -/
def bind (locals : Scope) (binding : String × String) : Scope :=
  Machine.write locals binding.1 (.infer binding.2)

/-- The state in which a run starts. -/
def start (p : Procedure) (arguments : List String) (caller : Scope) : Machine :=
  ⟨(p.parameters.zip arguments).foldl bind p.locals, caller, []⟩

/-- Runs a procedure: the state in which the run ends, and the error that ended it. -/
def run (p : Procedure) (arguments : List String) (caller : Scope) : Machine × Option Error :=
  if arguments.length = p.parameters.length then
    Statement.stepAll p.engine.writePolicy (p.start arguments caller) p.statements
  else
    (⟨p.locals, caller, []⟩,
      some (.argumentCount p.name p.parameters.length arguments.length))

/-- The procedure after a run. -/
def after (p : Procedure) (m : Machine) : Procedure := { p with locals := m.locals }

end Procedure

end TreeScript
