/-!
# Engine settings

How procedures are read and run: whether calls have to name a native function that exists, and in which
scope a name is looked up and written first.
-/

namespace TreeScript

/-- Which of its two scopes a procedure prefers. -/
inductive WritePolicy where
  /-- A name that the caller has is the caller's. -/
  | callerFirst
  /-- A name that the procedure has is the procedure's. -/
  | localFirst
deriving Repr, DecidableEq

namespace WritePolicy

/-- The policy's name in configurations. -/
def name : WritePolicy → String
  | callerFirst => "caller_first"
  | localFirst => "local_first"

/-- The policy of a given name. -/
def ofName? (name : String) : Option WritePolicy :=
  [callerFirst, localFirst].find? (·.name = name)

theorem ofName?_name (p : WritePolicy) : ofName? p.name = some p := by cases p <;> decide

end WritePolicy

/-- The settings with which a procedure is read, and which it keeps. -/
structure Engine where
  /-- Whether a call that names no native function is an error; otherwise it is dropped. -/
  strictNatives : Bool := false
  writePolicy : WritePolicy := .callerFirst
deriving Repr, DecidableEq

instance : Inhabited Engine := ⟨{}⟩

end TreeScript
