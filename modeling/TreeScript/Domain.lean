/-!
# Value domains

Expressions compute in one of three domains.  A stored value can also be asked for as a text, and a
node as a composite one.
-/

namespace TreeScript

/-- What kind of value an expression is asked for. -/
inductive Domain where
  | integer
  | decimal
  | boolean
deriving Repr, DecidableEq

namespace Domain

/-- The domain's name in messages and listings. -/
def name : Domain → String
  | integer => "integer"
  | decimal => "decimal"
  | boolean => "boolean"

end Domain

/-- What a stored node is asked to be. -/
inductive Reading where
  | text
  | composite
  | value (domain : Domain)
deriving Repr, DecidableEq

namespace Reading

/-- The name of the reading in messages. -/
def name : Reading → String
  | text => "text"
  | composite => "composite"
  | value domain => domain.name

end Reading

end TreeScript
