import TreeScript.Node.Basic

/-!
# Documents as JSON

A list of nodes is a JSON object whose members are the nodes.  Placeholders are left out, and of several
nodes with one key the last one counts.

- `Json`: the values of JSON documents; the members of an object stand in the order of their names.
- `Json.ofNodes`: a document as a JSON object.
-/

namespace TreeScript

/-- A JSON value.  Integers and decimal numbers are distinct. -/
inductive Json where
  | null
  | boolean (value : Bool)
  | integer (value : Int64)
  | decimal (value : Float)
  | string (text : String)
  | object (members : List (String × Json))

namespace Json

/-- Puts a member into a list in the order of the names, if none has its name. -/
def addMember (name : String) (value : Json) : List (String × Json) → List (String × Json)
  | [] => [(name, value)]
  | (name', value') :: members =>
    match compare name name' with
    | .lt => (name, value) :: (name', value') :: members
    | .eq => (name', value') :: members
    | .gt => (name', value') :: addMember name value members

/-- A scalar as a JSON value; there are no JSON numbers for infinity and for no number. -/
def ofScalar : Scalar → Json
  | .text text => .string text
  | .integer n => .integer n
  | .decimal x => if Number.isFinite x then .decimal x else .null
  | .boolean b => .boolean b

mutual

/-- What a node holds, as a JSON value. -/
def ofNode : Node → Json
  | .leaf _ scalar => ofScalar scalar
  | .branch _ ⟨children, _⟩ => .object (membersOf children)

/-- The members that several nodes stand for. -/
def membersOf : List Node → List (String × Json)
  | [] => []
  | node :: nodes =>
    if node.isPlaceholder then membersOf nodes
    else addMember node.key (ofNode node) (membersOf nodes)

end

/-- A list of nodes as a JSON object. -/
def ofNodes (nodes : List Node) : Json := .object (membersOf nodes)

end Json

end TreeScript
