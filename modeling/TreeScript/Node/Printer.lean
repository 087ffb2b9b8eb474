import TreeScript.Node.Basic

/-!
# Writing nodes

A leaf is one line, `key: value;`.  A composite node is a line `[key:`, the lines of its children behind
one more tab, and a line `]`.
-/

namespace TreeScript.Node

mutual

/-- The lines of a node. -/
def lines : Node → List String
  | leaf key scalar => [key ++ ": " ++ scalar.written ++ ";"]
  | branch key ⟨children, _⟩ =>
    ("[" ++ key ++ ":") :: (linesOfAll children).map ("\t" ++ ·) ++ ["]"]

/-- The lines of several nodes, one after the other. -/
def linesOfAll : List Node → List String
  | [] => []
  | node :: nodes => node.lines ++ linesOfAll nodes

end

/-- A number of tabs. -/
def tabs (indent : Nat) : String := String.ofList (List.replicate indent '\t')

/-- A node as a text, each of its lines behind a number of tabs. -/
def render (node : Node) (indent : Nat) : String :=
  "\n".intercalate (node.lines.map (tabs indent ++ ·))

/-- A node as a text. -/
def written (node : Node) : String := node.render 0

instance : ToString Node := ⟨written⟩

/-- A list of nodes as a text, each of them with a line end. -/
def document (nodes : List Node) : String := String.join (nodes.map (·.written ++ "\n"))

end TreeScript.Node
