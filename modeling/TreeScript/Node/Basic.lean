import TreeScript.Error
import TreeScript.KeyedList
import TreeScript.Scalar

/-!
# Nodes

A document is a list of nodes.  A node has a key; a leaf has a scalar, and a composite node has children
in the order of their keys, at most one for each key.

- `Node.composite`: a composite node of a list of children, of which the last one with a key counts.
- `Node.get?`, `Node.childAt?`, `Node.contains`: children.
- `Node.readText`, `Node.readInteger`, `Node.readDecimal`, `Node.readTruth`: a leaf as a value.
- `Node.add`, `Node.remove`, `Node.setScalar`, `Node.updateAt`: changes.
-/

namespace TreeScript

/-- A leaf, or an inner node of a value tree. -/
inductive Node where
  | leaf (key : String) (scalar : Scalar)
  | branch (key : String) (children : KeyedList Node)

namespace Node

/-- The key of a node. -/
def key : Node → String
  | leaf key _ => key
  | branch key _ => key

instance : Keyed Node String := ⟨key⟩

/-- The node that stands for malformed input. -/
def placeholder : Node := leaf "" .empty

instance : Inhabited Node := ⟨placeholder⟩

/-- Whether a node has neither a key nor content. -/
def isPlaceholder : Node → Bool
  | leaf key (.text t) => key.isEmpty && t.isEmpty
  | _ => false

/-- A leaf whose scalar is inferred from how it is written. -/
def leafOfText (key written : String) : Node := leaf key (.infer written)

/-- A composite node: of several children with one key the last one is kept. -/
def composite (key : String) (children : List Node) : Node :=
  branch key (children.foldl KeyedList.replace .empty)

def isLeaf : Node → Bool
  | leaf _ _ => true
  | branch _ _ => false

def isComposite (node : Node) : Bool := !node.isLeaf

/-- The scalar of a leaf. -/
def scalar? : Node → Option Scalar
  | leaf _ scalar => some scalar
  | branch _ _ => none

/-- The children of a composite node. -/
def children? : Node → Option (KeyedList Node)
  | leaf _ _ => none
  | branch _ children => some children

/-- The number of children; a leaf has none. -/
def size (node : Node) : Nat := (node.children?.map KeyedList.size).getD 0

/-! ### Children -/

/-- The child with a key. -/
def get? (node : Node) (k : String) : Option Node := node.children?.bind (·.find? k)

/-- The child with a key, or the node with that key in a second list. -/
def getOr? (node : Node) (k : String) (fallback : Option (KeyedList Node)) : Option Node :=
  node.get? k <|> fallback.bind (·.find? k)

/-- The child at a place in the order of the keys. -/
def childAt? (node : Node) (index : Nat) : Option Node := node.children?.bind (·.get? index)

/-- Whether there is a child with the key. -/
def contains (node : Node) (k : String) : Bool := (node.get? k).isSome

/-- The node at the end of a path of keys. -/
def descend? (node : Node) : List String → Option Node
  | [] => some node
  | k :: path => (node.get? k).bind (·.descend? path)

/-! ### A leaf as a value -/

/-- A scalar that is not what a node is asked to be. -/
def mismatch (key : String) (scalar : Scalar) (reading : Reading) : Error :=
  .unreadable key scalar.written reading

/-- Reads the scalar of a leaf; a composite node has none. -/
def readScalar {α : Type} (node : Node) (reading : Reading) (convert : Scalar → Option α) :
    Except Error α :=
  match node with
  | leaf key scalar =>
    match convert scalar with
    | some value => .ok value
    | none => .error (mismatch key scalar reading)
  | branch key children => .error (.unreadable key s!"<{children.size} children>" reading)

def readText (node : Node) : Except Error String := node.readScalar .text (some ·.written)

def readInteger (node : Node) : Except Error Int64 :=
  node.readScalar (.value .integer) Scalar.integer?

def readDecimal (node : Node) : Except Error Float :=
  node.readScalar (.value .decimal) Scalar.decimal?

def readTruth (node : Node) : Except Error Bool :=
  node.readScalar (.value .boolean) Scalar.truth?

/-- The words of a leaf's text. -/
def readWords (node : Node) : Except Error (List String) :=
  node.readText.map fun text => (Text.words text.toList).map String.ofList

/-! ### Changes -/

/-- Gives a node a scalar: it becomes a leaf. -/
def setScalar (node : Node) (scalar : Scalar) : Node := leaf node.key scalar

/-- Gives a node a scalar that is inferred from how it is written. -/
def setText (node : Node) (written : String) : Node := node.setScalar (.infer written)

/-- Adds a child in place of the one with its key.  A leaf has no children. -/
def add (node : Node) (child : Node) : Except Error Node :=
  match node with
  | leaf key scalar => .error (mismatch key scalar .composite)
  | branch key children => .ok (branch key (children.replace child))

/-- Takes out the child with a key: the child, if there is one, and the node without it. -/
def remove (node : Node) (k : String) : Option Node × Node :=
  match node with
  | leaf _ _ => (none, node)
  | branch key children => ((children.remove k).1, branch key (children.remove k).2)

/-- Changes the node at the end of a path of keys. -/
def updateAt (change : Node → Node) : List String → Node → Node
  | [], node => change node
  | k :: path, branch key children => branch key (children.update k (updateAt change path))
  | _ :: _, node => node

end Node

end TreeScript
