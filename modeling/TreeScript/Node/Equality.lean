import TreeScript.Node.Basic

/-!
# Equality of nodes

Two nodes are equal when they have the same key and equal scalars, or the same key, equal children and
the same room for them.  Decimal numbers are compared as numbers, so that a node that holds no number
differs from itself.
-/

namespace TreeScript

/-- Scalars of one type with equal values. -/
def Scalar.same : Scalar → Scalar → Bool
  | .text s, .text t => s == t
  | .integer m, .integer n => m == n
  | .decimal x, .decimal y => x == y
  | .boolean b, .boolean c => b == c
  | _, _ => false

namespace Node

mutual

/-- Whether two nodes are equal. -/
def same : Node → Node → Bool
  | leaf k s, leaf l t => k == l && s.same t
  | branch k ⟨xs, c⟩, branch l ⟨ys, d⟩ => k == l && c == d && sameAll xs ys
  | _, _ => false

/-- Whether two lists of nodes are equal. -/
def sameAll : List Node → List Node → Bool
  | [], [] => true
  | x :: xs, y :: ys => same x y && sameAll xs ys
  | _, _ => false

end

instance : BEq Node := ⟨same⟩

end Node

end TreeScript
