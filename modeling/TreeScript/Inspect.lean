import TreeScript.Procedure.Basic
import TreeScript.Text.Hidden

/-!
# Structural listings

A structural listing shows how a value is built: the name of each constructor, and its fields by name.
Texts stand in quotes, and characters without a visible form as their code points.

- `Listing`: the shapes of listings, and `Listing.written`, their text on one line.
- `Statement.listing`, `Registry.listing`: what can be listed.
-/

namespace TreeScript

namespace Text

/-- A character inside a quoted text of a listing. -/
def listingEscape (c : Char) : List Char :=
  match c with
  | '"' => ['\\', '"']
  | '\\' => ['\\', '\\']
  | '\t' => ['\\', 't']
  | '\n' => ['\\', 'n']
  | '\r' => ['\\', 'r']
  | c =>
    if c.toNat = 0 then ['\\', '0']
    else if isHidden c then "\\u\x7b".toList ++ Nat.toDigits 16 c.toNat ++ ['\x7d']
    else [c]

/-- A text in quotes. -/
def listingQuote (text : String) : String :=
  String.ofList ('"' :: text.toList.flatMap listingEscape ++ ['"'])

end Text

/-- The structure of a value. -/
inductive Listing where
  | word (name : String)
  | text (content : String)
  /-- A constructor with one field, which has no name. -/
  | wrapped (name : String) (content : Listing)
  /-- Several values of one kind. -/
  | many (items : List Listing)
  /-- A constructor with named fields; `more` says that there are others. -/
  | fields (name : String) (named : List (String × Listing)) (more : Bool)

namespace Listing

mutual

/-- A listing on one line. -/
def written : Listing → String
  | word name => name
  | text content => Text.listingQuote content
  | wrapped name content => name ++ "(" ++ content.written ++ ")"
  | many items => "[" ++ ", ".intercalate (writtenAll items) ++ "]"
  | fields name named more =>
    name ++ " \x7b " ++ ", ".intercalate (writtenFields named ++ if more then [".."] else []) ++ " \x7d"

/-- Each of several listings. -/
def writtenAll : List Listing → List String
  | [] => []
  | item :: items => item.written :: writtenAll items

/-- Each of several named listings. -/
def writtenFields : List (String × Listing) → List String
  | [] => []
  | (name, item) :: named => (name ++ ": " ++ item.written) :: writtenFields named

end

end Listing

/-- The name of an operator in listings. -/
def Operator.listing : Operator → Listing
  | .and => .word "And"
  | .or => .word "Or"
  | .equal => .word "Equal"
  | .unequal => .word "Unequal"
  | .plus => .word "Plus"
  | .minus => .word "Minus"
  | .times => .word "Multiply"
  | .divide => .word "Divide"

/-- The name of a domain in listings. -/
def Domain.listing : Domain → Listing
  | .integer => .word "Integer"
  | .decimal => .word "Decimal"
  | .boolean => .word "Boolean"

/-- The structure of an expression. -/
def Expr.listing : Expr → Listing
  | literal t => .wrapped "Literal" (.text t)
  | negative inner => .wrapped "Negative" inner.listing
  | binary op left right =>
    .fields "Binary" [("op", op.listing), ("left", left.listing), ("right", right.listing)] false

/-- The structure of a typed expression. -/
def TypedExpr.listing (e : TypedExpr) : Listing :=
  .fields "ExpressionHolder" [("expression", e.expr.listing), ("domain", e.domain.listing)] false

/-- The structure of a statement; what a native function is, is not shown. -/
def Statement.listing : Statement → Listing
  | assign target value =>
    .fields "Assignment" [("target", .text target), ("holder", value.listing)] false
  | call native arguments =>
    .fields "Call" [("name", .text native), ("args", .many (arguments.map TypedExpr.listing))] true

/-- The names of a registry; what the native functions are, is not shown. -/
def Registry.listing {α : Type} (registry : Registry α) : Listing :=
  .fields "NativeRegistry" [("names", .many (registry.names.map .text))] false

end TreeScript
