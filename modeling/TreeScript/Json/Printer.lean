import TreeScript.Json.Basic

/-!
# Writing JSON

A JSON value is written over several lines: each member of an object has a line of its own, behind two
more blanks than the object.
-/

namespace TreeScript.Json

/-- A hexadecimal number of four digits. -/
def hexFour (n : Nat) : List Char :=
  let digits := Nat.toDigits 16 n
  List.replicate (4 - digits.length) '0' ++ digits

/-- A character inside a quoted text. -/
def escape (c : Char) : List Char :=
  match c with
  | '"' => ['\\', '"']
  | '\\' => ['\\', '\\']
  | '\x08' => ['\\', 'b']
  | '\t' => ['\\', 't']
  | '\n' => ['\\', 'n']
  | '\x0c' => ['\\', 'f']
  | '\r' => ['\\', 'r']
  | c => if c.toNat < 0x20 then '\\' :: 'u' :: hexFour c.toNat else [c]

/-- A text in quotes. -/
def quote (text : String) : String := String.ofList ('"' :: text.toList.flatMap escape ++ ['"'])

/-- A line end and two blanks for each level. -/
def newline (level : Nat) : String := String.ofList ('\n' :: List.replicate (2 * level) ' ')

mutual

/-- A value whose lines stand behind the blanks of a level. -/
def render (level : Nat) : Json → String
  | null => "null"
  | boolean b => if b then "true" else "false"
  | integer n => toString n.toInt
  | decimal x => String.ofList (Number.Layout.json.render x)
  | string text => quote text
  | object [] => "\x7b\x7d"
  | object (member :: members) =>
    "\x7b" ++ newline (level + 1) ++
      (newline (level + 1)).intercalate (renderMembers (level + 1) (member :: members)) ++
      newline level ++ "\x7d"

/-- The members of an object, each but the last one with a comma. -/
def renderMembers (level : Nat) : List (String × Json) → List String
  | [] => []
  | [(name, value)] => [quote name ++ ": " ++ render level value]
  | (name, value) :: members =>
    (quote name ++ ": " ++ render level value ++ ",") :: renderMembers level members

end

/-- A value as a text. -/
def written (value : Json) : String := value.render 0

instance : ToString Json := ⟨written⟩

end TreeScript.Json
