import TreeScript.Error

/-!
# Words for truth values

- `truth?`: the truth value that a word stands for, in any case.
- `readTruth`: the same, with an error for all other texts.
-/

namespace TreeScript.Text

/-- A text with its ASCII letters in lower case. -/
def lowered (cs : List Char) : List Char := cs.map Char.toLower

/-- The truth value that a word stands for, in any case of its ASCII letters. -/
def truth? (cs : List Char) : Option Bool :=
  let word := lowered cs
  if word ∈ ["true".toList, "yes".toList, "y".toList] then some true
  else if word ∈ ["false".toList, "no".toList, "n".toList] then some false
  else none

/-- The truth value that a text stands for. -/
def readTruth (cs : List Char) : Except Error Bool :=
  match truth? cs with
  | some b => .ok b
  | none => .error (.unparsable (String.ofList cs) .boolean)

end TreeScript.Text
