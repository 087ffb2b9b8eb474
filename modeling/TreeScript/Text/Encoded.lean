import TreeScript.Text.Lines

/-!
# Encoded texts

A source of bytes is read line by line.  The lines in front of the first one that is not UTF-8 are
its text; what follows is out of reach.

- `Source`: the characters that can be read, and whether more bytes follow that cannot.
- `Source.ofBytes`, `Source.ofString`: the two ways to get one.
-/

namespace TreeScript

/-- What a reader can learn from its input. -/
structure Source where
  /-- The characters up to the first line that is not UTF-8. -/
  text : List Char
  /-- Whether such a line follows. -/
  damaged : Bool
deriving Repr, DecidableEq

namespace Source

/-- The characters of one line, if its bytes are UTF-8. -/
def decodeLine? (line : List UInt8) : Option (List Char) :=
  (String.fromUTF8? ⟨line.toArray⟩).map String.toList

/-- Reads lines until one of them is not UTF-8. -/
def ofBytes (bytes : List UInt8) : Source :=
  let lines := (Text.splitLines (· = 10) bytes).map decodeLine?
  { text := ((lines.takeWhile Option.isSome).filterMap id).flatten
    damaged := lines.any Option.isNone }

/-- A string is a source without damage. -/
def ofString (text : String) : Source := ⟨text.toList, false⟩

/-- What is wrong with a damaged source. -/
def damage : String := "stream did not contain valid UTF-8"

end Source

end TreeScript
