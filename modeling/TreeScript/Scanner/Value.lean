import TreeScript.Number.Numeral
import TreeScript.Scanner.Search
import TreeScript.Text.Truth

/-!
# Reading values

The next word of a text as an integer, a decimal number or a truth value.  A word that is not one is
read nevertheless.
-/

namespace TreeScript.Scanner

/-- Reads a word and converts it. -/
def readValue {α : Type} (convert : List Char → Option α) (domain : Domain) (s : Scanner) :
    Except Error α × Scanner :=
  let (word, s) := s.readWord
  match convert word with
  | some value => (.ok value, s)
  | none => (.error (.unparsable (String.ofList word) domain), s)

/-- Reads an integer of 64 bits. -/
def readInteger (s : Scanner) : Except Error Int64 × Scanner := s.readValue Number.integer? .integer

/-- Reads a decimal number, or a word for infinity or for no number. -/
def readDecimal (s : Scanner) : Except Error Float × Scanner :=
  s.readValue Number.decimalOrWord? .decimal

/-- Reads a truth value. -/
def readTruth (s : Scanner) : Except Error Bool × Scanner := s.readValue Text.truth? .boolean

end TreeScript.Scanner
