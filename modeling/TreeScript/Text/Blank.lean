/-!
# Blank characters

Every reader of this library skips the same characters: those with the Unicode property
`White_Space`.  Trimming and splitting at blanks are stated over `List Char`.

- `isBlank`: the character class.
- `trimStart`, `trimEnd`, `trim`: a text without its outer blanks.
- `words`: the longest runs without a blank, in order.
-/

namespace TreeScript.Text

/-- The ranges of code points with the property `White_Space`, both ends included. -/
def blankRanges : List (Nat × Nat) :=
  [(0x0009, 0x000D), (0x0020, 0x0020), (0x0085, 0x0085), (0x00A0, 0x00A0), (0x1680, 0x1680),
   (0x2000, 0x200A), (0x2028, 0x2029), (0x202F, 0x202F), (0x205F, 0x205F), (0x3000, 0x3000)]

/-- A character is blank when its code point lies in one of the `blankRanges`. -/
def isBlank (c : Char) : Bool :=
  blankRanges.any fun (low, high) => low ≤ c.toNat && c.toNat ≤ high

/-- The text from its first character that is not blank. -/
def trimStart (cs : List Char) : List Char := cs.dropWhile isBlank

/-- The text up to its last character that is not blank. -/
def trimEnd (cs : List Char) : List Char := (cs.reverse.dropWhile isBlank).reverse

/-- The text without the blanks at either end. -/
def trim (cs : List Char) : List Char := trimEnd (trimStart cs)

/-- The pieces between single blanks, empty ones included; there is always at least one. -/
def pieces (cs : List Char) : List (List Char) :=
  cs.foldr (fun c ps => if isBlank c then [] :: ps else (c :: ps.headD []) :: ps.tail) [[]]

/-- The longest runs of characters that are not blank, in the order of the text. -/
def words (cs : List Char) : List (List Char) := (pieces cs).filter (!·.isEmpty)

/-- Every character that the core library calls white space is blank. -/
theorem isBlank_of_isWhitespace {c : Char} (h : c.isWhitespace = true) : isBlank c = true := by
  simp only [Char.isWhitespace, Bool.or_eq_true, decide_eq_true_eq] at h
  rcases h with ((rfl | rfl) | rfl) | rfl <;> decide

end TreeScript.Text
