/-!
# Line ends

Texts come with line feeds, carriage returns, or pairs of both.  A reader sees one line feed for
each of them, and one more behind a last line that has none.

- `unifyLineEnds`: the text as a reader sees it.
-/

namespace TreeScript.Text

/-- The text with each line end written as one line feed, and its last line ended. -/
def unifyLineEnds : List Char → List Char
  | [] => []
  | '\r' :: '\n' :: cs => '\n' :: unifyLineEnds cs
  | '\r' :: cs => '\n' :: unifyLineEnds cs
  | '\n' :: cs => '\n' :: unifyLineEnds cs
  | [c] => [c, '\n']
  | c :: d :: cs => c :: unifyLineEnds (d :: cs)

/-- Ending the last line is the only way in which the text can grow. -/
theorem length_unifyLineEnds_le (cs : List Char) : (unifyLineEnds cs).length ≤ cs.length + 1 := by
  fun_induction unifyLineEnds cs <;> grind

end TreeScript.Text
