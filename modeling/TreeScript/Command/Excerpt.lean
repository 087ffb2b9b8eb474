import TreeScript.Text.Lines

/-!
# Excerpts

An excerpt shows a line of a source with its number, up to three lines on either side of it, and a mark
under a column.  Lines end at a line feed, or at a carriage return and a line feed.
-/

namespace TreeScript.Command

/-- A line without its line end. -/
def withoutLineEnd (line : List Char) : List Char :=
  match line.reverse with
  | '\n' :: '\r' :: cs => cs.reverse
  | '\n' :: cs => cs.reverse
  | _ => line

/-- The lines of a source, without their line ends. -/
def sourceLines (source : String) : List (List Char) :=
  (Text.splitLines (· = '\n') source.toList).map withoutLineEnd

/-- A text behind as many blanks as make it `width` characters long. -/
def padded (width : Nat) (text : List Char) : List Char :=
  List.replicate (width - text.length) ' ' ++ text

/-- The number of lines that an excerpt shows on either side. -/
def excerptReach : Nat := 3

/-- The mark under a column: tabs of the line stay tabs, so that the mark stands where the column does. -/
def markLine (width column : Nat) (line : List Char) : List Char :=
  padded width [] ++ " | ".toList ++
    (line.take (column - 1)).map (fun c => if c = '\t' then '\t' else ' ') ++ ['^']

/-- A line with its number. -/
def numberedLine (width number : Nat) (line : List Char) : List Char :=
  padded width (Nat.toDigits 10 number) ++ " | ".toList ++ line

/-- The excerpt around a place of a source; there is none around a line that the source does not have. -/
def excerpt (source : String) (line column : Nat) : List String :=
  let lines := sourceLines source
  if line = 0 ∨ lines.length < line then []
  else
    let first := max (line - excerptReach) 1
    let last := min (line + excerptReach) lines.length
    let width := (Nat.toDigits 10 last).length
    let separator := List.replicate (width + 1) '-' ++ "|--".toList
    let shown := ((lines.zipIdx 1).take last).drop (first - 1)
    let rows := shown.flatMap fun (text, number) =>
      if number = line then [numberedLine width number text, markLine width column text]
      else [numberedLine width number text]
    (separator :: rows ++ [separator]).map String.ofList

end TreeScript.Command
