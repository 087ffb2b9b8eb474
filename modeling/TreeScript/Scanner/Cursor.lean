import TreeScript.Text.Encoded
import TreeScript.Text.Position

/-!
# Cursors

A cursor reads a source of bytes line by line, and asks for a line only when a character of it is
needed.  A line that comes may hold carriage returns; they divide it into several lines, which wait in a
queue.  A line feed is seen behind each of them, whatever stood there.  A line that is not UTF-8 is taken
for the end of the text, and the cursor remembers that it failed.

- `Cursor.fill`: has a line at hand, if there is one more.
- `Cursor.peek`, `Cursor.next`, `Cursor.accept` and the other readers: single characters.
- `Cursor.takeFault`: tells of the failure, once.

Readers work on a `Scanner`, which has the whole text at hand, and which sees the same.
-/

namespace TreeScript

namespace Text

/-- A text without its last character, if that is a given one. -/
def dropEnd (c : Char) (cs : List Char) : List Char :=
  if cs.getLast? = some c then cs.dropLast else cs

/-- The lines in a line of a source.  Carriage returns divide it; one in front of its end belongs to
the end. -/
def innerLines (line : List Char) : List (List Char) :=
  (dropEnd '\r' (dropEnd '\n' line)).splitOn '\r'

end Text

/-- A place in a source that is read line by line. -/
structure Cursor where
  /-- The lines of the source that were not asked for, with their ends. -/
  lines : List (List UInt8)
  /-- What is left of the line that is being read, without its end. -/
  line : Option (List Char)
  /-- Lines that came with that line, to be read behind it. -/
  queued : List (List Char)
  /-- Whether the source is not to be asked again. -/
  finished : Bool
  /-- Whether the source failed, and nobody was told. -/
  failed : Bool
  /-- The place behind the characters that were read. -/
  position : Position
deriving Repr, DecidableEq, Inhabited

namespace Cursor

/-- A cursor at the first byte of a source, which stands at a given place. -/
def ofBytes (bytes : List UInt8) (origin : Position := .start) : Cursor where
  lines := Text.splitLines (· = 10) bytes
  line := none
  queued := []
  finished := false
  failed := false
  position := origin

/-- Asks the source for a line. -/
def fetch (c : Cursor) : Bool × Cursor :=
  match c.lines with
  | [] => (false, { c with finished := true })
  | bytes :: lines =>
    match Source.decodeLine? bytes with
    | none => (false, { c with lines := lines, finished := true, failed := true })
    | some text =>
      (true,
        { c with
          lines := lines
          line := (Text.innerLines text).head?
          queued := (Text.innerLines text).tail })

/-- Has a line at hand: whether there is one. -/
def fill (c : Cursor) : Bool × Cursor :=
  match c.line, c.queued with
  | some _, _ => (true, c)
  | none, line :: queued => (true, { c with line := some line, queued := queued })
  | none, [] => if c.finished then (false, c) else c.fetch

/-- The next character, which stays in the text: behind the last one of a line, a line feed. -/
def peek (c : Cursor) : Option Char × Cursor :=
  match c.fill with
  | (true, c) => (some ((c.line.getD []).headD '\n'), c)
  | (false, c) => (none, c)

/-- The next character, which is read. -/
def next (c : Cursor) : Option Char × Cursor :=
  match c.peek with
  | (some ch, c) =>
    (some ch,
      { c with
        line := if (c.line.getD []).isEmpty then none else some (c.line.getD []).tail
        position := c.position.step ch })
  | (none, c) => (none, c)

/-- Whether the text is over. -/
def isAtEnd (c : Cursor) : Bool × Cursor := (c.peek.1.isNone, c.peek.2)

/-- Whether a given character is next. -/
def check (ch : Char) (c : Cursor) : Bool × Cursor := (c.peek.1 = some ch, c.peek.2)

/-- Whether the next character is one of a list. -/
def checkAny (set : List Char) (c : Cursor) : Bool × Cursor := (c.peek.1.any (· ∈ set), c.peek.2)

/-- Reads a given character if it is next, and says whether it was. -/
def accept (ch : Char) (c : Cursor) : Bool × Cursor :=
  match c.check ch with
  | (true, c) => (true, c.next.2)
  | (false, c) => (false, c)

/-- Tells of a failure of the source, once. -/
def takeFault (c : Cursor) : Option String × Cursor :=
  if c.failed then (some Source.damage, { c with failed := false }) else (none, c)

end Cursor

end TreeScript
