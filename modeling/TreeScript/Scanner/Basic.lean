import TreeScript.Text.Blank
import TreeScript.Text.Encoded
import TreeScript.Text.LineEnds
import TreeScript.Text.Position

/-!
# Scanners

A scanner is a place in a text from which characters are read.  All of its readers are described
through one view, `Scanner.stream`: the characters that are still to be read.

- `Scanner.advance`, `Scanner.unread`: the two ways to move.
- `Scanner.touch`: what looking at the end of the text does.
- `Scanner.peek`, `Scanner.next`, `Scanner.accept`, `Scanner.takeWhile`, `Scanner.skipBlank`: readers.

Characters that were put back are read first, and they do not move the position: a position counts
the characters that have left the text, whether or not some of them were put back.
-/

namespace TreeScript

/-- What a scanner knows of damage in its source. -/
inductive Fault where
  /-- There is none, or it was reported. -/
  | absent
  /-- The readable text ends in front of some, and nobody has looked that far. -/
  | ahead
  /-- A reader looked for a character behind the readable text. -/
  | met
deriving Repr, DecidableEq

/-- A place in a text. -/
structure Scanner where
  /-- The characters that were put back, to be read first. -/
  pushed : List Char
  /-- The characters that have not left the text. -/
  rest : List Char
  /-- The place behind the characters that have left the text. -/
  position : Position
  /-- Damage at the end of the text. -/
  fault : Fault
deriving Repr, DecidableEq

namespace Scanner

/-- A scanner at the first character of a source, which stands at a given place. -/
def ofSource (source : Source) (origin : Position := .start) : Scanner :=
  { pushed := []
    rest := Text.unifyLineEnds source.text
    position := origin
    fault := if source.damaged then .ahead else .absent }

/-- A scanner at the first character of a text, which stands at a given place. -/
def ofChars (text : List Char) (origin : Position := .start) : Scanner :=
  ofSource ⟨text, false⟩ origin

/-- A scanner at the first character of a string. -/
def ofString (text : String) : Scanner := ofSource (.ofString text)

/-- The characters that are still to be read. -/
def stream (s : Scanner) : List Char := s.pushed ++ s.rest

/-- The scanner after a look at its next character: at the end of the text, damage is met. -/
def touch (s : Scanner) : Scanner :=
  if s.stream.isEmpty && s.fault = .ahead then { s with fault := .met } else s

/-- The scanner behind the next `n` characters, or behind all of them. -/
def advance (n : Nat) (s : Scanner) : Scanner :=
  { s with
    pushed := s.pushed.drop n
    rest := s.rest.drop (n - s.pushed.length)
    position := s.position.after (s.rest.take (n - s.pushed.length)) }

/-- Puts characters back in front of all others. -/
def unread (cs : List Char) (s : Scanner) : Scanner := { s with pushed := cs ++ s.pushed }

/-- Reports damage that was met, once. -/
def takeFault (s : Scanner) : Option String × Scanner :=
  if s.fault = .met then (some Source.damage, { s with fault := .absent }) else (none, s)

/-- The next character, which stays in the text. -/
def peek (s : Scanner) : Option Char × Scanner := (s.stream.head?, s.touch)

/-- The next character, which is read. -/
def next (s : Scanner) : Option Char × Scanner := (s.stream.head?, s.touch.advance 1)

/-- Whether the text is over. -/
def isAtEnd (s : Scanner) : Bool × Scanner := (s.stream.isEmpty, s.touch)

/-- Whether a given character is next. -/
def check (c : Char) (s : Scanner) : Bool × Scanner := (s.stream.head? = some c, s.touch)

/-- Whether the next character is one of a list. -/
def checkAny (set : List Char) (s : Scanner) : Bool × Scanner := (s.stream.head?.any (· ∈ set), s.touch)

/-- Reads a given character if it is next, and says whether it was. -/
def accept (c : Char) (s : Scanner) : Bool × Scanner :=
  if s.stream.head? = some c then (true, s.advance 1) else (false, s.touch)

/-- Reads characters for as long as they pass a test. -/
def takeWhile (p : Char → Bool) (s : Scanner) : List Char × Scanner :=
  let run := s.stream.takeWhile p
  (run, (s.advance run.length).touch)

/-- The scanner at its first character that is not blank. -/
def skipBlank (s : Scanner) : Scanner := (s.takeWhile Text.isBlank).2

/-! ### What each operation does to the stream -/

@[simp] theorem stream_touch (s : Scanner) : s.touch.stream = s.stream := by
  unfold touch; split <;> rfl

@[simp] theorem stream_advance (n : Nat) (s : Scanner) :
    (s.advance n).stream = s.stream.drop n := by
  simp [stream, advance, List.drop_append]

@[simp] theorem stream_unread (cs : List Char) (s : Scanner) :
    (s.unread cs).stream = cs ++ s.stream := by
  simp [stream, unread]

theorem drop_length_takeWhile {α : Type} (p : α → Bool) (xs : List α) :
    xs.drop (xs.takeWhile p).length = xs.dropWhile p := by
  induction xs with
  | nil => rfl
  | cons x xs ih => by_cases h : p x <;> simp [h, ih]

@[simp] theorem stream_takeWhile (p : Char → Bool) (s : Scanner) :
    (s.takeWhile p).2.stream = s.stream.dropWhile p := by
  simp [takeWhile, drop_length_takeWhile]

@[simp] theorem stream_skipBlank (s : Scanner) :
    s.skipBlank.stream = s.stream.dropWhile Text.isBlank :=
  stream_takeWhile _ s

@[simp] theorem stream_ofChars (text : List Char) (origin : Position) :
    (ofChars text origin).stream = Text.unifyLineEnds text := by
  simp [ofChars, ofSource, stream]

/-! ### How far a reader gets -/

/-- The number of characters that are still to be read: every reader's measure. -/
def remaining (s : Scanner) : Nat := s.stream.length

theorem length_dropWhile_le {α : Type} (p : α → Bool) (xs : List α) :
    (xs.dropWhile p).length ≤ xs.length :=
  (List.dropWhile_sublist p).length_le

@[simp] theorem remaining_touch (s : Scanner) : s.touch.remaining = s.remaining := by
  simp [remaining]

@[simp] theorem remaining_advance (n : Nat) (s : Scanner) :
    (s.advance n).remaining = s.remaining - n := by
  simp [remaining]

theorem remaining_takeWhile_le (p : Char → Bool) (s : Scanner) :
    (s.takeWhile p).2.remaining ≤ s.remaining := by
  simpa [remaining] using length_dropWhile_le p s.stream

theorem remaining_skipBlank_le (s : Scanner) : s.skipBlank.remaining ≤ s.remaining :=
  remaining_takeWhile_le _ s

theorem remaining_next_le (s : Scanner) : s.next.2.remaining ≤ s.remaining := by
  simp [next]

theorem remaining_next_lt {s t : Scanner} {c : Char} (h : s.next = (some c, t)) :
    t.remaining < s.remaining := by
  obtain ⟨hhead, rfl⟩ := Prod.mk.inj h
  have hpos : 0 < s.remaining := by
    cases hs : s.stream with
    | nil => simp [hs] at hhead
    | cons => simp [remaining, hs]
  rw [remaining_advance, remaining_touch]
  omega

theorem remaining_accept_le (c : Char) (s : Scanner) :
    (s.accept c).2.remaining ≤ s.remaining := by
  unfold accept; split <;> simp

end Scanner

end TreeScript
