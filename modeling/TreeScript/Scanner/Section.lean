import TreeScript.Error
import TreeScript.Scanner.Search

/-!
# Bracketed sections

A section is the text between an opening delimiter and the closing one that belongs to it; the
sections inside it are part of its text.  Its text can be read by a scanner of its own, whose
positions go on from the place of the section.

- `Scanner.readSection`: delimiters of one character.
- `Scanner.readSectionStrings`: delimiters of any length.
- `Scanner.enterSection`: a section as a scanner.
- `Scanner.remaining_scanner_lt`: the scanner of a section has less to read than the one that
  entered it had, so that a reader can recurse into sections.
-/

namespace TreeScript.Scanner

/-- The number of characters in front of the closing delimiter that belongs to `depth` sections which
are open inside the outermost one. -/
def bodyLength? (opening closing : Char) : Nat → List Char → Option Nat
  | _, [] => none
  | depth, c :: cs =>
    if c = closing then
      match depth with
      | 0 => some 0
      | inner + 1 => (bodyLength? opening closing inner cs).map (· + 1)
    else if c = opening then (bodyLength? opening closing (depth + 1) cs).map (· + 1)
    else (bodyLength? opening closing depth cs).map (· + 1)

/-- The text of a section and the place where it starts. -/
structure Section where
  text : List Char
  origin : Position
deriving Repr, DecidableEq

/-- A scanner for the text of a section. -/
def Section.scanner (body : Section) : Scanner := ofChars body.text body.origin

/-- Skips to the first opening delimiter and reads its section. -/
def findSection (opening closing : Char) (s : Scanner) : Except Error Section × Scanner :=
  let outer := s.skipUntilChar opening false
  if outer.stream.isEmpty then
    (.error (.malformed (.openingExpected opening.toString) s.position), outer)
  else
    let inner := outer.advance 1
    match bodyLength? opening closing 0 inner.stream with
    | some n => (.ok ⟨inner.stream.take n, inner.position⟩, inner.advance (n + 1))
    | none =>
      (.error (.malformed (.sectionUnclosed closing.toString) inner.position), inner.drain.2)

/-- Reads the text of the next section. -/
def readSection (opening closing : Char) (s : Scanner) : Except Error (List Char) × Scanner :=
  let (found, s) := s.findSection opening closing
  (found.map Section.text, s)

/-- Reads the next section and opens a scanner for its text. -/
def enterSection (opening closing : Char) (s : Scanner) : Except Error Scanner × Scanner :=
  let (found, s) := s.findSection opening closing
  (found.map Section.scanner, s)

/-! ### Delimiters of any length -/

/-- The text up to the closing delimiter that belongs to `depth` sections which are open inside the
outermost one. -/
def readBody (opening closing : List Char) (depth : Nat) (s : Scanner) :
    Option (List Char) × Scanner :=
  match _h : s.readUntilStrings [opening, closing] with
  | ((_, none), s) => (none, s)
  | ((text, some t), s) =>
    if t = closing then
      match depth with
      | 0 => (some text, s)
      | inner + 1 =>
        let (body, s) := readBody opening closing inner s
        (body.map (text ++ t ++ ·), s)
    else
      let (body, s) := readBody opening closing (depth + 1) s
      (body.map (text ++ t ++ ·), s)
termination_by s.remaining
decreasing_by all_goals exact remaining_readUntilStrings_lt _h

/-- Skips to the first opening delimiter and reads the text of its section. -/
def readSectionStrings (opening closing : String) (s : Scanner) :
    Except Error (List Char) × Scanner :=
  let (found, inner) := s.skipUntilString opening.toList
  if found then
    match inner.readBody opening.toList closing.toList 0 with
    | (some text, s) => (.ok text, s)
    | (none, s) => (.error (.malformed (.sectionUnclosed closing) inner.position), s)
  else (.error (.malformed (.openingExpected opening) s.position), inner)

/-! ### How far a reader gets -/

theorem bodyLength?_lt {opening closing : Char} {depth n : Nat} {cs : List Char}
    (h : bodyLength? opening closing depth cs = some n) : n < cs.length := by
  fun_induction bodyLength? opening closing depth cs generalizing n <;>
    simp_all [Option.map_eq_some_iff] <;> grind

/-- A section that was found is at least two characters shorter than the text it was found in. -/
theorem findSection_lengths {opening closing : Char} {s t : Scanner} {body : Section}
    (h : s.findSection opening closing = (.ok body, t)) :
    body.text.length + 2 + t.remaining ≤ s.remaining := by
  have hskip : (s.skipUntilChar opening false).remaining ≤ s.remaining :=
    remaining_readUntil_le _ _ s
  simp only [findSection] at h
  split at h
  · simp at h
  · rename_i hne
    split at h
    · rename_i n hn
      have hlt := bodyLength?_lt hn
      simp only [Prod.mk.injEq, Except.ok.injEq] at h
      obtain ⟨rfl, rfl⟩ := h
      simp only [remaining, stream_advance, List.length_take, List.length_drop] at *
      omega
    · simp at h

theorem remaining_findSection_lt {opening closing : Char} {s t : Scanner} {body : Section}
    (h : s.findSection opening closing = (.ok body, t)) : t.remaining < s.remaining := by
  have := findSection_lengths h
  omega

/-- The scanner of a section has less to read than the one that entered it had. -/
theorem remaining_scanner_lt {opening closing : Char} {s t : Scanner} {body : Section}
    (h : s.findSection opening closing = (.ok body, t)) :
    body.scanner.remaining < s.remaining := by
  have := findSection_lengths h
  have := Text.length_unifyLineEnds_le body.text
  simp only [remaining, Section.scanner, stream_ofChars] at *
  omega

end TreeScript.Scanner
