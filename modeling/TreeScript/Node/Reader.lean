import TreeScript.Node.Basic
import TreeScript.Scanner.Section

/-!
# Reading nodes

```
document  := node*
node      := leaf | composite
leaf      := key ':' value ';'
composite := '[' key ':' node* ']'
```

The key of a node is the text up to the first bracket or colon, without its outer blanks; a closing
bracket there stands for a placeholder.  The inside of a composite node is a section, which is read by a
scanner of its own.

- `Node.readWith`: one node, given how the nodes of a section are read.
- `Node.readAll`: nodes up to the end of the text, by recursion on the length of the text.
- `Node.remaining_readWith_lt`: a node that was read takes up at least one character.
-/

namespace TreeScript

/-- How the inside of a composite node is read. -/
inductive ReadMode where
  /-- As nodes. -/
  | recursive
  /-- As one text. -/
  | flat
deriving Repr, DecidableEq

namespace Node

/-- A text without its outer blanks, as a key. -/
def keyOf (cs : List Char) : String := String.ofList (Text.trim cs)

/-- Reads the value of a leaf, from behind the colon.  The node starts at `start`. -/
def readLeaf (key : List Char) (start : Position) (s : Scanner) : Except Error Node × Scanner :=
  let (value, s) := s.skipBlank.readUntilChar ';' false
  match s.accept ';' with
  | (true, s) => (.ok (leafOfText (keyOf key) (String.ofList (Text.trimEnd value))), s)
  | (false, s) => (.error (.malformed (.valueUnclosed (keyOf key)) start), s)

/-- Reads the inside of a composite node, given how the nodes in it are read. -/
def readInside (mode : ReadMode) (inner : Scanner)
    (readNodes : (t : Scanner) → t.remaining ≤ inner.remaining → Except Error (List Node)) :
    Except Error Node :=
  let start := inner.skipBlank
  let head := start.readUntilChar ':' false
  let key := keyOf head.1
  match head.2.accept ':' with
  | (false, _) => .error (.malformed (.keyUnclosed key) start.position)
  | (true, _) =>
    let body := (head.2.accept ':').2
    match mode with
    | .flat => .ok (leaf key (.text (keyOf body.readToEnd.1)))
    | .recursive =>
      (readNodes body (by
        have h₁ := inner.remaining_skipBlank_le
        have h₂ := start.remaining_readUntil_le (· = ':') false
        have h₃ := head.2.remaining_accept_le ':'
        exact Nat.le_trans h₃ (Nat.le_trans h₂ h₁))).map (composite key)

/-- Reads one node, given how the nodes of a section are read. -/
def readWith (mode : ReadMode) (s : Scanner)
    (readNodes : (t : Scanner) → t.remaining < s.remaining → Except Error (List Node)) :
    Except Error Node × Scanner :=
  let start := s.skipBlank
  let head := start.readUntilAny ['[', ':', ']'] false
  match head.2.stream with
  | [] => (.error (.malformed .nodeExpected start.position), head.2)
  | ']' :: _ => (.ok placeholder, head.2.advance 1)
  | ':' :: _ => readLeaf head.1 start.position (head.2.advance 1)
  | _ :: _ =>
    if Text.trim head.1 ≠ [] then
      (.error (.malformed (.textBeforeBracket (keyOf head.1)) start.position), head.2)
    else
      match h : head.2.findSection '[' ']' with
      | (.error e, t) => (.error e, t)
      | (.ok body, t) =>
        (readInside mode body.scanner fun u hu => readNodes u (by
          have h₁ := s.remaining_skipBlank_le
          have h₂ := start.remaining_readUntil_le (· ∈ ['[', ':', ']']) false
          have h₃ := Scanner.remaining_scanner_lt h
          exact Nat.lt_of_le_of_lt hu (Nat.lt_of_lt_of_le h₃ (Nat.le_trans h₂ h₁))), t)

theorem remaining_readLeaf_le (key : List Char) (start : Position) (s : Scanner) :
    (readLeaf key start s).2.remaining ≤ s.remaining := by
  have h₁ := s.remaining_skipBlank_le
  have h₂ := s.skipBlank.remaining_readUntil_le (· = ';') false
  have h₃ := (s.skipBlank.readUntilChar ';' false).2.remaining_accept_le ';'
  unfold readLeaf
  simp only [Scanner.readUntilChar] at *
  split <;> simp_all <;> omega

/-- A node that was read takes up at least one character. -/
theorem remaining_readWith_lt {mode : ReadMode} {s t : Scanner} {node : Node}
    {readNodes : (t : Scanner) → t.remaining < s.remaining → Except Error (List Node)}
    (h : readWith mode s readNodes = (.ok node, t)) : t.remaining < s.remaining := by
  have h₁ := s.remaining_skipBlank_le
  have h₂ := s.skipBlank.remaining_readUntil_le (· ∈ ['[', ':', ']']) false
  simp only [readWith] at h
  split at h
  · simp at h
  · rename_i hs
    simp only [Prod.mk.injEq] at h
    obtain ⟨-, rfl⟩ := h
    simp only [Scanner.readUntilAny, Scanner.remaining, Scanner.stream_advance] at *
    simp only [hs] at *
    simp at *
    omega
  · rename_i cs hs
    have h₃ := remaining_readLeaf_le (s.skipBlank.readUntilAny ['[', ':', ']'] false).1
      s.skipBlank.position ((s.skipBlank.readUntilAny ['[', ':', ']'] false).2.advance 1)
    rw [h] at h₃
    simp only [Scanner.readUntilAny, Scanner.remaining, Scanner.stream_advance] at *
    simp only [hs] at *
    simp at *
    omega
  · split at h
    · simp at h
    · split at h
      · simp at h
      · rename_i hb
        simp only [Prod.mk.injEq] at h
        obtain ⟨-, rfl⟩ := h
        have h₃ := Scanner.remaining_findSection_lt hb
        simp only [Scanner.readUntilAny] at *
        omega

/-- Reads nodes up to the end of the text. -/
def readAll (mode : ReadMode) (s : Scanner) : Except Error (List Node) × Scanner :=
  if s.skipBlank.stream.isEmpty then (.ok [], s.skipBlank)
  else
    match _h : readWith mode s (fun t _ => (readAll mode t).1) with
    | (.error e, t) => (.error e, t)
    | (.ok node, t) =>
      let (nodes, u) := readAll mode t
      (nodes.map (node :: ·), u)
termination_by s.remaining
decreasing_by
  · assumption
  · exact remaining_readWith_lt _h

/-- Reads one node. -/
def read (mode : ReadMode) (s : Scanner) : Except Error Node × Scanner :=
  readWith mode s fun t _ => (readAll mode t).1

/-- The first node of a text. -/
def parse (text : String) : Except Error Node := (read .recursive (.ofString text)).1

/-- The nodes of a text. -/
def parseAll (text : String) : Except Error (List Node) := (readAll .recursive (.ofString text)).1

/-- The nodes of a source.  Damage that was met outweighs every other error. -/
def parseSource (mode : ReadMode) (source : Source) : Except Error (List Node) :=
  let (nodes, s) := readAll mode (.ofSource source)
  match s.takeFault with
  | (some message, _) => .error (.sourceFailed message)
  | (none, _) => nodes

end Node

end TreeScript
