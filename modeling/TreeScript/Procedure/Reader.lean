import TreeScript.Expr.Reader
import TreeScript.Node.Reader
import TreeScript.Procedure.Basic

/-!
# Reading procedures

```
procedure   := '[' name ':' composite? item* ']'
item        := keyword name ';'
             | keyword name ':' expression ';'
             | keyword name arguments ';'?
             | name arguments ';'?
arguments   := '[' (argument (';' argument)* ';'?)? ']'
argument    := keyword? expression
```

A name ends at a blank, an opening bracket, a colon or a semicolon.

- `Item.read`: one item.
- `Procedure.read`, `Procedure.readAll`: one procedure, and all of a text.
-/

namespace TreeScript

namespace Expr

/-- An expression that was read takes up at least one character. -/
theorem remaining_readWith_lt {s t : Scanner} {readSection : SectionReader s} {e : Expr}
    (h : readWith s readSection = (.ok e, t)) : t.remaining < s.remaining := by
  have tail : ∀ (left : Expr) (u : Scanner) (readSection : SectionReader u) (e : Expr) (t : Scanner),
      readTail left u readSection = (.ok e, t) → t.remaining ≤ u.remaining := by
    intro left u readSection
    fun_induction readTail left u readSection with
    | case1 left s readSection hop =>
      intro e t h
      simp only [Prod.mk.injEq] at h
      exact h.2 ▸ s.remaining_skipBlank_le
    | case2 => simp
    | case3 left s readSection op t hop shorter right u hright shorter' ih =>
      intro e v h
      exact Nat.le_of_lt (Nat.lt_of_le_of_lt (ih e v h) shorter')
  unfold readWith at h
  split at h
  · simp at h
  · rename_i hleft
    exact Nat.lt_of_le_of_lt (tail _ _ _ _ _ h) (remaining_readOperand_lt hleft)

/-- An expression that was read takes up at least one character. -/
theorem remaining_read_lt {s t : Scanner} {e : Expr} (h : read s = (.ok e, t)) :
    t.remaining < s.remaining := by
  unfold read at h
  exact remaining_readWith_lt h

end Expr

namespace Item

/-- The characters that end a name, blanks apart. -/
def nameStops : List Char := ['[', ':', ';']

/-- Reads the characters of a name. -/
def readName (s : Scanner) : String × Scanner :=
  let (name, s) := s.readUntilBlankOr nameStops false
  (String.ofList name, s)

/-- Reads the keyword in front of an argument, if there is one, behind which a blank has to stand.  All
other text is put back; the domain is then that of decimal numbers. -/
def readArgumentDomain (s : Scanner) : Domain × Scanner :=
  let (word, t) := s.readUntilBlankOr [']', ';', '('] false
  match (Keyword.ofWord? (String.ofList word)).bind Keyword.domain? with
  | some domain => if t.stream.head?.any Text.isBlank then (domain, t) else (.decimal, t.unread word)
  | none => (.decimal, t.unread word)

theorem remaining_readArgumentDomain_le (s : Scanner) :
    (readArgumentDomain s).2.remaining ≤ s.remaining := by
  have hlen : (s.readUntilBlankOr [']', ';', '('] false).1.length +
      (s.readUntilBlankOr [']', ';', '('] false).2.remaining = s.remaining :=
    s.length_add_remaining_readUntil _
  rcases hread : s.readUntilBlankOr [']', ';', '('] false with ⟨word, t⟩
  simp only [hread] at hlen
  have hback : (t.unread word).remaining = s.remaining := by
    simpa [Scanner.remaining] using hlen
  simp only [readArgumentDomain, hread]
  split
  · split
    · simp only
      omega
    · simp only [hback, Nat.le_refl]
  · simp only [hback, Nat.le_refl]

/-- Reads one argument.  Its domain is a fixed one, or written in front of it. -/
def readArgument (fixed : Option Domain) (s : Scanner) : Except Error TypedExpr × Scanner :=
  let (domain, t) :=
    match fixed with
    | some domain => (domain, s)
    | none => readArgumentDomain s
  let (e, u) := Expr.read t
  (e.map (⟨·, domain⟩), u)

theorem remaining_readArgument_lt {fixed : Option Domain} {s t : Scanner} {e : TypedExpr}
    (h : readArgument fixed s = (.ok e, t)) : t.remaining < s.remaining := by
  have key : ∀ (domain : Domain) (u : Scanner), u.remaining ≤ s.remaining →
      ((Expr.read u).1.map (TypedExpr.mk · domain), (Expr.read u).2) = (.ok e, t) →
      t.remaining < s.remaining := by
    intro domain u hu h
    rcases hread : Expr.read u with ⟨r, v⟩
    simp only [hread, Prod.mk.injEq] at h
    obtain ⟨h, rfl⟩ := h
    cases r with
    | error _ => simp [Except.map] at h
    | ok _ => exact Nat.lt_of_lt_of_le (Expr.remaining_read_lt hread) hu
  cases fixed with
  | some domain => exact key domain s (Nat.le_refl _) h
  | none => exact key _ _ (remaining_readArgumentDomain_le s) h

/-- Reads arguments up to the closing bracket of their list, which was opened at `opened`. -/
def readArguments (fixed : Option Domain) (opened : Position) (s : Scanner) :
    Except Error (List TypedExpr) × Scanner :=
  if s.skipBlank.stream.isEmpty then (.error (.malformed .argumentsUnclosed opened), s.skipBlank)
  else if s.skipBlank.stream.head? = some ']' then (.ok [], s.skipBlank.advance 1)
  else
    match _h : readArgument fixed s.skipBlank with
    | (.error e, t) => (.error e, t)
    | (.ok argument, t) =>
      if t.skipBlank.stream.head? = some ';' ∨ t.skipBlank.stream.head? = some ']' then
        let (arguments, u) := readArguments fixed opened (t.skipBlank.accept ';').2
        (arguments.map (argument :: ·), u)
      else
        (.error (.malformed (.separatorExpected t.skipBlank.stream.head?) t.skipBlank.position),
          t.skipBlank)
termination_by s.remaining
decreasing_by
  have h₁ := s.remaining_skipBlank_le
  have h₂ := remaining_readArgument_lt _h
  have h₃ := t.remaining_skipBlank_le
  have h₄ := t.skipBlank.remaining_accept_le ';'
  omega

/-- Reads a list of arguments, from behind its opening bracket, and a semicolon behind it. -/
def readCall (fixed : Option Domain) (native : String) (position : Position) (s : Scanner) :
    Except Error Item × Scanner :=
  match readArguments fixed s.position s with
  | (.error e, t) => (.error e, t)
  | (.ok arguments, t) => (.ok (.call native arguments position), (t.skipBlank.accept ';').2)

/-- Reads the expression that is assigned, from behind the colon, and the semicolon. -/
def readAssignment (keyword : Keyword) (domain : Domain) (name : String) (s : Scanner) :
    Except Error Item × Scanner :=
  match Expr.read s with
  | (.error e, t) => (.error e, t)
  | (.ok e, t) =>
    match t.skipBlank.accept ';' with
    | (true, u) => (.ok (.assign keyword name ⟨e, domain⟩), u)
    | (false, u) => (.error (.malformed (.assignmentUnclosed name) u.position), u)

/-- Reads what a keyword introduces. -/
def readDeclaration (keyword : Keyword) (s : Scanner) : Except Error Item × Scanner :=
  let place := s.skipBlank.position
  let (name, t) := readName s.skipBlank
  if name.isEmpty then (.error (.malformed (.nameExpected keyword.word) place), t)
  else
    match t.skipBlank.next, keyword.domain? with
    | (some ';', u), _ => (.ok (.declare keyword name), u)
    | (some ':', u), some domain => readAssignment keyword domain name u
    | (some '[', u), some domain => readCall (some domain) name place u
    | (some ':', u), none => (.error (.malformed (.parameterInitialized name) place), u)
    | (some '[', u), none => (.error (.malformed (.parameterCall name) place), u)
    | (found, u), _ => (.error (.malformed (.continuationExpected name found) u.position), u)

/-- Reads one item. -/
def read (s : Scanner) : Except Error Item × Scanner :=
  let (word, t) := readName s
  if word.isEmpty then
    (.error (.malformed (.statementExpected (t.stream.head?.getD ' ')) s.position), t)
  else
    match Keyword.ofWord? word with
    | some keyword => readDeclaration keyword t
    | none =>
      match t.skipBlank.accept '[' with
      | (true, u) => readCall none word s.position u
      | (false, u) => (.error (.malformed (.statementUnknown word) s.position), u)

/-! ### How far a reader gets -/

theorem remaining_readName (s : Scanner) :
    (readName s).1.length + (readName s).2.remaining = s.remaining := by
  have hlen : (s.readUntilBlankOr nameStops false).1.length +
      (s.readUntilBlankOr nameStops false).2.remaining = s.remaining :=
    s.length_add_remaining_readUntil _
  simpa [readName] using hlen

theorem remaining_readArguments_le {fixed : Option Domain} {opened : Position} {s t : Scanner}
    {arguments : List TypedExpr} (h : readArguments fixed opened s = (.ok arguments, t)) :
    t.remaining ≤ s.remaining := by
  fun_induction readArguments fixed opened s generalizing arguments t with
  | case1 => simp at h
  | case2 s hne hclose =>
    simp only [Prod.mk.injEq] at h
    obtain ⟨-, rfl⟩ := h
    have := s.remaining_skipBlank_le
    simp only [Scanner.remaining_advance]
    omega
  | case3 => simp at h
  | case4 s hne hclose argument u hread hsep rest v hrest ih =>
    simp only [Prod.mk.injEq] at h
    obtain ⟨h, rfl⟩ := h
    have h₁ := s.remaining_skipBlank_le
    have h₂ := remaining_readArgument_lt hread
    have h₃ := u.remaining_skipBlank_le
    have h₄ := u.skipBlank.remaining_accept_le ';'
    cases rest with
    | error _ => simp [Except.map] at h
    | ok _ =>
      have := ih hrest
      omega
  | case5 => simp at h

theorem remaining_readCall_le {fixed : Option Domain} {native : String} {position : Position}
    {s t : Scanner} {item : Item} (h : readCall fixed native position s = (.ok item, t)) :
    t.remaining ≤ s.remaining := by
  unfold readCall at h
  split at h
  · simp at h
  · rename_i u hread
    simp only [Prod.mk.injEq] at h
    obtain ⟨-, rfl⟩ := h
    have h₁ := remaining_readArguments_le hread
    have h₂ := u.remaining_skipBlank_le
    have h₃ := u.skipBlank.remaining_accept_le ';'
    omega

theorem remaining_readAssignment_le {keyword : Keyword} {domain : Domain} {name : String}
    {s t : Scanner} {item : Item} (h : readAssignment keyword domain name s = (.ok item, t)) :
    t.remaining ≤ s.remaining := by
  unfold readAssignment at h
  split at h
  · simp at h
  · rename_i u hread
    have h₁ := Expr.remaining_read_lt hread
    have h₂ := u.remaining_skipBlank_le
    have h₃ := u.skipBlank.remaining_accept_le ';'
    split at h
    · rename_i v haccept
      simp only [Prod.mk.injEq] at h
      obtain ⟨-, rfl⟩ := h
      simp only [haccept] at h₃
      omega
    · simp at h

theorem remaining_readDeclaration_le {keyword : Keyword} {s t : Scanner} {item : Item}
    (h : readDeclaration keyword s = (.ok item, t)) : t.remaining ≤ s.remaining := by
  have h₁ := s.remaining_skipBlank_le
  have h₂ := remaining_readName s.skipBlank
  have h₃ := (readName s.skipBlank).2.remaining_skipBlank_le
  have h₄ := (readName s.skipBlank).2.skipBlank.remaining_next_le
  simp only [readDeclaration] at h
  split at h
  · simp at h
  · split at h
    · rename_i u hnext
      simp only [Prod.mk.injEq] at h
      obtain ⟨-, rfl⟩ := h
      simp only [hnext] at h₄
      omega
    · rename_i u domain hnext hdomain
      have := remaining_readAssignment_le h
      simp only [hnext] at h₄
      omega
    · rename_i u domain hnext hdomain
      have := remaining_readCall_le h
      simp only [hnext] at h₄
      omega
    all_goals simp at h

/-- An item that was read takes up at least one character. -/
theorem remaining_read_lt {s t : Scanner} {item : Item} (h : read s = (.ok item, t)) :
    t.remaining < s.remaining := by
  have hname := remaining_readName s
  have hblank := (readName s).2.remaining_skipBlank_le
  have haccept := (readName s).2.skipBlank.remaining_accept_le '['
  simp only [read] at h
  split at h
  · simp at h
  · rename_i hne
    have hpos : 0 < (readName s).1.length := by
      rcases Nat.eq_zero_or_pos (readName s).1.length with h0 | h0
      · exact absurd (by simpa using h0) hne
      · exact h0
    split at h
    · have := remaining_readDeclaration_le h
      omega
    · split at h
      · rename_i u hopen
        have := remaining_readCall_le h
        simp only [hopen] at haccept
        omega
      · simp at h

end Item

namespace Procedure

/-- Reads items up to the end of the text and adds them to a procedure. -/
def readItems {α : Type} (natives : Registry α) (p : Procedure) (s : Scanner) :
    Except Error Procedure :=
  if s.skipBlank.stream.isEmpty then .ok p
  else
    match _h : Item.read s.skipBlank with
    | (.error e, _) => .error e
    | (.ok item, t) =>
      match p.addItem natives item with
      | .error e => .error e
      | .ok p => readItems natives p t
termination_by s.remaining
decreasing_by
  have h₁ := s.remaining_skipBlank_le
  have h₂ := Item.remaining_read_lt _h
  omega

/-- Reads the metadata in front of the items, if there is any. -/
def readMetadata (s : Scanner) : Except Error (Option Node) × Scanner :=
  if s.skipBlank.stream.head? = some '[' then
    let (node, t) := Node.read .recursive s.skipBlank
    (node.map some, t)
  else (.ok none, s.skipBlank)

/-- Reads the inside of a procedure. -/
def readInside {α : Type} (natives : Registry α) (engine : Engine) (s : Scanner) :
    Except Error Procedure :=
  let (name, t) := s.skipBlank.readUntilChar ':' false
  let name := Node.keyOf name
  match t.accept ':' with
  | (false, _) => .error (.malformed (.functionNameUnclosed name) s.skipBlank.position)
  | (true, u) =>
    match readMetadata u with
    | (.error e, _) => .error e
    | (.ok metadata, v) => readItems natives (.blank name metadata engine) v

/-- Reads the procedure of the next section. -/
def read {α : Type} (natives : Registry α) (engine : Engine) (s : Scanner) :
    Except Error Procedure × Scanner :=
  let (inside, t) := s.findSection '[' ']'
  (inside.bind fun body => readInside natives engine body.scanner, t)

/-- A procedure that was read takes up at least one character. -/
theorem remaining_read_lt {α : Type} {natives : Registry α} {engine : Engine} {s t : Scanner}
    {p : Procedure} (h : read natives engine s = (.ok p, t)) : t.remaining < s.remaining := by
  rcases hfind : s.findSection '[' ']' with ⟨inside, u⟩
  simp only [read, hfind, Prod.mk.injEq] at h
  obtain ⟨h, rfl⟩ := h
  cases inside with
  | error _ => simp [Except.bind] at h
  | ok body => exact Scanner.remaining_findSection_lt hfind

/-- Reads procedures up to the end of the text. -/
def readAll {α : Type} (natives : Registry α) (engine : Engine) (s : Scanner) :
    Except Error (List Procedure) :=
  if s.skipBlank.stream.isEmpty then .ok []
  else
    match _h : read natives engine s.skipBlank with
    | (.error e, _) => .error e
    | (.ok p, t) => (readAll natives engine t).map (p :: ·)
termination_by s.remaining
decreasing_by
  have h₁ := s.remaining_skipBlank_le
  have h₂ := remaining_read_lt _h
  omega

/-- The first procedure of a text. -/
def parse {α : Type} (natives : Registry α) (engine : Engine) (text : String) :
    Except Error Procedure :=
  (read natives engine (.ofString text)).1

/-- The procedures of a text, in the order of their names. -/
def parseAll {α : Type} (natives : Registry α) (engine : Engine) (text : String) :
    Except Error (KeyedList Procedure) :=
  (readAll natives engine (.ofString text)).map .ofList

end Procedure

end TreeScript
