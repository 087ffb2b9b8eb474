import TreeScript.Expr.Basic
import TreeScript.Number.Numeral
import TreeScript.Scanner.Section

/-!
# Reading expressions

```
expression := operand (operator operand)*
operand    := '(' expression ')' | '-' operand | token
```

A token ends at a blank, an operator, a semicolon or a closing square bracket.  The inside of
parentheses is a section, which is read by a scanner of its own and has to be one whole expression.

- `Expr.readOperand`, `Expr.readTail`: the parts of an expression, given how a section is read.
- `Expr.read`: an expression, by recursion on the length of the text.
- `Expr.remaining_readOperand_lt`: an operand that was read takes up at least one character.
-/

namespace TreeScript.Expr

/-- The characters that end a token, blanks apart. -/
def tokenStops : List Char := Operator.signs ++ [';', ']']

/-- How the text of a section is read as an expression, for sections that are shorter than a text. -/
abbrev SectionReader (s : Scanner) := (t : Scanner) → t.remaining < s.remaining → Except Error Expr

/-- Negates an expression.  A number without a sign gets the sign itself. -/
def negate : Expr → Expr
  | literal text =>
    if Number.looksDecimal text.toList && !(text.toList.head? = some '-' || text.toList.head? = some '+')
    then literal ("-" ++ text)
    else negative (literal text)
  | e => negative e

/-- Reads a token.  Where there is none, the error stands at `place`. -/
def readToken (place : Position) (s : Scanner) : Except Error Expr × Scanner :=
  let (token, s) := s.readUntilBlankOr tokenStops false
  if token.isEmpty then (.error (.malformed (.operandExpected s.stream.head?) place), s)
  else (.ok (literal (String.ofList token)), s)

/-- Reads an operand. -/
def readOperand (s : Scanner) (readSection : SectionReader s) : Except Error Expr × Scanner :=
  match _h : s.skipBlank.stream with
  | '(' :: _ =>
    match h : s.skipBlank.findSection '(' ')' with
    | (.error e, t) => (.error e, t)
    | (.ok body, t) =>
      (readSection body.scanner
        (Nat.lt_of_lt_of_le (Scanner.remaining_scanner_lt h) s.remaining_skipBlank_le), t)
  | '-' :: _ =>
    have shorter : (s.skipBlank.advance 1).remaining < s.remaining := by
      have := s.remaining_skipBlank_le
      simp only [Scanner.remaining, Scanner.stream_advance, _h] at *
      simp at *
      omega
    let (inner, t) := readOperand (s.skipBlank.advance 1) fun u hu =>
      readSection u (Nat.lt_trans hu shorter)
    (inner.map negate, t)
  | _ => readToken s.skipBlank.position s.skipBlank
termination_by s.remaining
decreasing_by exact shorter

/-- A token that was read takes up at least one character. -/
theorem remaining_readToken_lt {place : Position} {s t : Scanner} {e : Expr}
    (h : readToken place s = (.ok e, t)) : t.remaining < s.remaining := by
  have hlen : (s.readUntilBlankOr tokenStops false).1.length +
      (s.readUntilBlankOr tokenStops false).2.remaining = s.remaining :=
    s.length_add_remaining_readUntil _
  rcases hread : s.readUntilBlankOr tokenStops false with ⟨token, u⟩
  simp only [readToken, hread] at h hlen
  split at h
  · simp at h
  · rename_i hne
    simp only [Prod.mk.injEq] at h
    obtain ⟨-, rfl⟩ := h
    have := List.length_pos_iff.2 (by simpa using hne)
    omega

/-- An operand that was read takes up at least one character. -/
theorem remaining_readOperand_lt {s t : Scanner} {readSection : SectionReader s} {e : Expr}
    (h : readOperand s readSection = (.ok e, t)) : t.remaining < s.remaining := by
  have hle := s.remaining_skipBlank_le
  fun_induction readOperand s readSection generalizing e t with
  | case1 => simp at h
  | case2 s readSection cs hs body t' hb =>
    simp only [Prod.mk.injEq] at h
    obtain ⟨-, rfl⟩ := h
    have := Scanner.remaining_findSection_lt hb
    omega
  | case3 s readSection cs hs shorter inner t' hinner ih =>
    simp only [Prod.mk.injEq] at h
    obtain ⟨he, rfl⟩ := h
    cases inner with
    | error _ => simp [Except.map] at he
    | ok inner =>
      have := ih hinner (Scanner.remaining_skipBlank_le _)
      omega
  | case4 s readSection hs =>
    have := remaining_readToken_lt h
    omega

/-- Reads an operator: its sign, and for a comparison an equals sign behind it. -/
def readOperator? (s : Scanner) : Option (Operator × Scanner) :=
  (s.stream.head?.bind Operator.ofSign?).map fun op =>
    (op, if op.isComparison then ((s.advance 1).accept '=').2 else s.advance 1)

theorem remaining_readOperator?_lt {s t : Scanner} {op : Operator}
    (h : readOperator? s = some (op, t)) : t.remaining < s.remaining := by
  simp only [readOperator?, Option.map_eq_some_iff, Option.bind_eq_some_iff, Prod.mk.injEq] at h
  obtain ⟨op', ⟨c, hc, -⟩, rfl, rfl⟩ := h
  have hpos : 0 < s.remaining := by
    cases hs : s.stream <;> simp_all [Scanner.remaining]
  have haccept := (s.advance 1).remaining_accept_le '='
  rw [Scanner.remaining_advance] at haccept
  split
  · omega
  · rw [Scanner.remaining_advance]
    omega

/-- Reads operators and operands for as long as an operator is next. -/
def readTail (left : Expr) (s : Scanner) (readSection : SectionReader s) :
    Except Error Expr × Scanner :=
  match h : readOperator? s.skipBlank with
  | none => (.ok left, s.skipBlank)
  | some (op, t) =>
    have shorter : t.remaining < s.remaining :=
      Nat.lt_of_lt_of_le (remaining_readOperator?_lt h) s.remaining_skipBlank_le
    match h' : readOperand t fun v hv => readSection v (Nat.lt_trans hv shorter) with
    | (.error e, u) => (.error e, u)
    | (.ok right, u) =>
      have shorter' : u.remaining < s.remaining :=
        Nat.lt_trans (remaining_readOperand_lt h') shorter
      readTail (binary op left right) u fun v hv => readSection v (Nat.lt_trans hv shorter')
termination_by s.remaining

/-- Reads an expression, given how a section is read. -/
def readWith (s : Scanner) (readSection : SectionReader s) : Except Error Expr × Scanner :=
  match h : readOperand s readSection with
  | (.error e, t) => (.error e, t)
  | (.ok left, t) =>
    readTail left t fun v hv => readSection v (Nat.lt_trans hv (remaining_readOperand_lt h))

/-- What was read has to be the whole text, blanks at the end apart. -/
def wholeText (outcome : Except Error Expr × Scanner) : Except Error Expr :=
  match outcome with
  | (.error e, _) => .error e
  | (.ok e, s) =>
    match s.skipBlank.stream with
    | [] => .ok e
    | c :: _ => .error (.malformed (.operatorUnrecognized c) s.skipBlank.position)

/-- Reads an expression, up to the first character that is no operator. -/
def read (s : Scanner) : Except Error Expr × Scanner :=
  readWith s fun t _ => wholeText (read t)
termination_by s.remaining

/-- The expression that a text consists of. -/
def parse (text : String) : Except Error Expr := wholeText (read (.ofString text))

end TreeScript.Expr
