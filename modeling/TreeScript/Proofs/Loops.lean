import TreeScript.Proofs.Clauses
import TreeScript.Proofs.Derivations
import TreeScript.Proofs.Procedures
import TreeScript.Proofs.Progress

/-!
# Loops and their rounds

The readers of documents, expressions, arguments, items and procedures are loops, and those of nodes and of
expressions call themselves for the sections that they enter, or behind a minus.  Here they stand without a
measure, and with a number of rounds that they are given: each round, and each section, leaves one less for
what comes behind it or lies in it.  `none` stands for a run that would need more; a run that does not end
would have nothing else, whatever the number.  There is no such run.  Each round leaves less to read; a section
is two characters shorter than the text around it, so there is less to read in it also where a line feed comes
in at its end; and a run that was put back in front of an argument is read again in the same round.

- `Node.readAllWithin`, `Expr.readWithin`, `Item.readArgumentsWithin`, `Procedure.readItemsWithin`,
  `Procedure.readAllWithin`: the loops.  What is called within a round has a loop of its own, or none.
- `Node.readAllWithin_eq`, `Expr.readWithin_eq` and so on: as many rounds are enough as there are
  characters, up to a factor, and the result is that of the readers.
- `readers_advance_and_end`: the steps, the sections, the loops and the number of nodes in one statement.
-/

namespace TreeScript

open Scanner

variable {s t : Scanner} {n : Nat}

/-! ### Nodes -/

namespace Node

/-- How the nodes of a section are read by a run that may not end. -/
abbrev NodesReader := Scanner → Option (Except Error (List Node) × Scanner)

/-- The inside of a composite node, given how the nodes in it are read. -/
def readInsideWithin (mode : ReadMode) (readNodes : NodesReader) (inner : Scanner) :
    Option (Except Error Node) :=
  let start := inner.skipBlank
  let head := start.readUntilChar ':' false
  let key := keyOf head.1
  match head.2.accept ':' with
  | (false, _) => some (.error (.malformed (.keyUnclosed key) start.position))
  | (true, body) =>
    match mode with
    | .flat => some (.ok (leaf key (.text (keyOf body.readToEnd.1))))
    | .recursive => do
      let (nodes, _) ← readNodes body
      some (nodes.map (composite key))

/-- One node, given how the nodes of a section are read. -/
def readNodeWithin (mode : ReadMode) (readNodes : NodesReader) (s : Scanner) :
    Option (Except Error Node × Scanner) :=
  let start := s.skipBlank
  let head := start.readUntilAny ['[', ':', ']'] false
  match head.2.stream with
  | [] => some (.error (.malformed .nodeExpected start.position), head.2)
  | ']' :: _ => some (.ok placeholder, head.2.advance 1)
  | ':' :: _ => some (readLeaf head.1 start.position (head.2.advance 1))
  | _ :: _ =>
    if Text.trim head.1 ≠ [] then
      some (.error (.malformed (.textBeforeBracket (keyOf head.1)) start.position), head.2)
    else
      match head.2.findSection '[' ']' with
      | (.error e, t) => some (.error e, t)
      | (.ok body, t) => do
        let node ← readInsideWithin mode readNodes body.scanner
        some (node, t)

/-- The loop over the nodes of a text. -/
def readAllWithin (mode : ReadMode) : Nat → NodesReader
  | 0, _ => none
  | n + 1, s =>
    if s.skipBlank.stream.isEmpty then some (.ok [], s.skipBlank)
    else do
      match ← readNodeWithin mode (readAllWithin mode n) s with
      | (.error e, t) => some (.error e, t)
      | (.ok node, t) =>
        let (nodes, u) ← readAllWithin mode n t
        some (nodes.map (node :: ·), u)

variable {mode : ReadMode} {readNodes : NodesReader}

theorem readInsideWithin_eq {inner : Scanner}
    (hnodes : ∀ t : Scanner, t.remaining ≤ inner.remaining → readNodes t = some (readAll mode t)) :
    readInsideWithin mode readNodes inner =
      some (readInside mode inner fun t _ => (readAll mode t).1) := by
  simp only [readInsideWithin, readInside]
  rcases haccept : (inner.skipBlank.readUntilChar ':' false).2.accept ':' with ⟨_ | _, body⟩
  · rfl
  · cases mode with
    | flat => rfl
    | recursive =>
      have hkept := Scanner.invariant_suffix inner.stream
      have hkey := hkept.readUntil inner.suffix_skipBlank (· = ':')
      have hbody : body.stream <:+ inner.stream := suffix_of_eq (hkept.accept hkey ':') haccept
      simp only [hnodes body hbody.length_le]
      rfl

theorem readNodeWithin_eq
    (hnodes : ∀ t : Scanner, t.remaining < s.remaining → readNodes t = some (readAll mode t)) :
    readNodeWithin mode readNodes s = some (read mode s) := by
  have hkey : (s.skipBlank.readUntilAny ['[', ':', ']'] false).2.remaining ≤ s.remaining :=
    ((Scanner.invariant_suffix s.stream).readUntil s.suffix_skipBlank _).length_le
  have htouch : (s.skipBlank.readUntilAny ['[', ':', ']'] false).2.touch =
      (s.skipBlank.readUntilAny ['[', ':', ']'] false).2 :=
    touch_readUntil _ s.skipBlank
  rw [read, readWith_eq_behindKey mode fun t => (readAll mode t).1, htouch, readNodeWithin]
  split
  · next hs => rw [behindKey_of_nil hs]
  · next hs => rw [behindKey_of_closing hs]
  · next hs => rw [behindKey_of_colon hs]
  · next c cs hclosing hcolon hs =>
    have hclosing : c ≠ ']' := fun hc => hclosing (by rw [hc])
    have hcolon : c ≠ ':' := fun hc => hcolon (by rw [hc])
    rw [behindKey_of_ne hs hclosing hcolon]
    split
    · rfl
    · rw [composed]
      split
      · next hfind =>
        rw [hfind]
        rfl
      · next body t hfind =>
        have hlt := Nat.lt_of_lt_of_le (remaining_scanner_lt hfind) hkey
        rw [hfind, readInsideWithin_eq fun u hu => hnodes u (Nat.lt_of_le_of_lt hu hlt)]
        rfl

/-- **The loop over nodes ends.** -/
theorem readAllWithin_eq (mode : ReadMode) (hn : s.remaining < n) :
    readAllWithin mode n s = some (readAll mode s) := by
  induction n generalizing s with
  | zero => exact absurd hn (Nat.not_lt_zero _)
  | succ n ih =>
    have hfurther : ∀ t : Scanner, t.remaining < s.remaining →
        readAllWithin mode n t = some (readAll mode t) := fun t ht => ih (by omega)
    rw [readAllWithin, readNodeWithin_eq hfurther, readAll_eq]
    simp only [List.isEmpty_iff]
    split
    · rfl
    · rcases hread : read mode s with ⟨_ | node, t⟩
      all_goals rw [read] at hread
      · simp only [hread]
        rfl
      · simp only [hread, Option.bind_eq_bind, Option.bind_some]
        rw [hfurther t (beyond_of_read hread).remaining_lt]
        rfl

end Node

/-! ### Expressions -/

namespace Expr

mutual

/-- The loop over the operands of an expression. -/
def readWithin : Nat → Scanner → Option (Except Error Expr × Scanner)
  | 0, _ => none
  | n + 1, s => do
    match ← operandWithin n s with
    | (.error e, t) => some (.error e, t)
    | (.ok left, t) => tailWithin n left t

/-- The rounds of the loop, behind a left operand. -/
def tailWithin : Nat → Expr → Scanner → Option (Except Error Expr × Scanner)
  | 0, _, _ => none
  | n + 1, left, s =>
    match readOperator? s.skipBlank with
    | none => some (.ok left, s.skipBlank)
    | some (op, t) => do
      match ← operandWithin n t with
      | (.error e, u) => some (.error e, u)
      | (.ok right, u) => tailWithin n (binary op left right) u

/-- One operand, which can be a section or stand behind a minus. -/
def operandWithin : Nat → Scanner → Option (Except Error Expr × Scanner)
  | 0, _ => none
  | n + 1, s =>
    match s.skipBlank.stream with
    | '(' :: _ =>
      match s.skipBlank.findSection '(' ')' with
      | (.error e, t) => some (.error e, t)
      | (.ok body, t) => do
        let inside ← readWithin n body.scanner
        some (wholeText inside, t)
    | '-' :: _ => do
      let (inner, t) ← operandWithin n (s.skipBlank.advance 1)
      some (inner.map negate, t)
    | _ => some (readToken s.skipBlank.position s.skipBlank)

end

theorem remaining_operand_lt {e : Expr} (h : operand s = (.ok e, t)) : t.remaining < s.remaining :=
  remaining_readOperand_lt h

/-- An expression starts with an operand that has as much to read, so each character counts twice. -/
structure EndsWithin (n : Nat) : Prop where
  read : ∀ {s : Scanner}, 2 * s.remaining + 1 < n → readWithin n s = some (Expr.read s)
  tail : ∀ {left : Expr} {s : Scanner}, 2 * s.remaining < n → tailWithin n left s = some (tail left s)
  operand : ∀ {s : Scanner}, 2 * s.remaining < n → operandWithin n s = some (operand s)

section

variable (h : EndsWithin n)
include h

theorem readWithin_succ (hn : 2 * s.remaining + 1 < n + 1) : readWithin (n + 1) s = some (read s) := by
  rw [readWithin, h.operand (by omega), read_eq]
  rcases hleft : operand s with ⟨_ | left, t⟩
  · rfl
  · have hlt := remaining_operand_lt hleft
    exact h.tail (by omega)

theorem tailWithin_succ {left : Expr} (hn : 2 * s.remaining < n + 1) :
    tailWithin (n + 1) left s = some (tail left s) := by
  rw [tailWithin, tail_eq]
  rcases hop : readOperator? s.skipBlank with _ | ⟨op, t⟩
  · rfl
  · have hlt := remaining_readOperator?_lt hop
    have hblank := s.remaining_skipBlank_le
    simp only
    rw [h.operand (by omega)]
    rcases hright : operand t with ⟨_ | right, u⟩
    · rfl
    · have hlt' := remaining_operand_lt hright
      exact h.tail (by omega)

theorem operandWithin_succ (hn : 2 * s.remaining < n + 1) :
    operandWithin (n + 1) s = some (operand s) := by
  have hblank := s.remaining_skipBlank_le
  rw [operandWithin]
  split
  · next cs hs =>
    rw [operand_eq, hs]
    rcases hfind : s.skipBlank.findSection '(' ')' with ⟨_ | body, t⟩
    · rfl
    · have hlt := remaining_scanner_lt hfind
      simp only
      rw [h.read (by omega)]
      rfl
  · next cs hs =>
    have hlt : (s.skipBlank.advance 1).remaining < s.skipBlank.remaining := by
      simp [remaining, hs]
    rw [operand_eq, hs, h.operand (by omega)]
    rfl
  · next hopen hminus =>
    rw [operand_eq]
    split
    · next hs => exact absurd hs (hopen _)
    · next hs => exact absurd hs (hminus _)
    · rfl

end

/-- **The loop over operands ends**, and so do the calls for sections and behind a minus. -/
theorem endsWithin (n : Nat) : EndsWithin n := by
  induction n with
  | zero =>
    exact ⟨fun hn => absurd hn (Nat.not_lt_zero _), fun hn => absurd hn (Nat.not_lt_zero _),
      fun hn => absurd hn (Nat.not_lt_zero _)⟩
  | succ n ih => exact ⟨readWithin_succ ih, tailWithin_succ ih, operandWithin_succ ih⟩

end Expr

/-! ### Arguments -/

namespace Item

/-- The loop over the arguments of a list. -/
def readArgumentsWithin (fixed : Option Domain) (opened : Position) :
    Nat → Scanner → Option (Except Error (List TypedExpr) × Scanner)
  | 0, _ => none
  | n + 1, s =>
    if s.skipBlank.stream.isEmpty then
      some (.error (.malformed .argumentsUnclosed opened), s.skipBlank)
    else if s.skipBlank.stream.head? = some ']' then some (.ok [], s.skipBlank.advance 1)
    else
      match readRound fixed s with
      | (.error e, t) => some (.error e, t)
      | (.ok argument, t) => do
        let (arguments, u) ← readArgumentsWithin fixed opened n t
        some (arguments.map (argument :: ·), u)

theorem readArguments_eq_readRound (fixed : Option Domain) (opened : Position) (s : Scanner) :
    readArguments fixed opened s =
      if s.skipBlank.stream = [] then (.error (.malformed .argumentsUnclosed opened), s.skipBlank)
      else if s.skipBlank.stream.head? = some ']' then (.ok [], s.skipBlank.advance 1)
      else
        match readRound fixed s with
        | (.error e, t) => (.error e, t)
        | (.ok argument, t) =>
          ((readArguments fixed opened t).1.map (argument :: ·), (readArguments fixed opened t).2) := by
  rw [readArguments_eq]
  rcases hread : readArgument fixed s.skipBlank with ⟨_ | argument, t⟩
  · simp only [readRound, hread]
  · simp only [readRound, hread]
    by_cases hseparator :
        t.skipBlank.stream.head? = some ';' ∨ t.skipBlank.stream.head? = some ']'
    · simp only [if_pos hseparator]
    · simp only [if_neg hseparator]

/-- **The loop over arguments ends.** -/
theorem readArgumentsWithin_eq (fixed : Option Domain) (opened : Position) (hn : s.remaining < n) :
    readArgumentsWithin fixed opened n s = some (readArguments fixed opened s) := by
  induction n generalizing s with
  | zero => exact absurd hn (Nat.not_lt_zero _)
  | succ n ih =>
    rw [readArgumentsWithin, readArguments_eq_readRound]
    simp only [List.isEmpty_iff]
    split
    · rfl
    · split
      · rfl
      · rcases hround : readRound fixed s with ⟨_ | argument, t⟩
        · rfl
        · have hlt := (beyond_of_readRound hround).remaining_lt
          simp only
          rw [ih (by omega)]
          rfl

end Item

/-! ### Procedures -/

namespace Procedure

variable {α : Type}

/-- The loop over the items of a procedure. -/
def readItemsWithin (natives : Registry α) : Nat → Procedure → Scanner → Option (Except Error Procedure)
  | 0, _, _ => none
  | n + 1, p, s =>
    if s.skipBlank.stream.isEmpty then some (.ok p)
    else
      match readStatement natives p s.skipBlank with
      | (.error e, _) => some (.error e)
      | (.ok p, t) => readItemsWithin natives n p t

/-- The loop over the procedures of a text. -/
def readAllWithin (natives : Registry α) (engine : Engine) :
    Nat → Scanner → Option (Except Error (List Procedure))
  | 0, _ => none
  | n + 1, s =>
    if s.skipBlank.stream.isEmpty then some (.ok [])
    else
      match read natives engine s.skipBlank with
      | (.error e, _) => some (.error e)
      | (.ok p, t) => do
        let ps ← readAllWithin natives engine n t
        some (ps.map (p :: ·))

/-- **The loop over items ends.** -/
theorem readItemsWithin_eq (natives : Registry α) (p : Procedure) (hn : s.remaining < n) :
    readItemsWithin natives n p s = some (readItems natives p s) := by
  induction n generalizing s p with
  | zero => exact absurd hn (Nat.not_lt_zero _)
  | succ n ih =>
    have hblank := s.remaining_skipBlank_le
    rw [readItemsWithin, readItems_eq]
    simp only [List.isEmpty_iff]
    split
    · rfl
    · rcases hitem : Item.read s.skipBlank with ⟨_ | item, t⟩
      · simp only [readStatement, hitem]
        rfl
      · have hlt := (Item.beyond_of_read hitem).remaining_lt
        simp only [readStatement, hitem, Except.bind]
        rcases p.addItem natives item with _ | q
        · rfl
        · exact ih q (by omega)

/-- **The loop over procedures ends.** -/
theorem readAllWithin_eq (natives : Registry α) (engine : Engine) (hn : s.remaining < n) :
    readAllWithin natives engine n s = some (readAll natives engine s) := by
  induction n generalizing s with
  | zero => exact absurd hn (Nat.not_lt_zero _)
  | succ n ih =>
    have hblank := s.remaining_skipBlank_le
    rw [readAllWithin, readAll]
    split
    · rfl
    · rcases hread : read natives engine s.skipBlank with ⟨_ | q, t⟩
      · rfl
      · have hlt := remaining_read_lt hread
        simp only
        rw [ih (by omega)]
        rfl

end Procedure

/-! ### Steps, sections and loops -/

/-- A step that succeeds leaves a proper suffix of the stream, and a section that is entered is shorter than
the stream by both of its delimiters. -/
structure MovesOn {α : Type} (natives : Registry α) : Prop where
  node : ∀ {mode : ReadMode} {s t : Scanner} {node : Node},
    Node.read mode s = (.ok node, t) → t.Beyond s
  expression : ∀ {s t : Scanner} {e : Expr}, Expr.read s = (.ok e, t) → t.Beyond s
  statement : ∀ {p q : Procedure} {s t : Scanner},
    Procedure.readStatement natives p s = (.ok q, t) → t.Beyond s
  argument : ∀ {fixed : Option Domain} {s t : Scanner} {argument : TypedExpr},
    Item.readRound fixed s = (.ok argument, t) → t.Beyond s
  inside : ∀ {opening closing : Char} {s t inner : Scanner},
    s.enterSection opening closing = (.ok inner, t) →
      ∃ text origin, inner = .ofChars text origin ∧ text.length + 2 ≤ s.stream.length

/-- Where `n` rounds are given that are more than twice the characters, every loop ends with the result of
the reader. -/
structure AllEnd {α : Type} (natives : Registry α) (engine : Engine) (s : Scanner) (n : Nat) : Prop where
  nodes : ∀ mode, Node.readAllWithin mode n s = some (Node.readAll mode s)
  expression : Expr.readWithin n s = some (Expr.read s)
  rounds : ∀ left, Expr.tailWithin n left s = some (Expr.tail left s)
  operand : Expr.operandWithin n s = some (Expr.operand s)
  arguments : ∀ fixed opened,
    Item.readArgumentsWithin fixed opened n s = some (Item.readArguments fixed opened s)
  items : ∀ p, Procedure.readItemsWithin natives n p s = some (Procedure.readItems natives p s)
  procedures : Procedure.readAllWithin natives engine n s = some (Procedure.readAll natives engine s)

/-- **Readers move on, and so they end**: each step takes up a part of the stream, no loop and no recursion
goes on for ever, and a text has at most as many nodes as characters. -/
theorem readers_advance_and_end {α : Type} (natives : Registry α) (engine : Engine) :
    MovesOn natives ∧
      (∀ (s : Scanner) (n : Nat), 2 * s.remaining + 1 < n → AllEnd natives engine s n) ∧
      ∀ {text : String} {nodes : List Node}, Node.parseAll text = .ok nodes →
        nodes.length ≤ text.length := by
  refine ⟨?_, fun s n hn => ?_, Node.length_le_of_parseAll⟩
  · exact
      { node := Node.beyond_of_read
        expression := Expr.beyond_of_read
        statement := Procedure.beyond_of_readStatement
        argument := Item.beyond_of_readRound
        inside := Scanner.exists_text_of_enterSection }
  · have hends := Expr.endsWithin n
    exact
      { nodes := fun mode => Node.readAllWithin_eq mode (by omega)
        expression := hends.read hn
        rounds := fun left => hends.tail (by omega)
        operand := hends.operand (by omega)
        arguments := fun fixed opened => Item.readArgumentsWithin_eq fixed opened (by omega)
        items := fun p => Procedure.readItemsWithin_eq natives p (by omega)
        procedures := Procedure.readAllWithin_eq natives engine (by omega) }

theorem exists_of_isOk {α : Type} {outcome : Except Error α × Scanner} (h : outcome.1.isOk = true) :
    ∃ a t, outcome = (.ok a, t) := by
  obtain ⟨_ | a, t⟩ := outcome
  · cases h
  · exact ⟨a, t, rfl⟩

theorem readers_advance_and_end_sample :
    let natives : Registry String := Registry.ofNames ["print"]
    let node : Scanner := (ofString "b: 1;] c").unread "[a:".toList
    let sum : Scanner := ofString "-(x + 1) * 2; y"
    let statement : Scanner := ofString "print [int x; intake]; y"
    let argument : Scanner := ofString "intake; y]"
    (∃ a t, Node.read .recursive node = (.ok a, t) ∧ t.Beyond node) ∧
    (∃ e t, Expr.read sum = (.ok e, t) ∧ t.Beyond sum) ∧
    (∃ q t, Procedure.readStatement natives (.blank "f" none {}) statement = (.ok q, t) ∧
      t.Beyond statement) ∧
    (∃ a t, Item.readRound none argument = (.ok a, t) ∧ t.Beyond argument) ∧
    (∃ inner t, (ofString "k [a[b]c] d").enterSection '[' ']' = (.ok inner, t) ∧
      ∃ text origin, inner = .ofChars text origin ∧ text.length + 2 ≤ 12) ∧
    (2 * sum.remaining + 1 < 34 ∧ Expr.readWithin 34 sum = some (Expr.read sum)) ∧
    ∃ nodes, Node.parseAll "]]]" = .ok nodes ∧ nodes.length = 3 ∧ nodes.length ≤ 3 := by
  intro natives node sum statement argument
  obtain ⟨hmoves, hends, hnodes⟩ := readers_advance_and_end natives {}
  refine ⟨?_, ?_, ?_, ?_, ?_, ?_, ?_⟩
  · obtain ⟨a, t, h⟩ : ∃ a t, Node.read .recursive node = (.ok a, t) :=
      exists_of_isOk (by decide +kernel)
    exact ⟨a, t, h, hmoves.node h⟩
  · obtain ⟨e, t, h⟩ : ∃ e t, Expr.read sum = (.ok e, t) := exists_of_isOk (by decide +kernel)
    exact ⟨e, t, h, hmoves.expression h⟩
  · obtain ⟨q, t, h⟩ : ∃ q t, Procedure.readStatement natives (.blank "f" none {}) statement = (.ok q, t) :=
      exists_of_isOk (by decide +kernel)
    exact ⟨q, t, h, hmoves.statement h⟩
  · obtain ⟨a, t, h⟩ : ∃ a t, Item.readRound none argument = (.ok a, t) :=
      exists_of_isOk (by decide +kernel)
    exact ⟨a, t, h, hmoves.argument h⟩
  · obtain ⟨inner, t, h⟩ : ∃ inner t, (ofString "k [a[b]c] d").enterSection '[' ']' = (.ok inner, t) :=
      exists_of_isOk (by decide +kernel)
    exact ⟨inner, t, h, hmoves.inside h⟩
  · have hn : 2 * sum.remaining + 1 < 34 := by decide
    exact ⟨hn, (hends sum 34 hn).expression⟩
  · have hlength : (Node.parseAll "]]]").map List.length = .ok 3 := by decide +kernel
    obtain ⟨nodes, h, hthree⟩ := map_eq_ok_iff.1 hlength
    exact ⟨nodes, h, hthree, hnodes h⟩

end TreeScript
