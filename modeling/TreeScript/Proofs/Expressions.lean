import TreeScript.Expr.Reader
import TreeScript.Proofs.Brackets

/-!
# Printed expressions

A printed expression is read back, wherever it stands, if its literals are tokens and no sign of a
number was left to a negation.  Pairs are printed in parentheses, so the order in which operators are
applied does not matter for them.

- `Printable`: the form of expressions that were read.
- `operand`, `tail`: the parts of the reader, with sections read as whole expressions.
- `operand_eq`, `tail_eq`, `read_eq`: one step of each.
- `OperandEnd`, `IsSeparated`: the texts that can stand behind an operand, and behind an expression in a list.
- `operand_run`, `operand_minus`, `operand_section`: one success for each shape of an operand.
- `operand_written`, `read_written`: printed expressions are read back.
-/

namespace TreeScript.Expr

open Text

/-! ### The form of expressions that were read -/

/-- A text that is one token, and no parenthesis. -/
structure IsToken (text : String) : Prop where
  ne_nil : text.toList ≠ []
  char : ∀ c ∈ text.toList, isBlank c = false ∧ c ∉ tokenStops ∧ c ≠ '(' ∧ c ≠ ')'

instance (text : String) : Decidable (IsToken text) :=
  decidable_of_iff (text.toList ≠ [] ∧ text.toList.all (fun c => !isBlank c &&
      decide (c ∉ tokenStops ∧ c ≠ '(' ∧ c ≠ ')')) = true)
    ⟨fun h => ⟨h.1, by simpa using h.2⟩, fun h => ⟨h.ne_nil, by simpa using h.char⟩⟩

/-- A text that is read as a literal: a token, or a number behind a minus. -/
def IsLiteral (text : String) : Prop :=
  IsToken text ∨ ∃ u, text = "-" ++ u ∧ IsToken u ∧ Number.looksDecimal u.toList = true

/-- The form of expressions that were read.  A number without a sign is never negated, because it gets
the sign itself. -/
def Printable : Expr → Prop
  | literal text => IsLiteral text
  | negative inner => inner.Printable ∧ ∀ text, inner = literal text →
      Number.looksDecimal text.toList = true → text.toList.head? = some '-'
  | binary _ left right => left.Printable ∧ right.Printable

theorem IsToken.not_mem {text : String} (h : IsToken text) {c : Char}
    (hc : isBlank c = true ∨ c ∈ tokenStops ∨ c = '(' ∨ c = ')') : c ∉ text.toList := by
  intro hmem
  obtain ⟨hblank, hstop, hopen, hclose⟩ := h.char c hmem
  rcases hc with hc | hc | hc | hc
  · exact Bool.false_ne_true (hblank.symm.trans hc)
  · exact hstop hc
  · exact hopen hc
  · exact hclose hc

/-- A literal has no blanks, and none of the delimiters of arguments. -/
theorem IsLiteral.char {text : String} (h : IsLiteral text) :
    ∀ c ∈ text.toList, isBlank c = false ∧ c ∉ [']', ';', '('] := by
  have htoken : ∀ u, IsToken u → ∀ c ∈ u.toList, isBlank c = false ∧ c ∉ [']', ';', '('] := by
    intro u hu c hc
    obtain ⟨hblank, hstop, hopen, -⟩ := hu.char c hc
    simp only [tokenStops, List.mem_append, not_or] at hstop
    simp_all
  rcases h with h | ⟨u, rfl, hu, -⟩
  · exact htoken text h
  · intro c hc
    rw [String.toList_append, List.mem_append] at hc
    rcases hc with hc | hc
    · obtain rfl : c = '-' := by simpa using hc
      decide
    · exact htoken u hu c hc

/-- The characters that the printer puts in. -/
def printerChars : List Char := ['(', ')', ' '] ++ Operator.signs

/-- A character that is in no token and that the printer does not put in is in no printed
expression. -/
theorem Printable.not_mem {e : Expr} (he : e.Printable) {c : Char}
    (htoken : isBlank c = true ∨ c ∈ tokenStops ∨ c = '(' ∨ c = ')') (hprinter : c ∉ printerChars) :
    c ∉ e.written.toList := by
  have hminus : c ∉ ("-" : String).toList := by
    intro hmem
    obtain rfl : c = '-' := by simpa using hmem
    exact hprinter (by decide)
  induction e with
  | literal text =>
    rcases he with htext | ⟨u, rfl, hu, -⟩
    · exact htext.not_mem htoken
    · rw [written, String.toList_append, List.mem_append, not_or]
      exact ⟨hminus, hu.not_mem htoken⟩
  | negative inner ih =>
    rw [written, String.toList_append, List.mem_append, not_or]
    exact ⟨hminus, ih he.1⟩
  | binary op left right ihl ihr =>
    have hl := ihl he.1
    have hr := ihr he.2
    have hsigns : op.symbol.toList.all (· ∈ Operator.signs) = true := by cases op <;> decide
    have hop : c ∉ op.symbol.toList := by
      intro hmem
      exact hprinter (List.mem_append_right _ (by simpa using List.all_eq_true.1 hsigns c hmem))
    simp only [printerChars, List.cons_append, List.nil_append, List.mem_cons, not_or] at hprinter
    simp [written, hl, hr, hop, hprinter]

/-- What a printed pair has between its parentheses. -/
def pairText (op : Operator) (left right : Expr) : List Char :=
  left.written.toList ++ ' ' :: (op.symbol.toList ++ ' ' :: right.written.toList)

theorem toList_written_binary (op : Operator) (left right : Expr) :
    (binary op left right).written.toList = '(' :: (pairText op left right ++ [')']) := by
  simp [written, pairText]

theorem balanced_pairText {op : Operator} {left right : Expr}
    (hleft : Balanced '(' ')' left.written.toList)
    (hright : Balanced '(' ')' right.written.toList) :
    Balanced '(' ')' (pairText op left right) := by
  have hop : Balanced '(' ')' (' ' :: (op.symbol.toList ++ [' '])) := by
    cases op <;> exact balanced_of_not_mem (by decide) (by decide)
  have htext : pairText op left right =
      left.written.toList ++ ((' ' :: (op.symbol.toList ++ [' '])) ++ right.written.toList) := by
    simp [pairText]
  rw [htext]
  exact hleft.append (hop.append hright)

/-- The parentheses of a printed expression belong together in pairs. -/
theorem Printable.balanced {e : Expr} (he : e.Printable) : Balanced '(' ')' e.written.toList := by
  have htoken : ∀ u, IsToken u → Balanced '(' ')' u.toList := fun u hu =>
    balanced_of_not_mem (hu.not_mem (by simp)) (hu.not_mem (by simp))
  have hminus : Balanced '(' ')' ("-" : String).toList :=
    balanced_of_not_mem (by decide) (by decide)
  induction e with
  | literal text =>
    rcases he with htext | ⟨u, rfl, hu, -⟩
    · exact htoken text htext
    · rw [written, String.toList_append]
      exact hminus.append (htoken u hu)
  | negative inner ih =>
    rw [written, String.toList_append]
    exact hminus.append (ih he.1)
  | binary op left right ihl ihr =>
    rw [toList_written_binary]
    exact (balanced_pairText (ihl he.1) (ihr he.2)).enclose

/-- A printed expression starts with a character of its own. -/
theorem Printable.exists_cons {e : Expr} (he : e.Printable) :
    ∃ c cs, e.written.toList = c :: cs ∧ isBlank c = false ∧ c ≠ ']' := by
  cases e with
  | literal text =>
    have hne : text.toList ≠ [] := by
      rcases he with h | ⟨u, rfl, -⟩
      · exact h.ne_nil
      · simp
    obtain ⟨c, cs, hcs⟩ := List.exists_cons_of_ne_nil hne
    obtain ⟨hblank, hstop⟩ := he.char c (by simp [hcs])
    exact ⟨c, cs, hcs, hblank, fun h => hstop (by simp [h])⟩
  | negative inner =>
    refine ⟨'-', inner.written.toList, ?_, by decide, by decide⟩
    rw [written, String.toList_append]
    rfl
  | binary op left right =>
    exact ⟨'(', _, toList_written_binary op left right, by decide, by decide⟩

/-! ### The parts of the reader -/

/-- Reads an operand; a section is one whole expression. -/
def operand (s : Scanner) : Except Error Expr × Scanner :=
  readOperand s fun t _ => wholeText (read t)

/-- Reads operators and operands behind an operand; a section is one whole expression. -/
def tail (left : Expr) (s : Scanner) : Except Error Expr × Scanner :=
  readTail left s fun t _ => wholeText (read t)

theorem read_eq (s : Scanner) :
    read s =
      match operand s with
      | (.error e, t) => (.error e, t)
      | (.ok left, t) => tail left t := by
  rw [read, readWith, operand]
  split
  · next h => rw [h]
  · next h => rw [h]; rfl

theorem operand_eq (s : Scanner) :
    operand s =
      match s.skipBlank.stream with
      | '(' :: _ =>
        match s.skipBlank.findSection '(' ')' with
        | (.error e, t) => (.error e, t)
        | (.ok body, t) => (wholeText (read body.scanner), t)
      | '-' :: _ =>
        ((operand (s.skipBlank.advance 1)).1.map negate, (operand (s.skipBlank.advance 1)).2)
      | _ => readToken s.skipBlank.position s.skipBlank := by
  rw [operand, readOperand]
  split
  · next hs =>
    simp only [hs]
    split
    · next h => simp only [h]
    · next h => simp only [h]
  · next hs =>
    simp only [hs]
    rfl
  · next hopen hminus =>
    split
    · next h => exact absurd h (hopen _)
    · next h => exact absurd h (hminus _)
    · rfl

theorem tail_eq (left : Expr) (s : Scanner) :
    tail left s =
      match readOperator? s.skipBlank with
      | none => (.ok left, s.skipBlank)
      | some (op, t) =>
        match operand t with
        | (.error e, u) => (.error e, u)
        | (.ok right, u) => tail (binary op left right) u := by
  rw [tail, readTail]
  split
  · next h => simp only [h]
  · next h =>
    simp only [h, operand]
    split
    · next h' => simp only [h']
    · next h' => simp only [h']; rfl

/-- A text that can stand behind an operand. -/
def OperandEnd (rest : List Char) : Prop := ∀ c ∈ rest.head?, isBlank c = true ∨ c ∈ tokenStops

theorem operandEnd_blank {pad : List Char} (h : AllBlank pad) : OperandEnd pad :=
  fun c hc => Or.inl (h c (List.mem_of_mem_head? hc))

theorem operandEnd_of_allBlank {pad rest : List Char} (h : AllBlank pad)
    (hrest : pad = [] → OperandEnd rest) : OperandEnd (pad ++ rest) := by
  cases pad with
  | nil => exact hrest rfl
  | cons c pad =>
    intro d hd
    obtain rfl : c = d := by simpa using hd
    exact Or.inl (allBlank_cons.1 h).1

/-- A text that starts with a character that ends an expression and its list. -/
def IsSeparated (rest : List Char) : Prop := ∃ more, rest = ';' :: more ∨ rest = ']' :: more

section

variable {rest : List Char}

theorem IsSeparated.head?_eq (h : IsSeparated rest) : rest.head? = some ';' ∨ rest.head? = some ']' := by
  obtain ⟨more, rfl | rfl⟩ := h
  · exact .inl rfl
  · exact .inr rfl

theorem IsSeparated.flush (h : IsSeparated rest) : Flush rest := by
  obtain ⟨more, rfl | rfl⟩ := h
  · exact flush_cons.2 (by decide)
  · exact flush_cons.2 (by decide)

theorem IsSeparated.operandEnd (h : IsSeparated rest) : OperandEnd rest := by
  obtain ⟨more, rfl | rfl⟩ := h
  · simp [OperandEnd, tokenStops]
  · simp [OperandEnd, tokenStops]

end

section

variable {s : Scanner} {pad rest : List Char}

/-- A token is read up to the next blank or stop.  Behind its first character it may have parentheses. -/
theorem operand_run {u : String} (hpad : AllBlank pad) (hne : u.toList ≠ [])
    (hchar : ∀ c ∈ u.toList, isBlank c = false ∧ c ∉ tokenStops) (hhead : u.toList.head? ≠ some '(')
    (hrest : OperandEnd rest) (hs : s.stream = pad ++ (u.toList ++ rest)) :
    ∃ t, operand s = (.ok (literal u), t) ∧ t.stream = rest := by
  obtain ⟨c, cs, hcs⟩ := List.exists_cons_of_ne_nil hne
  obtain ⟨hblank, hstop⟩ := hchar c (by simp [hcs])
  have hopen : c ≠ '(' := fun heq => hhead (by rw [hcs, heq]; rfl)
  have hskip : s.skipBlank.stream = u.toList ++ rest := by
    refine Scanner.skipBlank_of_stream hs hpad ?_
    rw [hcs]
    exact flush_cons.2 hblank
  obtain ⟨t, hread, ht⟩ := Scanner.readUntil_of_stream
    (fun c => isBlank c || decide (c ∈ tokenStops)) hskip
    (fun d hd => by simp [(hchar d hd).1, (hchar d hd).2])
    (fun d hd => by simpa using hrest d hd)
  refine ⟨t, ?_, ht⟩
  rw [operand_eq, hskip, hcs]
  split
  · next h => exact absurd (List.cons.inj h).1 hopen
  · next h =>
    rw [(List.cons.inj h).1] at hstop
    exact absurd (by decide) hstop
  · simp [readToken, Scanner.readUntilBlankOr, hread, hne]

theorem operand_token {u : String} (hpad : AllBlank pad) (hu : IsToken u) (hrest : OperandEnd rest)
    (hs : s.stream = pad ++ (u.toList ++ rest)) :
    ∃ t, operand s = (.ok (literal u), t) ∧ t.stream = rest := by
  refine operand_run hpad hu.ne_nil (fun c hc => ?_) (fun hhead => ?_) hrest hs
  · exact ⟨(hu.char c hc).1, (hu.char c hc).2.1⟩
  · exact (hu.char '(' (List.mem_of_mem_head? hhead)).2.2.1 rfl

theorem operand_minus (hpad : AllBlank pad) (hs : s.stream = pad ++ '-' :: rest) :
    ∃ u : Scanner, u.stream = rest ∧ operand s = ((operand u).1.map negate, (operand u).2) := by
  have hskip : s.skipBlank.stream = '-' :: rest :=
    Scanner.skipBlank_of_stream hs hpad (flush_cons.2 (by decide))
  refine ⟨s.skipBlank.advance 1, by rw [Scanner.stream_advance, hskip]; rfl, ?_⟩
  rw [operand_eq, hskip]
  rfl

theorem operand_section {body : List Char} (hpad : AllBlank pad) (hbody : Balanced '(' ')' body)
    (hs : s.stream = pad ++ '(' :: (body ++ ')' :: rest)) :
    ∃ inner t : Scanner, inner.stream = unifyLineEnds body ∧ t.stream = rest ∧
      operand s = (wholeText (read inner), t) := by
  have hskip : s.skipBlank.stream = '(' :: (body ++ ')' :: rest) :=
    Scanner.skipBlank_of_stream hs hpad (flush_cons.2 (by decide))
  obtain ⟨origin, t, hsection, ht⟩ :=
    Scanner.findSection_complete (by decide) List.not_mem_nil hbody hskip
  refine ⟨Scanner.Section.scanner ⟨body, origin⟩, t, Scanner.stream_ofChars _ _, ht, ?_⟩
  rw [operand_eq, hskip]
  simp only [hsection]

theorem tail_done {left : Expr} (h : ∀ c ∈ s.skipBlank.stream.head?, c ∉ Operator.signs) :
    tail left s = (.ok left, s.skipBlank) := by
  have hnone : readOperator? s.skipBlank = none := by
    rw [readOperator?, Option.map_eq_none_iff, Option.bind_eq_none_iff]
    intro c hc
    have := h c hc
    rw [Operator.mem_signs_iff] at this
    simpa using this
  rw [tail_eq, hnone]

/-- A printed operator is read, and the blank behind it is not. -/
theorem readOperator?_of_stream (op : Operator) (hs : s.stream = op.symbol.toList ++ ' ' :: rest) :
    ∃ t, readOperator? s = some (op, t) ∧ t.stream = ' ' :: rest := by
  cases op with
  | equal =>
    have hs' : s.stream = '=' :: ' ' :: rest := hs
    refine ⟨((s.advance 1).accept '=').2, ?_, ?_⟩
    · simp [readOperator?, hs', Operator.ofSign?, Operator.isComparison]
    · simp [Scanner.accept, hs']
  | unequal =>
    have hs' : s.stream = '!' :: '=' :: ' ' :: rest := hs
    refine ⟨((s.advance 1).accept '=').2, ?_, ?_⟩
    · simp [readOperator?, hs', Operator.ofSign?, Operator.isComparison]
    · simp [Scanner.accept, hs']
  | _ =>
    refine ⟨s.advance 1, ?_, ?_⟩
    · rw [readOperator?, hs]
      rfl
    · rw [Scanner.stream_advance, hs]
      rfl

theorem tail_operator (left : Expr) (op : Operator) (hpad : AllBlank pad)
    (hs : s.stream = pad ++ (op.symbol.toList ++ ' ' :: rest)) :
    ∃ u : Scanner, u.stream = ' ' :: rest ∧ tail left s =
      match operand u with
      | (.error e, v) => (.error e, v)
      | (.ok right, v) => tail (binary op left right) v := by
  have hflush : Flush (op.symbol.toList ++ ' ' :: rest) := by
    cases op <;> exact flush_cons.2 (by decide)
  have hskip := Scanner.skipBlank_of_stream hs hpad hflush
  obtain ⟨u, hop, hu⟩ := readOperator?_of_stream op hskip
  refine ⟨u, hu, ?_⟩
  rw [tail_eq, hop]

end

/-! ### Printed expressions -/

/-- A number without a sign gets a minus. -/
theorem negate_of_looksDecimal {u : String} (hu : IsToken u)
    (hnumber : Number.looksDecimal u.toList = true) : negate (literal u) = literal ("-" ++ u) := by
  have hhead : ∀ c ∈ tokenStops, u.toList.head? ≠ some c := fun c hc h =>
    hu.not_mem (Or.inr (Or.inl hc)) (List.mem_of_mem_head? h)
  have hminus := hhead '-' (by decide)
  have hplus := hhead '+' (by decide)
  simp [negate, hnumber, hminus, hplus]

/-- Anything else is negated as a whole. -/
theorem negate_of_printable {inner : Expr} (h : (negative inner).Printable) :
    negate inner = negative inner := by
  cases inner with
  | literal text =>
    rw [negate]
    by_cases hnumber : Number.looksDecimal text.toList = true
    · simp [h.2 text rfl hnumber]
    · simp [hnumber]
  | negative inner => rfl
  | binary op left right => rfl

theorem wholeText_of_blank {e : Expr} {s : Scanner} (h : s.skipBlank.stream = []) :
    wholeText (.ok e, s) = .ok e := by
  simp only [wholeText, h]

/-- **Printed expressions are operands**: one is read back wherever it stands. -/
theorem operand_written {e : Expr} (he : e.Printable) {s : Scanner} {pad rest : List Char}
    (hpad : AllBlank pad) (hrest : OperandEnd rest)
    (hs : s.stream = pad ++ (e.written.toList ++ rest)) :
    ∃ t, operand s = (.ok e, t) ∧ t.stream = rest := by
  induction e generalizing s pad rest with
  | literal text =>
    rcases he with htext | ⟨u, rfl, hu, hnumber⟩
    · exact operand_token hpad htext hrest hs
    · have hminus : s.stream = pad ++ '-' :: ([] ++ (u.toList ++ rest)) := by
        rw [hs, written, String.toList_append]
        rfl
      obtain ⟨v, hv, hread⟩ := operand_minus hpad hminus
      obtain ⟨t, hinner, ht⟩ := operand_token allBlank_nil hu hrest hv
      refine ⟨t, ?_, ht⟩
      rw [hread, hinner, ← negate_of_looksDecimal hu hnumber]
      rfl
  | negative inner ih =>
    have hminus : s.stream = pad ++ '-' :: ([] ++ (inner.written.toList ++ rest)) := by
      rw [hs, written, String.toList_append]
      rfl
    obtain ⟨v, hv, hread⟩ := operand_minus hpad hminus
    obtain ⟨t, hinner, ht⟩ := ih he.1 allBlank_nil hrest hv
    refine ⟨t, ?_, ht⟩
    rw [hread, hinner, ← negate_of_printable he]
    rfl
  | binary op left right ihl ihr =>
    -- the inside of the parentheses is a whole expression: an operand, the operator, an operand
    have hbody : Balanced '(' ')' (pairText op left right) :=
      balanced_pairText he.1.balanced he.2.balanced
    have hreturn : '\r' ∉ pairText op left right := by
      have h := Printable.not_mem he (Or.inl (by decide : isBlank '\r' = true)) (by decide)
      rw [toList_written_binary] at h
      simp_all
    rw [toList_written_binary] at hs
    obtain ⟨inner, t, hinner, ht, hread⟩ :=
      operand_section hpad hbody (by simpa using hs)
    -- the scanner of the section may see the end of a line behind the right operand
    obtain ⟨ending, hending, hline⟩ := endLine_eq_append (pairText op left right)
    rw [unifyLineEnds_of_not_mem hreturn, hline] at hinner
    have hpair : inner.stream = [] ++ (left.written.toList ++ ([' '] ++
        (op.symbol.toList ++ ' ' :: (right.written.toList ++ ending)))) := by
      simpa [pairText] using hinner
    obtain ⟨u, hleft, hu⟩ := ihl he.1 allBlank_nil (operandEnd_of_allBlank allBlank_space (by simp)) hpair
    obtain ⟨v, hv, htail⟩ := tail_operator left op allBlank_space hu
    obtain ⟨w, hright, hw⟩ := ihr he.2 allBlank_space (operandEnd_blank hending) hv
    -- nothing is left in the section, so the pair is the whole text of it
    have hend : w.skipBlank.stream = [] := by
      rw [Scanner.stream_skipBlank, hw, List.dropWhile_eq_nil_iff.2 hending]
    have hdone : tail (binary op left right) w = (.ok (binary op left right), w.skipBlank) :=
      tail_done (by simp [hend])
    refine ⟨t, ?_, ht⟩
    rw [hread, read_eq, hleft]
    simp only [htail, hright, hdone]
    rw [wholeText_of_blank (by rw [Scanner.stream_skipBlank, hend]; rfl)]

/-- A printed expression is read up to what stands behind it, if that is no operator. -/
theorem read_written {e : Expr} (he : e.Printable) {s : Scanner} {pad rest : List Char}
    (hpad : AllBlank pad) (hrest : OperandEnd rest)
    (hoperator : ∀ c ∈ (trimStart rest).head?, c ∉ Operator.signs)
    (hs : s.stream = pad ++ (e.written.toList ++ rest)) :
    ∃ t, read s = (.ok e, t) ∧ t.stream = trimStart rest := by
  obtain ⟨u, hread, hu⟩ := operand_written he hpad hrest hs
  have hskip : u.skipBlank.stream = trimStart rest := by
    rw [Scanner.stream_skipBlank, hu, trimStart]
  refine ⟨u.skipBlank, ?_, hskip⟩
  rw [read_eq, hread]
  exact tail_done (by rwa [hskip])

end TreeScript.Expr
