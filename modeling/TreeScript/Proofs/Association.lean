import TreeScript.Proofs.Acceptance

/-!
# Association

There is no precedence.  Operands with operators between them are read from left to right, whatever the
operators are, how they are written and which blanks stand around them: each operator joins all that is
in front of it with the one operand behind it.  An operand may be any text that is accepted alone as one
operand; it stands for the same expression wherever it is put.

- `Operator.spellings`, `Operator.isSign_iff`: all the ways to write an operator.
- `IsOperand`, `isOperand_iff`: texts that are one operand, and of which expression.
- `Link`, `join`: an operator with the operand behind it, and what a chain of them makes of an expression.
- `exists_derives_link`, `exists_derives_links`: one link behind a text, and all of them.
- `parse_chain`: operands with operators between them are joined from the left.
-/

namespace TreeScript

open Text

namespace Operator

/-- All the ways to write an operator. -/
def spellings : Operator → List (List Char)
  | and => [['&']]
  | or => [['|']]
  | equal => [['='], ['=', '=']]
  | unequal => [['!'], ['!', '=']]
  | plus => [['+']]
  | minus => [['-']]
  | times => [['*']]
  | divide => [['/']]

theorem isSign_iff {op : Operator} {sign : List Char} : op.IsSign sign ↔ sign ∈ op.spellings := by
  constructor
  · rintro ⟨c, hc, hsign⟩
    unfold ofSign? at hc
    split at hc <;> cases hc <;> simpa [spellings, isComparison] using hsign
  · have hall : ∀ sign ∈ op.spellings, ofSign? (sign.headD ' ') = some op ∧
        (sign = [sign.headD ' '] ∨ op.isComparison = true ∧ sign = [sign.headD ' ', '=']) := by
      cases op <;> decide
    exact fun h => ⟨sign.headD ' ', hall sign h⟩

/-- No line end goes across a sign. -/
theorem lineFeeds_append_sign {op : Operator} {sign : List Char} (h : op.IsSign sign)
    (as bs : List Char) : lineFeeds (as ++ (sign ++ bs)) = lineFeeds as ++ (sign ++ lineFeeds bs) := by
  have hall : ∀ sign ∈ op.spellings, sign ≠ [] ∧ '\n' ∉ sign ∧ '\r' ∉ sign := by
    cases op <;> decide
  obtain ⟨hne, hfeed, hreturn⟩ := hall sign (isSign_iff.1 h)
  have hhead : (sign ++ bs).head? ≠ some '\n' := by
    rw [List.head?_append_of_ne_nil _ hne]
    exact fun heq => hfeed (List.mem_of_mem_head? heq)
  rw [lineFeeds_append_of_head? hhead, lineFeeds_append_of_not_mem hreturn]

end Operator

namespace Expr

variable {e x left : Expr}

/-! ### Operands -/

section

variable {text : String}

/-- A text that is accepted as one operand: the reader of operands leaves only blanks of it. -/
structure IsOperand (text : String) (e : Expr) : Prop where
  parse_eq : parse text = .ok e
  single : AllBlank (operand (Scanner.ofString text)).2.stream

/-- An operand ends with a character that is not blank. -/
theorem Derives.exists_eq_concat {extent : Extent} {cs : List Char} {us : List String}
    (h : Derives extent cs us e) (hextent : extent = .operand) :
    ∃ front c, cs = front ++ [c] ∧ isBlank c = false := by
  induction h with
  | @token u hu =>
    obtain hnil | ⟨front, c, hconcat⟩ := List.eq_nil_or_concat' u.toList
    · exact absurd hnil hu.ne_nil
    · exact ⟨front, c, hconcat, (hu.char c (by simp [hconcat])).1⟩
  | @minus pad cs us e hpad h ih =>
    obtain ⟨front, c, rfl, hc⟩ := ih rfl
    exact ⟨'-' :: (pad ++ front), c, by simp, hc⟩
  | @parentheses body us e hbody h => exact ⟨'(' :: body, ')', rfl, by decide⟩
  | single => cases hextent
  | pair => cases hextent
  | blank => cases hextent

/-- What is read alone as an operand is what the whole text stands for. -/
theorem IsOperand.operand_eq (h : IsOperand text e) :
    ∃ t, operand (Scanner.ofString text) = (.ok e, t) ∧ AllBlank t.stream := by
  obtain ⟨hparse, hsingle⟩ := h
  obtain ⟨v, hread, -⟩ := exists_read_of_wholeText hparse
  rw [read_eq] at hread
  rcases hfirst : operand (Scanner.ofString text) with ⟨_ | first, t⟩
  · rw [hfirst] at hread
    simp at hread
  · rw [hfirst] at hread hsingle
    -- no operator stands behind it
    have hend : t.skipBlank.stream = [] := by
      rw [Scanner.stream_skipBlank, List.dropWhile_eq_nil_iff.2 hsingle]
    dsimp only at hread
    rw [tail_done (by simp [hend])] at hread
    obtain rfl := Except.ok.inj (Prod.mk.inj hread).1
    exact ⟨t, rfl, hsingle⟩

/-- An operand is derived, blanks around it apart. -/
theorem IsOperand.exists_derives (h : IsOperand text e) :
    ∃ pad cs back us, AllBlank pad ∧ AllBlank back ∧ Derives .operand cs us e ∧
      lineFeeds text.toList = pad ++ (cs ++ back) := by
  obtain ⟨t, hread, ht⟩ := h.operand_eq
  obtain ⟨pad, cs, us, hpad, hs, hus⟩ :=
    derives_of_operand (fun _ _ _ hinside => derives_of_wholeText hinside) hread
  obtain ⟨front, c, rfl, hc⟩ := hus.exists_eq_concat rfl
  -- the end of the last line, which the text itself need not have, stands behind the operand
  obtain ⟨ending, hending, hline⟩ := endLine_eq_append (lineFeeds text.toList)
  have hsplit : pad ++ front ++ [c] ++ t.stream = lineFeeds text.toList ++ ending := by
    rw [← hline, ← unifyLineEnds_eq, ← Node.stream_ofString, hs]
    simp
  obtain ⟨back, htext, hback⟩ := exists_append_of_allBlank hc hending hsplit
  rw [hback] at ht
  exact ⟨pad, front ++ [c], back, us, hpad, (allBlank_append.1 ht).1, hus, by simp [htext]⟩

/-- **Which texts are one operand**: a token, parentheses, or a minus in front of an operand, with blanks
around it. -/
theorem isOperand_iff : IsOperand text e ↔ ∃ pad cs back us, AllBlank pad ∧ AllBlank back ∧
    Derives .operand cs us e ∧ lineFeeds text.toList = pad ++ (cs ++ back) := by
  constructor
  · exact IsOperand.exists_derives
  · rintro ⟨pad, cs, back, us, hpad, hback, hus, htext⟩
    obtain ⟨ending, hending, hline⟩ := endLine_eq_append (lineFeeds text.toList)
    have hrest : AllBlank (back ++ ending) := allBlank_append.2 ⟨hback, hending⟩
    have hunify : (Scanner.ofString text).stream = pad ++ (cs ++ (back ++ ending)) := by
      rw [Node.stream_ofString, unifyLineEnds_eq, hline, htext]
      simp
    obtain ⟨t, hread, ht⟩ := accepts_of_derives hus hpad (operandEnd_blank hrest) hunify
    refine ⟨parse_eq_ok_iff.2 ⟨us, ?_⟩, ?_⟩
    · rw [← Node.stream_ofString, hunify, ← List.append_assoc]
      exact .blank (.single hpad hus) hrest
    · rw [hread, ht]
      exact hrest

end

/-! ### Links -/

/-- An operator and the operand behind it, as they are written behind another operand. -/
structure Link where
  op : Operator
  /-- The blanks in front of the operator. -/
  before : List Char
  sign : List Char
  /-- The blanks behind the operator. -/
  behind : List Char
  operand : String
  value : Expr
  allBlank_before : AllBlank before
  mem_spellings : sign ∈ op.spellings
  allBlank_behind : AllBlank behind
  isOperand : IsOperand operand value

/-- The characters of a link. -/
def Link.text (l : Link) : List Char :=
  l.before ++ (l.sign ++ (l.behind ++ l.operand.toList))

/-- What links make of the expression in front of them, from left to right. -/
def join (left : Expr) (links : List Link) : Expr :=
  links.foldl (fun left l => binary l.op left l.value) left

section

variable {cs : List Char} {us : List String}

/-- **One link**: behind a whole expression, a link makes a pair of it. -/
theorem exists_derives_link (l : Link) (h : Derives .whole (lineFeeds cs) us left) :
    ∃ vs, Derives .whole (lineFeeds (cs ++ l.text)) vs (binary l.op left l.value) := by
  have hsign : l.op.IsSign l.sign := Operator.isSign_iff.2 l.mem_spellings
  obtain ⟨pad, ds, back, vs, hpad, hback, hvs, hoperand⟩ := l.isOperand.exists_derives
  obtain ⟨before, hbefore, hleft⟩ := exists_lineFeeds_append_blank l.allBlank_before cs
  obtain ⟨behind, hbehind, hright⟩ := exists_lineFeeds_blank_append l.allBlank_behind l.operand.toList
  have htext : lineFeeds (cs ++ l.text) =
      lineFeeds cs ++ before ++ (l.sign ++ (behind ++ pad ++ ds)) ++ back := by
    rw [Link.text, ← List.append_assoc, Operator.lineFeeds_append_sign hsign, hleft, hright, hoperand]
    simp
  rw [htext]
  exact ⟨us ++ vs,
    .blank (.pair (.blank h hbefore) hsign (allBlank_append.2 ⟨hbehind, hpad⟩) hvs) hback⟩

/-- **All links**: what they make of the expression in front of them is derived. -/
theorem exists_derives_links (links : List Link) (h : Derives .whole (lineFeeds cs) us left) :
    ∃ vs, Derives .whole (lineFeeds (cs ++ links.flatMap Link.text)) vs (join left links) := by
  induction links generalizing cs us left with
  | nil => exact ⟨us, by simpa [join] using h⟩
  | cons l links ih =>
    obtain ⟨vs, hvs⟩ := exists_derives_link l h
    obtain ⟨ws, hws⟩ := ih hvs
    refine ⟨ws, ?_⟩
    rw [List.flatMap_cons, ← List.append_assoc]
    exact hws

/-- A first operand, with nothing but blanks in front of it, is a whole expression. -/
theorem IsOperand.exists_derives_whole {first : String} {pad : List Char} (hpad : AllBlank pad)
    (h : IsOperand first e) : ∃ us, Derives .whole (lineFeeds (pad ++ first.toList)) us e := by
  obtain ⟨gap, ds, back, us, hgap, hback, hus, hoperand⟩ := h.exists_derives
  obtain ⟨front, hfront, hpad⟩ := exists_lineFeeds_blank_append hpad first.toList
  have htext : lineFeeds (pad ++ first.toList) = front ++ gap ++ ds ++ back := by
    rw [hpad, hoperand]
    simp
  rw [htext]
  exact ⟨us, .blank (.single (allBlank_append.2 ⟨hfront, hgap⟩) hus) hback⟩

/-- A text is derived as the reader sees it also with blanks behind it. -/
theorem Derives.unified_append_blank {pad : List Char} (hpad : AllBlank pad)
    (h : Derives .whole (lineFeeds cs) us e) : Derives .whole (unifyLineEnds (cs ++ pad)) us e := by
  obtain ⟨back, hback, hend⟩ := exists_lineFeeds_append_blank hpad cs
  obtain ⟨ending, hending, hline⟩ := endLine_eq_append (lineFeeds (cs ++ pad))
  rw [unifyLineEnds_eq, hline, hend]
  exact .blank (.blank h hback) hending

end

/-- **Strict left association**: operands with operators between them are accepted, and each operator has
all that is in front of it on its left. -/
theorem parse_chain {first : String} {front back : List Char} (hfront : AllBlank front)
    (hfirst : IsOperand first x) (links : List Link) (hback : AllBlank back) :
    parse (String.ofList (front ++ first.toList ++ links.flatMap Link.text ++ back)) =
      .ok (join x links) := by
  obtain ⟨us, hus⟩ := hfirst.exists_derives_whole hfront
  obtain ⟨vs, hvs⟩ := exists_derives_links links hus
  have hunified := hvs.unified_append_blank hback
  exact parse_eq_ok_iff.2 ⟨vs, by rwa [String.toList_ofList]⟩

theorem parse_chain_sample :
    IsOperand " 2" (literal "2") ∧
      IsOperand "(1 + 3)\r" (binary .plus (literal "1") (literal "3")) ∧
      IsOperand "- -hp" (negative (negative (literal "hp"))) ∧
      parse "\t 2==(1 + 3)\r\n!- -hp " =
        .ok (binary .unequal
          (binary .equal (literal "2") (binary .plus (literal "1") (literal "3")))
          (negative (negative (literal "hp")))) := by
  have hfirst : IsOperand " 2" (literal "2") :=
    ⟨by with_unfolding_all rfl, List.all_eq_true.1 (by with_unfolding_all rfl)⟩
  have hsum : IsOperand "(1 + 3)\r" (binary .plus (literal "1") (literal "3")) :=
    ⟨by with_unfolding_all rfl, List.all_eq_true.1 (by with_unfolding_all rfl)⟩
  have hname : IsOperand "- -hp" (negative (negative (literal "hp"))) :=
    ⟨by with_unfolding_all rfl, List.all_eq_true.1 (by with_unfolding_all rfl)⟩
  let same : Link :=
    ⟨.equal, [], ['=', '='], [], _, _, allBlank_nil, by decide, allBlank_nil, hsum⟩
  -- with the carriage return of the operand in front its line feed is one line end
  let other : Link :=
    ⟨.unequal, ['\n'], ['!'], [], _, _, allBlank_lineFeed, by decide, allBlank_nil, hname⟩
  have htext : "\t 2==(1 + 3)\r\n!- -hp ".toList =
      ['\t'] ++ " 2".toList ++ [same, other].flatMap Link.text ++ [' '] := by
    simp [Link.text, same, other]
  have htab : AllBlank ['\t'] := allBlank_replicate_tab 1
  have hparse := parse_chain htab hfirst [same, other] allBlank_space
  rw [← htext, String.ofList_toList] at hparse
  exact ⟨hfirst, hsum, hname, hparse⟩

end Expr

end TreeScript
