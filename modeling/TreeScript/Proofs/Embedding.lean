import TreeScript.Proofs.Association
import TreeScript.Proofs.Parentheses

/-!
# Embedded expressions

An expression stands in a longer text, or it is a text of its own.  The first reader stops in front of the
first character that is neither blank nor an operator, the second one wants the end of the text there; and
the line ends of a text of its own are written anew.  None of this changes what an expression is: what is
read in a longer text is what that part of it stands for alone, and a text that is accepted alone is read in
front of every separator.

- `derives_lineFeeds_iff`: line ends are blanks, in whatever form.
- `Derives.exists_core`, `derives_append_blank_iff`: blanks at the end of an expression.
- `parse_eq_ok_iff_derives`: a text as it is, and not as the reader sees it.
- `Stops`, `stops_of_read`: where the reader stops.
- `read_of_derives`: what is derived is read in front of a separator.
- `read_agrees_parse`: both readers.
-/

namespace TreeScript

open Text

theorem Operator.IsSign.not_mem_lineFeed {op : Operator} {sign : List Char} (h : op.IsSign sign) :
    '\n' ∉ sign := by
  have hall : ∀ sign ∈ op.spellings, '\n' ∉ sign := by
    cases op <;> decide
  exact hall sign (Operator.isSign_iff.1 h)

namespace Expr

variable {extent : Extent} {cs ds pad rest : List Char} {us : List String} {e left : Expr}

/-! ### Line ends in any form -/

/-- Parentheses stay balanced when line ends are written anew. -/
theorem balanced_lineFeeds_iff (body : List Char) :
    Balanced '(' ')' (lineFeeds body) ↔ Balanced '(' ')' body := by
  have hline : delimiters '(' ')' (lineFeeds body) = delimiters '(' ')' body :=
    delimiters_lineFeeds (by decide) (by decide) body
  exact balanced_congr hline

theorem IsRun.not_mem {u : String} (h : IsRun u) {c : Char} (hc : isBlank c = true) : c ∉ u.toList :=
  fun hmem => Bool.false_ne_true ((h.char c hmem).1.symm.trans hc)

theorem lineFeeds_parentheses (body : List Char) :
    lineFeeds ('(' :: (body ++ [')'])) = '(' :: (lineFeeds body ++ [')']) := by
  rw [lineFeeds_cons_of_ne (by decide), lineFeeds_append_of_head? (by decide)]
  rfl

/-- The line ends of what is derived can be written anew. -/
theorem Derives.lineFeeds (h : Derives extent cs us e) : Derives extent (lineFeeds cs) us e := by
  induction h with
  | token hu =>
    rw [lineFeeds_of_not_mem (hu.not_mem (by decide))]
    exact .token hu
  | @minus pad cs us e hpad h ih =>
    obtain ⟨front, hfront, hmeet⟩ := exists_lineFeeds_blank_append hpad cs
    rw [lineFeeds_cons_of_ne (by decide), hmeet]
    exact .minus hfront ih
  | @parentheses body us e hbody h ih =>
    rw [lineFeeds_parentheses]
    exact .parentheses ((balanced_lineFeeds_iff body).2 hbody) (by rwa [unifyLineEnds_lineFeeds])
  | @single pad cs us e hpad h ih =>
    obtain ⟨front, hfront, hmeet⟩ := exists_lineFeeds_blank_append hpad cs
    rw [hmeet]
    exact .single hfront ih
  | @pair cs sign pad ds us vs op left right hleft hsign hpad hright ihl ihr =>
    obtain ⟨front, hfront, hmeet⟩ := exists_lineFeeds_blank_append hpad ds
    rw [Operator.lineFeeds_append_sign hsign, hmeet]
    exact .pair ihl hsign hfront ihr
  | @blank cs pad us e h hpad ih =>
    obtain ⟨back, hback, hmeet⟩ := exists_lineFeeds_append_blank hpad cs
    rw [hmeet]
    exact .blank ih hback

/-- What is derived was derived before its line ends were written anew. -/
theorem derives_of_lineFeeds (h : Derives extent (lineFeeds cs) us e) : Derives extent cs us e := by
  generalize hcs : Text.lineFeeds cs = text at h
  induction h generalizing cs with
  | token hu =>
    obtain rfl := eq_of_lineFeeds_eq hcs (hu.not_mem (by decide))
    exact .token hu
  | @minus pad text us e hpad h ih =>
    obtain ⟨inner, rfl, hinner⟩ := exists_of_lineFeeds_eq_cons (by decide) hcs
    obtain ⟨gap, ds, rfl, hgap, hds⟩ := exists_of_lineFeeds_eq_append hinner
    exact .minus (hgap ▸ hpad).of_lineFeeds (ih hds)
  | @parentheses body us e hbody h ih =>
    obtain ⟨inner, rfl, hinner⟩ := exists_of_lineFeeds_eq_cons (by decide) hcs
    obtain ⟨ds, closing, rfl, rfl, hclosing⟩ := exists_of_lineFeeds_eq_append hinner
    obtain rfl := eq_of_lineFeeds_eq hclosing (by decide)
    rw [unifyLineEnds_lineFeeds] at h
    exact .parentheses ((balanced_lineFeeds_iff ds).1 hbody) h
  | @single pad text us e hpad h ih =>
    obtain ⟨gap, ds, rfl, hgap, hds⟩ := exists_of_lineFeeds_eq_append hcs
    exact .single (hgap ▸ hpad).of_lineFeeds (ih hds)
  | @pair text sign pad operand us vs op left right hleft hsign hpad hright ihl ihr =>
    obtain ⟨as, behind, rfl, has, hbehind⟩ := exists_of_lineFeeds_eq_append hcs
    obtain ⟨signs, inner, rfl, hsigns, hinner⟩ := exists_of_lineFeeds_eq_append hbehind
    obtain ⟨gap, ds, rfl, hgap, hds⟩ := exists_of_lineFeeds_eq_append hinner
    obtain rfl := eq_of_lineFeeds_eq hsigns hsign.not_mem_lineFeed
    exact .pair (ihl has) hsign (hgap ▸ hpad).of_lineFeeds (ihr hds)
  | @blank text pad us e h hpad ih =>
    obtain ⟨ds, back, rfl, hds, hback⟩ := exists_of_lineFeeds_eq_append hcs
    exact .blank (ih hds) (hback ▸ hpad).of_lineFeeds

/-- **Line ends are blanks, in whatever form.** -/
theorem derives_lineFeeds_iff : Derives extent (lineFeeds cs) us e ↔ Derives extent cs us e :=
  ⟨derives_of_lineFeeds, Derives.lineFeeds⟩

/-! ### Blanks at the end -/

/-- A whole expression ends with a character that is not blank, apart from blanks behind it. -/
theorem Derives.exists_core (h : Derives extent cs us e) (hextent : extent = .whole) :
    ∃ front c back, cs = front ++ [c] ++ back ∧ isBlank c = false ∧ AllBlank back ∧
      Derives .whole (front ++ [c]) us e := by
  induction h with
  | token => cases hextent
  | minus => cases hextent
  | parentheses => cases hextent
  | @single pad cs us e hpad h =>
    obtain ⟨front, c, rfl, hc⟩ := h.exists_eq_concat rfl
    refine ⟨pad ++ front, c, [], by simp, hc, allBlank_nil, ?_⟩
    rw [List.append_assoc]
    exact .single hpad h
  | @pair cs sign pad ds us vs op left right hleft hsign hpad hright =>
    obtain ⟨front, c, rfl, hc⟩ := hright.exists_eq_concat rfl
    have hsplit : cs ++ (sign ++ (pad ++ (front ++ [c]))) =
        cs ++ (sign ++ (pad ++ front)) ++ [c] := by simp
    refine ⟨cs ++ (sign ++ (pad ++ front)), c, [], by simp, hc, allBlank_nil, ?_⟩
    rw [← hsplit]
    exact .pair hleft hsign hpad hright
  | @blank cs pad us e h hpad ih =>
    obtain ⟨front, c, back, rfl, hc, hback, hcore⟩ := ih rfl
    exact ⟨front, c, back ++ pad, by simp, hc, allBlank_append.2 ⟨hback, hpad⟩, hcore⟩

/-- Blanks behind a whole expression can be taken away. -/
theorem derives_append_blank_iff (hpad : AllBlank pad) :
    Derives .whole (cs ++ pad) us e ↔ Derives .whole cs us e := by
  constructor
  · intro h
    obtain ⟨front, c, back, hsplit, hc, hback, hcore⟩ := h.exists_core rfl
    obtain ⟨more, rfl, rfl⟩ := exists_append_of_allBlank hc hpad hsplit.symm
    exact .blank hcore (allBlank_append.1 hback).1
  · exact fun h => .blank h hpad

/-- **Which texts are accepted**, without regard to how the reader sees their line ends. -/
theorem parse_eq_ok_iff_derives {text : String} :
    parse text = .ok e ↔ ∃ us, Derives .whole text.toList us e := by
  obtain ⟨ending, hending, hline⟩ := endLine_eq_append (lineFeeds text.toList)
  simp only [parse_eq_ok_iff, unifyLineEnds_eq, hline, derives_append_blank_iff hending,
    derives_lineFeeds_iff]

/-! ### Where the reader stops -/

/-- A text that an expression does not go on into: it starts with neither a blank nor an operator. -/
def Stops (rest : List Char) : Prop := ∀ c ∈ rest.head?, isBlank c = false ∧ c ∉ Operator.signs

theorem stops_of_tail {s t : Scanner} (h : tail left s = (.ok e, t)) : Stops t.stream := by
  induction hn : s.remaining using Nat.strong_induction_on generalizing s left with
  | _ n ih =>
    subst hn
    rw [tail_eq] at h
    split at h
    · next hop =>
      obtain ⟨-, rfl⟩ := Prod.mk.inj h
      intro c hc
      refine ⟨by simpa using s.flush_skipBlank c hc, fun hsign => ?_⟩
      obtain ⟨op, hop'⟩ := Option.isSome_iff_exists.1 ((Operator.mem_signs_iff c).1 hsign)
      rw [readOperator?, Option.mem_def.1 hc] at hop
      simp [hop'] at hop
    · next op u hop =>
      split at h
      · simp at h
      · next right v hright =>
        have hlt : u.remaining < s.remaining :=
          Nat.lt_of_lt_of_le (remaining_readOperator?_lt hop) s.remaining_skipBlank_le
        exact ih _ (Nat.lt_trans (remaining_readOperand_lt hright) hlt) h rfl

/-- **The reader stops** in front of the first character that is neither blank nor an operator. -/
theorem stops_of_read {s t : Scanner} (h : read s = (.ok e, t)) : Stops t.stream := by
  rw [read_eq] at h
  split at h
  · simp at h
  · exact stops_of_tail h

/-! ### Separators -/

theorem IsSeparated.stops (h : IsSeparated rest) : Stops rest := by
  intro c hc
  rcases h.head?_eq with hhead | hhead
  · obtain rfl := Option.mem_unique hc hhead
    exact ⟨by decide, by decide⟩
  · obtain rfl := Option.mem_unique hc hhead
    exact ⟨by decide, by decide⟩

/-- **What is derived is read in front of a separator**, and nothing else is. -/
theorem read_of_derives {s : Scanner} (h : Derives .whole cs us e) (hrest : IsSeparated rest)
    (hs : s.stream = cs ++ rest) : ∃ t, read s = (.ok e, t) ∧ t.stream = rest := by
  obtain ⟨t, gap, hread, hgap, ht⟩ := accepts_of_derives h hrest.operandEnd hs
  have hskip : t.skipBlank.stream = rest :=
    Scanner.skipBlank_of_stream ht hgap fun c hc => by simp [(hrest.stops c hc).1]
  refine ⟨t.skipBlank, ?_, hskip⟩
  rw [hread]
  exact tail_done fun c hc => (hrest.stops c (hskip ▸ hc)).2

/-- **Embedded and standalone expressions agree.**  What is read in a longer text, up to a character that is
neither blank nor an operator, is what that part of the text stands for alone.  And a text that is accepted
alone is read as the same expression in front of every separator, which is left, whether or not its line ends
were written anew. -/
theorem read_agrees_parse :
    (∀ (s t : Scanner) (e : Expr), read s = (.ok e, t) → ∃ cs, s.stream = cs ++ t.stream ∧
      Stops t.stream ∧ parse (String.ofList cs) = .ok e) ∧
    ∀ (text : String) (e : Expr), parse text = .ok e → ∀ (s : Scanner) (cs rest : List Char),
      lineFeeds cs = lineFeeds text.toList → IsSeparated rest → s.stream = cs ++ rest →
      ∃ t, read s = (.ok e, t) ∧ t.stream = rest := by
  constructor
  · intro s t e h
    obtain ⟨cs, us, hs, hus⟩ := derives_of_read h
    refine ⟨cs, hs, stops_of_read h, parse_eq_ok_iff_derives.2 ⟨us, ?_⟩⟩
    rwa [String.toList_ofList]
  · intro text e h s cs rest hcs hrest hs
    obtain ⟨us, hus⟩ := parse_eq_ok_iff_derives.1 h
    rw [← derives_lineFeeds_iff, ← hcs, derives_lineFeeds_iff] at hus
    exact read_of_derives hus hrest hs

theorem read_agrees_parse_sample :
    (∃ t, read ((Scanner.ofChars "b)x".toList).unread "-(a\r==".toList) =
        (.ok (negative (binary .equal (literal "a") (literal "b"))), t) ∧ t.stream = "x\n".toList) ∧
      parse "-(a\r==b)" = .ok (negative (binary .equal (literal "a") (literal "b"))) ∧
      ∃ t, read (Scanner.ofChars "-(a\r==b);x".toList) =
        (.ok (negative (binary .equal (literal "a") (literal "b"))), t) ∧ t.stream = ";x\n".toList := by
  have hread : (read ((Scanner.ofChars "b)x".toList).unread "-(a\r==".toList)).1 =
        .ok (negative (binary .equal (literal "a") (literal "b"))) ∧
      (read ((Scanner.ofChars "b)x".toList).unread "-(a\r==".toList)).2.stream = "x\n".toList := by
    with_unfolding_all decide
  have hs : ((Scanner.ofChars "b)x".toList).unread "-(a\r==".toList).stream =
      "-(a\r==b)".toList ++ "x\n".toList := by
    decide
  obtain ⟨cs, hcs, -, hparse⟩ := read_agrees_parse.1 _ _ _ (Prod.ext hread.1 rfl)
  -- what was read is what is not left
  obtain rfl : "-(a\r==b)".toList = cs := by
    rw [hs, hread.2] at hcs
    exact List.append_cancel_right hcs
  rw [String.ofList_toList] at hparse
  refine ⟨⟨_, Prod.ext hread.1 rfl, hread.2⟩, hparse, ?_⟩
  exact read_agrees_parse.2 _ _ hparse _ "-(a\n==b)".toList ";x\n".toList (by decide) ⟨_, .inl rfl⟩
    (by decide)

end Expr

end TreeScript
