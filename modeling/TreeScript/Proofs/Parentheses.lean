import TreeScript.Proofs.Acceptance
import TreeScript.Proofs.Evaluation

/-!
# Parentheses of accepted texts

Parentheses that open an operand are closed in an accepted text, and what stands between them is
balanced.  But a parenthesis can also stand in a token, behind its first character, where the reader takes
it for a part of a name.  So the parentheses of an accepted text are those of its tokens, with balanced
pieces between them: the text is balanced if the literals of its expression are.

- `delimiters_unifyLineEnds`: line ends are no delimiters.
- `delimiters_literalText_negate`: a sign in a literal is none either.
- `depth?_of_derives`: the depth behind a text is the depth behind its literals.
- `balanced_iff_of_parse`: when an accepted text is balanced.
- `exists_unbalanced_accepted`: a text that is accepted and not balanced.
-/

namespace TreeScript

namespace Text

variable {opening closing : Char}

theorem delimiters_cons (c : Char) (cs : List Char) :
    delimiters opening closing (c :: cs) =
      delimiters opening closing [c] ++ delimiters opening closing cs :=
  delimiters_append [c] cs

theorem depth?_congr {as bs : List Char}
    (h : delimiters opening closing as = delimiters opening closing bs) (d : Nat) :
    depth? opening closing d as = depth? opening closing d bs := by
  rw [← depth?_delimiters d as, h, depth?_delimiters]

/-- Line ends are no delimiters. -/
theorem delimiters_lineFeeds (hopening : opening ≠ '\r' ∧ opening ≠ '\n')
    (hclosing : closing ≠ '\r' ∧ closing ≠ '\n') (cs : List Char) :
    delimiters opening closing (lineFeeds cs) = delimiters opening closing cs := by
  have hreturn : delimiters opening closing ['\r'] = [] := by
    simp [delimiters, hopening.1.symm, hclosing.1.symm]
  have hfeed : delimiters opening closing ['\n'] = [] := by
    simp [delimiters, hopening.2.symm, hclosing.2.symm]
  induction cs using lineEnds_induction with
  | nil => rfl
  | pair cs ih =>
    rw [lineFeeds_pair, delimiters_cons, delimiters_cons '\r', delimiters_cons '\n' cs, hreturn, ih,
      List.nil_append]
  | alone cs halone ih =>
    rw [lineFeeds_cons_return halone, delimiters_cons, delimiters_cons '\r', hfeed, hreturn, ih]
  | other c cs hreturn ih =>
    rw [lineFeeds_cons_of_ne hreturn, delimiters_cons, delimiters_cons c cs, ih]

theorem delimiters_unifyLineEnds (hopening : opening ≠ '\r' ∧ opening ≠ '\n')
    (hclosing : closing ≠ '\r' ∧ closing ≠ '\n') (cs : List Char) :
    delimiters opening closing (unifyLineEnds cs) = delimiters opening closing cs := by
  have hfeed : delimiters opening closing ['\n'] = [] := by
    simp [delimiters, hopening.2.symm, hclosing.2.symm]
  rw [unifyLineEnds_eq, endLine]
  split
  · exact delimiters_lineFeeds hopening hclosing cs
  · rw [delimiters_append, hfeed, List.append_nil, delimiters_lineFeeds hopening hclosing]

end Text

end TreeScript

namespace TreeScript.Expr

open Text

/-- The characters of all literals of an expression, from left to right. -/
def literalText (e : Expr) : List Char := e.literals.flatMap String.toList

@[simp] theorem literalText_literal (u : String) : (literal u).literalText = u.toList := by
  simp [literalText, literals]

@[simp] theorem literalText_negative (e : Expr) : (negative e).literalText = e.literalText := rfl

@[simp] theorem literalText_binary (op : Operator) (left right : Expr) :
    (binary op left right).literalText = left.literalText ++ right.literalText :=
  List.flatMap_append

/-! ### The depth behind a text -/

/-- Blanks and the signs of operators are no parentheses. -/
theorem delimiters_of_allBlank {pad : List Char} (h : AllBlank pad) : delimiters '(' ')' pad = [] := by
  refine delimiters_of_not_mem (fun hmem => ?_) (fun hmem => ?_)
  · exact absurd (h _ hmem) (by decide)
  · exact absurd (h _ hmem) (by decide)

theorem delimiters_of_isSign {op : Operator} {sign : List Char} (h : op.IsSign sign) :
    delimiters '(' ')' sign = [] := by
  have hsigns : Operator.signs.all (fun c => decide (c ≠ '(' ∧ c ≠ ')')) = true := by decide
  obtain ⟨c, hc, hsign⟩ := h
  have hne := of_decide_eq_true
    (List.all_eq_true.1 hsigns c ((Operator.mem_signs_iff c).2 (by simp [hc])))
  obtain rfl | ⟨-, rfl⟩ := hsign
  · simp [delimiters, hne]
  · simp [delimiters, hne]

/-- A minus that becomes the sign of a number is no parenthesis. -/
theorem delimiters_literalText_negate (e : Expr) :
    delimiters '(' ')' (negate e).literalText = delimiters '(' ')' e.literalText := by
  cases e with
  | literal u =>
    rw [negate]
    split
    · rw [literalText_literal, literalText_literal, String.toList_append, delimiters_append]
      rfl
    · rfl
  | negative inner => rfl
  | binary op left right => rfl

/-- **Only tokens matter**: what stands in front of a text, between its tokens and around them does not
change the depth of its parentheses. -/
theorem depth?_of_derives {extent : Extent} {cs : List Char} {us : List String} {e : Expr}
    (h : Derives extent cs us e) (d : Nat) :
    depth? '(' ')' d cs = depth? '(' ')' d e.literalText := by
  have hblank : ∀ {pad : List Char}, AllBlank pad → ∀ cs : List Char,
      delimiters '(' ')' (pad ++ cs) = delimiters '(' ')' cs := by
    intro pad hpad cs
    rw [delimiters_append, delimiters_of_allBlank hpad, List.nil_append]
  induction h generalizing d with
  | token hu => rw [literalText_literal]
  | @minus pad cs us e hpad h ih =>
    have hminus : delimiters '(' ')' ('-' :: (pad ++ cs)) = delimiters '(' ')' cs := by
      rw [delimiters_cons, hblank hpad]
      rfl
    rw [depth?_congr hminus, ih, depth?_congr (delimiters_literalText_negate e)]
  | @parentheses body us e hbody h ih =>
    -- inside the parentheses the depth comes back to where it was, and so it does for the literals
    have hunified : delimiters '(' ')' (unifyLineEnds body) = delimiters '(' ')' body :=
      delimiters_unifyLineEnds (by decide) (by decide) body
    have hinside : Balanced '(' ')' e.literalText := by
      rw [balanced_iff_depth? (by decide), ← ih, depth?_congr hunified,
        ← balanced_iff_depth? (by decide)]
      exact hbody
    have hdepth : ∀ {cs : List Char}, Balanced '(' ')' cs → depth? '(' ')' d cs = some d := by
      intro cs hcs
      have hzero := depth?_add ((balanced_iff_depth? (by decide)).1 hcs) d
      rwa [Nat.zero_add] at hzero
    rw [hdepth hbody.enclose, hdepth hinside]
  | @single pad cs us e hpad h ih => rw [depth?_congr (hblank hpad cs), ih]
  | @pair cs sign pad ds us vs op left right hleft hsign hpad hright ihl ihr =>
    have hsplit : delimiters '(' ')' (cs ++ (sign ++ (pad ++ ds))) = delimiters '(' ')' (cs ++ ds) := by
      rw [delimiters_append, delimiters_append sign, hblank hpad, delimiters_of_isSign hsign,
        List.nil_append, ← delimiters_append]
    rw [depth?_congr hsplit, depth?_append, ihl, literalText_binary, depth?_append]
    exact congrArg _ (funext ihr)
  | @blank cs pad us e h hpad ih =>
    have hpadded : delimiters '(' ')' (cs ++ pad) = delimiters '(' ')' cs := by
      rw [delimiters_append, delimiters_of_allBlank hpad, List.append_nil]
    rw [depth?_congr hpadded, ih]

/-! ### Whole texts -/

/-- **When an accepted text is balanced**: exactly if the literals of its expression are, one behind the
other; and so it is if there is no parenthesis in them. -/
theorem balanced_iff_of_parse {text : String} {e : Expr} (h : parse text = .ok e) :
    (Balanced '(' ')' text.toList ↔ Balanced '(' ')' e.literalText) ∧
    ((∀ u ∈ e.literals, '(' ∉ u.toList ∧ ')' ∉ u.toList) → Balanced '(' ')' text.toList) := by
  obtain ⟨us, hus⟩ := derives_of_parse h
  have hunified : delimiters '(' ')' (unifyLineEnds text.toList) = delimiters '(' ')' text.toList :=
    delimiters_unifyLineEnds (by decide) (by decide) text.toList
  have hiff : Balanced '(' ')' text.toList ↔ Balanced '(' ')' e.literalText := by
    rw [← balanced_congr hunified, balanced_iff_depth? (by decide), balanced_iff_depth? (by decide),
      depth?_of_derives hus]
  refine ⟨hiff, fun hnone => hiff.2 (balanced_of_not_mem ?_ ?_)⟩
  · intro hmem
    obtain ⟨u, hu, hc⟩ := List.mem_flatMap.1 hmem
    exact (hnone u hu).1 hc
  · intro hmem
    obtain ⟨u, hu, hc⟩ := List.mem_flatMap.1 hmem
    exact (hnone u hu).2 hc

theorem balanced_iff_of_parse_sample :
    parse "(a + f(x)) * 2" =
        .ok (binary .times (binary .plus (literal "a") (literal "f(x)")) (literal "2")) ∧
      Balanced '(' ')' "af(x)2".toList ∧ Balanced '(' ')' "(a + f(x)) * 2".toList := by
  have hparse : parse "(a + f(x)) * 2" =
      .ok (binary .times (binary .plus (literal "a") (literal "f(x)")) (literal "2")) := by
    with_unfolding_all rfl
  have hliterals : Balanced '(' ')' "af(x)2".toList := by
    rw [balanced_iff_depth? (by decide)]
    decide
  exact ⟨hparse, hliterals, (balanced_iff_of_parse hparse).1.2 hliterals⟩

/-- **Not every accepted text is balanced**: behind the first character of a token a parenthesis that closes
nothing is a part of the name. -/
theorem exists_unbalanced_accepted :
    parse "1 + 2)" = .ok (binary .plus (literal "1") (literal "2)")) ∧
      ¬Balanced '(' ')' "1 + 2)".toList := by
  constructor
  · with_unfolding_all rfl
  · rw [balanced_iff_depth? (by decide)]
    decide

end TreeScript.Expr
