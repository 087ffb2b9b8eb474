import TreeScript.Procedure.Reader
import TreeScript.Proofs.Expressions
import TreeScript.Proofs.Recognition

/-!
# Where expressions come from

What the reader of expressions accepts is derived from its tokens: a minus negates an operand,
parentheses hold a whole expression, and operators join operands from left to right.  The derivation
says which characters of the text are tokens, and so which expressions can come out.

- `Derives`: derivations, with the text, its tokens and the expression it stands for.
- `derives_of_operand`, `derives_of_tail`, `derives_of_read`: what is read is derived.
- `Printable.negate`, `Derives.printable`: tokens without parentheses make printable expressions.
- `parse_of_printable`, `parse_written_and_printable_of_parse`: printing and reading.
-/

namespace TreeScript

open Text

/-! ### Derivations -/

/-- How an operator is written: a comparison may have an equals sign behind its own sign. -/
def Operator.IsSign (op : Operator) (sign : List Char) : Prop :=
  ∃ c, Operator.ofSign? c = some op ∧ (sign = [c] ∨ (op.isComparison = true ∧ sign = [c, '=']))

namespace Expr

/-- What stands in a text: one operand, or a whole expression with the blanks around its parts. -/
inductive Extent where
  | operand
  | whole

/-- A token: the text up to the next blank or stop.  A parenthesis at its start would open a section. -/
structure IsRun (text : String) : Prop where
  ne_nil : text.toList ≠ []
  char : ∀ c ∈ text.toList, isBlank c = false ∧ c ∉ tokenStops
  head : text.toList.head? ≠ some '('

/-- How a text is derived from its tokens, and for which expression it stands. -/
inductive Derives : Extent → List Char → List String → Expr → Prop
  | token {u : String} (h : IsRun u) : Derives .operand u.toList [u] (literal u)
  | minus {pad cs : List Char} {us : List String} {e : Expr} (hpad : AllBlank pad)
      (h : Derives .operand cs us e) : Derives .operand ('-' :: (pad ++ cs)) us (negate e)
  /-- The inside of parentheses is a text of its own, with line ends of its own. -/
  | parentheses {body : List Char} {us : List String} {e : Expr} (hbody : Balanced '(' ')' body)
      (h : Derives .whole (unifyLineEnds body) us e) :
      Derives .operand ('(' :: (body ++ [')'])) us e
  | single {pad cs : List Char} {us : List String} {e : Expr} (hpad : AllBlank pad)
      (h : Derives .operand cs us e) : Derives .whole (pad ++ cs) us e
  | pair {cs sign pad ds : List Char} {us vs : List String} {op : Operator} {left right : Expr}
      (hleft : Derives .whole cs us left) (hsign : op.IsSign sign) (hpad : AllBlank pad)
      (hright : Derives .operand ds vs right) :
      Derives .whole (cs ++ (sign ++ (pad ++ ds))) (us ++ vs) (binary op left right)
  | blank {cs pad : List Char} {us : List String} {e : Expr} (h : Derives .whole cs us e)
      (hpad : AllBlank pad) : Derives .whole (cs ++ pad) us e

/-! ### What is read is derived -/

section

variable {s t : Scanner} {e left : Expr}

/-- A token ends where the reader stops. -/
theorem isRun_of_readToken {place : Position} (hopen : s.stream.head? ≠ some '(')
    (h : readToken place s = (.ok e, t)) :
    ∃ u, IsRun u ∧ e = literal u ∧ s.stream = u.toList ++ t.stream := by
  have hsplit : s.stream = (s.readUntilBlankOr tokenStops false).1 ++
      (s.readUntilBlankOr tokenStops false).2.stream := s.stream_eq_readUntil _
  have hchar : ∀ c ∈ (s.readUntilBlankOr tokenStops false).1,
      isBlank c = false ∧ c ∉ tokenStops := by
    intro c hc
    simpa using Scanner.not_stop_of_mem_readUntil hc
  simp only [readToken] at h
  split at h
  · simp at h
  · next hne =>
    obtain ⟨he, rfl⟩ := Prod.mk.inj h
    refine ⟨String.ofList (s.readUntilBlankOr tokenStops false).1, ⟨?_, ?_, ?_⟩,
      (Except.ok.inj he).symm, ?_⟩
    · simpa using hne
    · simpa using hchar
    · intro hhead
      rw [String.toList_ofList] at hhead
      rw [hsplit, List.head?_append, hhead] at hopen
      exact hopen rfl
    · rw [String.toList_ofList]
      exact hsplit

/-- What is read as an operand is derived, if the insides of parentheses are. -/
theorem derives_of_operand
    (hsection : ∀ u : Scanner, u.remaining < s.remaining → ∀ f, wholeText (read u) = .ok f →
      ∃ us, Derives .whole u.stream us f)
    (h : operand s = (.ok e, t)) :
    ∃ pad cs us, AllBlank pad ∧ s.stream = pad ++ (cs ++ t.stream) ∧
      Derives .operand cs us e := by
  -- only a minus leads to another operand, which has less to read
  induction hn : s.remaining using Nat.strong_induction_on generalizing s t e with
  | _ n ih =>
    subst hn
    obtain ⟨pad, hpad, hs⟩ := s.stream_eq_skipBlank
    rw [operand_eq] at h
    split at h
    · next hopen =>
      split at h
      · simp at h
      · next body u hfind =>
        obtain ⟨hread, rfl⟩ := Prod.mk.inj h
        have hlt : body.scanner.remaining < s.remaining :=
          Nat.lt_of_lt_of_le (Scanner.remaining_scanner_lt hfind) s.remaining_skipBlank_le
        obtain ⟨us, hus⟩ := hsection _ hlt e hread
        rw [Scanner.Section.scanner, Scanner.stream_ofChars] at hus
        obtain ⟨skipped, hskipped, hbody, hstream⟩ := Scanner.findSection_sound (by decide) hfind
        -- the section starts at once, because a parenthesis is next
        obtain rfl : skipped = [] := by
          cases skipped with
          | nil => rfl
          | cons c cs =>
            obtain ⟨rfl, -⟩ := List.cons.inj (hopen.symm.trans hstream)
            simp at hskipped
        refine ⟨pad, _, us, hpad, ?_, .parentheses hbody hus⟩
        rw [hs, hstream]
        simp
    · next cs hminus =>
      obtain ⟨hinner, rfl⟩ := Prod.mk.inj h
      have hlt : (s.skipBlank.advance 1).remaining < s.remaining := by
        have hle := s.remaining_skipBlank_le
        simp only [Scanner.remaining, Scanner.stream_advance, hminus, List.length_drop,
          List.length_cons] at hle ⊢
        omega
      obtain ⟨inner, hread, rfl⟩ := map_eq_ok_iff.1 hinner
      obtain ⟨gap, ds, us, hgap, hstream, hus⟩ := ih _ hlt
        (fun u hu => hsection u (Nat.lt_trans hu hlt)) (Prod.ext hread rfl) rfl
      refine ⟨pad, '-' :: (gap ++ ds), us, hpad, ?_, .minus hgap hus⟩
      rw [Scanner.stream_advance, hminus, List.drop_one, List.tail_cons] at hstream
      rw [hs, hminus, hstream]
      simp
    · next hopen hminus =>
      have hhead : s.skipBlank.stream.head? ≠ some '(' := by
        intro hhead
        obtain ⟨ds, hds⟩ := List.head?_eq_some_iff.1 hhead
        exact hopen ds hds
      obtain ⟨u, hu, rfl, hstream⟩ := isRun_of_readToken hhead h
      exact ⟨pad, u.toList, [u], hpad, by rw [hs, hstream], .token hu⟩

/-- An operator is read as one of its signs. -/
theorem isSign_of_readOperator? {op : Operator} (h : readOperator? s = some (op, t)) :
    ∃ sign, op.IsSign sign ∧ s.stream = sign ++ t.stream := by
  simp only [readOperator?, Option.map_eq_some_iff, Option.bind_eq_some_iff, Prod.mk.injEq] at h
  obtain ⟨op', ⟨c, hc, hsign⟩, rfl, rfl⟩ := h
  obtain ⟨cs, hcs⟩ := List.head?_eq_some_iff.1 hc
  have hnext : (s.advance 1).stream = cs := by
    rw [Scanner.stream_advance, hcs]
    rfl
  by_cases hcomparison : op'.isComparison = true
  · rw [if_pos hcomparison]
    by_cases hequals : (s.advance 1).stream.head? = some '='
    · obtain ⟨ds, hds⟩ := List.head?_eq_some_iff.1 hequals
      obtain ⟨u, haccept, hu⟩ := Scanner.accept_of_stream hds
      refine ⟨[c, '='], ⟨c, hsign, Or.inr ⟨hcomparison, rfl⟩⟩, ?_⟩
      rw [haccept, hu, hcs, ← hnext, hds]
      rfl
    · refine ⟨[c], ⟨c, hsign, Or.inl rfl⟩, ?_⟩
      rw [Scanner.stream_accept_of_ne hequals, hnext, hcs]
      rfl
  · rw [if_neg hcomparison]
    refine ⟨[c], ⟨c, hsign, Or.inl rfl⟩, ?_⟩
    rw [hnext, hcs]
    rfl

/-- What is read behind an operand continues its derivation. -/
theorem derives_of_tail {cs : List Char} {us : List String} (hleft : Derives .whole cs us left)
    (hsection : ∀ u : Scanner, u.remaining < s.remaining → ∀ f, wholeText (read u) = .ok f →
      ∃ us, Derives .whole u.stream us f)
    (h : tail left s = (.ok e, t)) :
    ∃ ds vs, s.stream = ds ++ t.stream ∧ Derives .whole (cs ++ ds) vs e := by
  induction hn : s.remaining using Nat.strong_induction_on generalizing s left cs us with
  | _ n ih =>
    subst hn
    obtain ⟨pad, hpad, hs⟩ := s.stream_eq_skipBlank
    rw [tail_eq] at h
    split at h
    · obtain ⟨he, rfl⟩ := Prod.mk.inj h
      obtain rfl := Except.ok.inj he
      exact ⟨pad, us, hs, .blank hleft hpad⟩
    · next op u hop =>
      split at h
      · simp at h
      · next right v hright =>
        have hlt : u.remaining < s.remaining :=
          Nat.lt_of_lt_of_le (remaining_readOperator?_lt hop) s.remaining_skipBlank_le
        have hlt' : v.remaining < s.remaining :=
          Nat.lt_trans (remaining_readOperand_lt hright) hlt
        obtain ⟨sign, hsign, hstream⟩ := isSign_of_readOperator? hop
        obtain ⟨gap, ds, vs, hgap, hustream, hvs⟩ := derives_of_operand
          (fun w hw => hsection w (Nat.lt_trans hw hlt)) hright
        -- the pair that was read so far is what the rest continues
        obtain ⟨rest, ws, hrest, hws⟩ := ih _ hlt' (.pair (.blank hleft hpad) hsign hgap hvs)
          (fun w hw => hsection w (Nat.lt_trans hw hlt')) h rfl
        refine ⟨pad ++ (sign ++ (gap ++ (ds ++ rest))), ws, ?_, ?_⟩
        · rw [hs, hstream, hustream, hrest]
          simp
        · simpa using hws

/-- What was read as a whole text was read up to blanks. -/
theorem exists_read_of_wholeText {outcome : Except Error Expr × Scanner}
    (h : wholeText outcome = .ok e) : ∃ t, outcome = (.ok e, t) ∧ AllBlank t.stream := by
  obtain ⟨result, t⟩ := outcome
  cases result with
  | error _ => simp [wholeText] at h
  | ok f =>
    simp only [wholeText] at h
    split at h
    · next hend =>
      obtain rfl := Except.ok.inj h
      rw [Scanner.stream_skipBlank] at hend
      exact ⟨t, rfl, List.dropWhile_eq_nil_iff.1 hend⟩
    · simp at h

/-- **What is read is derived**: the text that an expression took up is derived from its tokens. -/
theorem derives_of_read (h : read s = (.ok e, t)) :
    ∃ cs us, s.stream = cs ++ t.stream ∧ Derives .whole cs us e := by
  -- the inside of parentheses is shorter than the text around it
  induction hn : s.remaining using Nat.strong_induction_on generalizing s t e with
  | _ n ih =>
    subst hn
    have hsection : ∀ u : Scanner, u.remaining < s.remaining → ∀ f, wholeText (read u) = .ok f →
        ∃ us, Derives .whole u.stream us f := by
      intro u hu f hf
      obtain ⟨v, hread, hend⟩ := exists_read_of_wholeText hf
      obtain ⟨cs, us, hstream, hus⟩ := ih _ hu hread rfl
      refine ⟨us, ?_⟩
      rw [hstream]
      exact .blank hus hend
    rw [read_eq] at h
    split at h
    · simp at h
    · next left u hleft =>
      obtain ⟨pad, cs, us, hpad, hstream, hus⟩ := derives_of_operand hsection hleft
      have hlt : u.remaining < s.remaining := remaining_readOperand_lt hleft
      obtain ⟨ds, vs, hrest, hvs⟩ := derives_of_tail (.single hpad hus)
        (fun w hw => hsection w (Nat.lt_trans hw hlt)) h
      refine ⟨pad ++ (cs ++ ds), vs, ?_, ?_⟩
      · rw [hstream, hrest]
        simp
      · simpa using hvs

/-- A whole text is derived with the blanks at its end. -/
theorem derives_of_wholeText (h : wholeText (read s) = .ok e) : ∃ us, Derives .whole s.stream us e := by
  obtain ⟨t, hread, hend⟩ := exists_read_of_wholeText h
  obtain ⟨cs, us, hs, hus⟩ := derives_of_read hread
  rw [hs]
  exact ⟨us, .blank hus hend⟩

end

/-! ### Printable expressions come out -/

theorem isToken_of_isRun {u : String} (h : IsRun u) (hopen : '(' ∉ u.toList)
    (hclose : ')' ∉ u.toList) : IsToken u where
  ne_nil := h.ne_nil
  char := by
    intro c hc
    obtain ⟨hblank, hstop⟩ := h.char c hc
    exact ⟨hblank, hstop, fun heq => hopen (heq ▸ hc), fun heq => hclose (heq ▸ hc)⟩

/-- Negation keeps the printable form: a number without a sign takes the minus into its literal. -/
theorem Printable.negate {e : Expr} (he : e.Printable) : (negate e).Printable := by
  cases e with
  | literal text =>
    by_cases hnumber : Number.looksDecimal text.toList = true
    · by_cases hminus : text.toList.head? = some '-'
      · simp only [Expr.negate, hminus]
        rw [if_neg (by simp)]
        refine ⟨he, ?_⟩
        rintro u heq -
        obtain rfl := literal.inj heq
        exact hminus
      · -- the text is a token, because it does not start with a minus
        have htoken : IsToken text := by
          rcases he with htext | ⟨u, rfl, -⟩
          · exact htext
          · rw [String.toList_append] at hminus
            exact absurd rfl hminus
        rw [negate_of_looksDecimal htoken hnumber]
        exact Or.inr ⟨text, rfl, htoken, hnumber⟩
    · simp only [Expr.negate, hnumber]
      rw [if_neg (by simp)]
      refine ⟨he, ?_⟩
      intro u heq hu
      obtain rfl := literal.inj heq
      exact absurd hu hnumber
  | negative inner => exact ⟨he, fun u heq => by cases heq⟩
  | binary op left right => exact ⟨he, fun u heq => by cases heq⟩

/-- **Printable expressions come out**, if no token has a parenthesis in it. -/
theorem Derives.printable {extent : Extent} {cs : List Char} {us : List String} {e : Expr}
    (h : Derives extent cs us e) (hus : ∀ u ∈ us, '(' ∉ u.toList ∧ ')' ∉ u.toList) :
    e.Printable := by
  induction h with
  | token hu =>
    obtain ⟨hopen, hclose⟩ := hus _ (List.mem_singleton.2 rfl)
    exact Or.inl (isToken_of_isRun hu hopen hclose)
  | minus _ _ ih => exact (ih hus).negate
  | parentheses _ _ ih => exact ih hus
  | single _ _ ih => exact ih hus
  | pair _ _ _ _ ihl ihr =>
    exact ⟨ihl fun u hu => hus u (List.mem_append_left _ hu),
      ihr fun u hu => hus u (List.mem_append_right _ hu)⟩
  | blank _ _ ih => exact ih hus

/-! ### Printing and reading -/

/-- A printed expression is read as a whole text. -/
theorem parse_of_printable {e : Expr} (he : e.Printable) : parse e.written = .ok e := by
  have hreturn : '\r' ∉ e.written.toList :=
    he.not_mem (Or.inl (by decide : isBlank '\r' = true)) (by decide)
  -- at most the end of the line stands behind the expression
  obtain ⟨ending, hending, hline⟩ := endLine_eq_append e.written.toList
  have hs : (Scanner.ofString e.written).stream = [] ++ (e.written.toList ++ ending) := by
    rw [Node.stream_ofString, unifyLineEnds_of_not_mem hreturn, hline]
    rfl
  have htrim : trimStart ending = [] := List.dropWhile_eq_nil_iff.2 hending
  obtain ⟨t, hread, ht⟩ :=
    read_written he allBlank_nil (operandEnd_blank hending) (by simp [htrim]) hs
  rw [parse, hread]
  refine wholeText_of_blank ?_
  rw [Scanner.stream_skipBlank, ht, htrim]
  rfl

/-- What is accepted as a whole text is derived from its tokens. -/
theorem derives_of_parse {text : String} {e : Expr} (h : parse text = .ok e) :
    ∃ us, Derives .whole (unifyLineEnds text.toList) us e :=
  derives_of_wholeText h

/-- **Printing and reading**: a printable expression is read back from its text, whatever its depth,
and every text that is accepted is derived from tokens which make a printable expression if no
parenthesis is in them. -/
theorem parse_written_and_printable_of_parse :
    (∀ e : Expr, e.Printable → parse e.written = .ok e) ∧
    ∀ (text : String) (e : Expr), parse text = .ok e →
      (∃ us, Derives .whole (unifyLineEnds text.toList) us e) ∧
      ∀ us, Derives .whole (unifyLineEnds text.toList) us e →
        (∀ u ∈ us, '(' ∉ u.toList ∧ ')' ∉ u.toList) → e.Printable :=
  ⟨fun _ he => parse_of_printable he,
    fun _ _ h => ⟨derives_of_parse h, fun _ hus htokens => hus.printable htokens⟩⟩

theorem parse_written_and_printable_of_parse_sample :
    parse (binary .unequal (negative (literal "-3")) (literal "a")).written =
        .ok (binary .unequal (negative (literal "-3")) (literal "a")) ∧
      parse "- -3!a" = .ok (binary .unequal (negative (literal "-3")) (literal "a")) ∧
      (binary .unequal (negative (literal "-3")) (literal "a")).Printable := by
  have hthree : IsToken "3" := by decide
  have hprintable : (binary .unequal (negative (literal "-3")) (literal "a")).Printable :=
    ⟨⟨Or.inr ⟨"3", rfl, hthree, rfl⟩, fun u h _ => literal.inj h ▸ rfl⟩, Or.inl (by decide)⟩
  have hparse : parse "- -3!a" = .ok (binary .unequal (negative (literal "-3")) (literal "a")) := by
    with_unfolding_all rfl
  have hrun : ∀ u ∈ ["3", "a"], IsRun u := by
    have hall : ["3", "a"].all (fun u => decide (IsToken u ∧ u.toList.head? ≠ some '(')) = true := by
      decide
    intro u hu
    obtain ⟨htoken, hhead⟩ := of_decide_eq_true (List.all_eq_true.1 hall u hu)
    exact ⟨htoken.ne_nil, fun c hc => ⟨(htoken.char c hc).1, (htoken.char c hc).2.1⟩, hhead⟩
  -- the first minus is a negation, and the second one becomes the sign of the number
  have hleft : Derives .whole "- -3".toList ["3"] (negative (literal "-3")) :=
    .single allBlank_nil (.minus allBlank_space (.minus allBlank_nil (.token (hrun "3" (by simp)))))
  have hsign : Operator.unequal.IsSign ['!'] := ⟨'!', rfl, Or.inl rfl⟩
  have hpair : Derives .whole "- -3!a".toList ["3", "a"]
      (binary .unequal (negative (literal "-3")) (literal "a")) :=
    .pair hleft hsign allBlank_nil (.token (hrun "a" (by simp)))
  exact ⟨parse_written_and_printable_of_parse.1 _ hprintable, hparse,
    (parse_written_and_printable_of_parse.2 _ _ hparse).2 ["3", "a"]
      (.blank hpair allBlank_lineFeed) (by decide)⟩

end Expr

end TreeScript
