import TreeScript.Proofs.Derivations

/-!
# Which texts are accepted

A text that has a derivation is read as the expression that the derivation stands for.  Operands are read
one after the other, and the reader knows where each of them ends: a token at the next blank or stop, and
parentheses where they are closed.  A whole expression is read from its first operand on, so that what has
been read of it so far is always the left operand of the next operator.

- `Accepts`: how what is derived is read.
- `readOperator?_of_isSign`, `tail_of_isSign`: operators, however they are written.
- `accepts_of_derives`: what is derived is read.
- `parse_eq_ok_iff`: the texts that are accepted, and as what.
- `derives_of_isLiteral`: literals are accepted as operands.
-/

namespace TreeScript.Expr

open Text

variable {extent : Extent} {cs : List Char} {us : List String} {e left : Expr} {op : Operator}

/-! ### Operators -/

/-- The sign of an operator starts with a stop, which is no blank. -/
theorem exists_cons_of_isSign {sign : List Char} (h : op.IsSign sign) :
    ∃ c more, sign = c :: more ∧ Operator.ofSign? c = some op ∧ isBlank c = false ∧ c ∈ tokenStops := by
  obtain ⟨c, hc, hsign⟩ := h
  have hmem : c ∈ Operator.signs := (Operator.mem_signs_iff c).2 (by simp [hc])
  have hsigns : Operator.signs.all (fun c => !isBlank c) = true := by decide
  have hblank : isBlank c = false := by simpa using List.all_eq_true.1 hsigns c hmem
  obtain rfl | ⟨-, rfl⟩ := hsign
  · exact ⟨c, [], rfl, hc, hblank, List.mem_append_left _ hmem⟩
  · exact ⟨c, ['='], rfl, hc, hblank, List.mem_append_left _ hmem⟩

section

variable {s : Scanner} {pad rest sign : List Char}

/-- An operator is read as it is written, if no further equals sign follows. -/
theorem readOperator?_of_isSign (h : op.IsSign sign) (hrest : rest.head? ≠ some '=')
    (hs : s.stream = sign ++ rest) : ∃ t, readOperator? s = some (op, t) ∧ t.stream = rest := by
  obtain ⟨c, hc, rfl | ⟨hcomparison, rfl⟩⟩ := h
  · have hnext : (s.advance 1).stream = rest := by simp [hs]
    have hread : readOperator? s =
        some (op, if op.isComparison then ((s.advance 1).accept '=').2 else s.advance 1) := by
      simp [readOperator?, hs, hc]
    refine ⟨_, hread, ?_⟩
    split
    · rw [Scanner.stream_accept_of_ne (by rwa [hnext]), hnext]
    · exact hnext
  · have hnext : (s.advance 1).stream = '=' :: rest := by simp [hs]
    obtain ⟨t, haccept, ht⟩ := Scanner.accept_of_stream hnext
    refine ⟨t, ?_, ht⟩
    simp [readOperator?, hs, hc, hcomparison, haccept]

/-- Behind an operator an operand is read, and becomes the right one. -/
theorem tail_of_isSign (left : Expr) (hpad : AllBlank pad) (h : op.IsSign sign)
    (hrest : rest.head? ≠ some '=') (hs : s.stream = pad ++ (sign ++ rest)) :
    ∃ u : Scanner, u.stream = rest ∧ tail left s =
      match operand u with
      | (.error e, v) => (.error e, v)
      | (.ok right, v) => tail (binary op left right) v := by
  obtain ⟨c, more, rfl, -, hblank, -⟩ := exists_cons_of_isSign h
  have hskip := Scanner.skipBlank_of_stream hs hpad (flush_cons.2 hblank)
  obtain ⟨u, hop, hu⟩ := readOperator?_of_isSign h hrest hskip
  have htail := tail_eq left s
  rw [hop] at htail
  exact ⟨u, hu, htail⟩

end

/-! ### What is derived is read -/

/-- How a text that is derived is read.  An operand is read where a blank or a stop follows.  Of a whole
expression the reader has made a left operand, behind which at most blanks of it are left. -/
def Accepts : Extent → List Char → Expr → Prop
  | .operand, cs, e => ∀ {s : Scanner} {pad rest : List Char}, AllBlank pad → OperandEnd rest →
      s.stream = pad ++ (cs ++ rest) → ∃ t, operand s = (.ok e, t) ∧ t.stream = rest
  | .whole, cs, e => ∀ {s : Scanner} {rest : List Char}, OperandEnd rest → s.stream = cs ++ rest →
      ∃ t pad, read s = tail e t ∧ AllBlank pad ∧ t.stream = pad ++ rest

/-- An operand does not start with an equals sign, which would belong to the operator in front of it. -/
theorem Derives.head?_ne (h : Derives .operand cs us e) (rest : List Char) :
    (cs ++ rest).head? ≠ some '=' := by
  cases h with
  | @token u hu =>
    obtain ⟨c, ds, hcs⟩ := List.exists_cons_of_ne_nil hu.ne_nil
    rw [hcs]
    intro heq
    obtain rfl : c = '=' := by simpa using heq
    exact (hu.char '=' (by simp [hcs])).2 (by decide)
  | minus => simp
  | parentheses => simp

theorem head?_append_ne {pad rest : List Char} (hpad : AllBlank pad) (hrest : rest.head? ≠ some '=') :
    (pad ++ rest).head? ≠ some '=' := by
  cases pad with
  | nil => exact hrest
  | cons c pad =>
    intro heq
    obtain rfl : c = '=' := by simpa using heq
    exact absurd (allBlank_cons.1 hpad).1 (by decide)

/-- A text of one whole expression is read as that expression. -/
theorem Accepts.wholeText_eq (h : Accepts .whole cs e) {s : Scanner} (hs : s.stream = cs) :
    wholeText (read s) = .ok e := by
  obtain ⟨t, pad, hread, hpad, ht⟩ := h (operandEnd_blank allBlank_nil) (hs.trans (List.append_nil cs).symm)
  have hend : t.skipBlank.stream = [] := by
    rw [Scanner.stream_skipBlank, ht, List.append_nil, List.dropWhile_eq_nil_iff.2 hpad]
  rw [hread, tail_done (by simp [hend])]
  exact wholeText_of_blank (by rw [Scanner.stream_skipBlank, hend]; rfl)

/-- **What is derived is read.** -/
theorem accepts_of_derives (h : Derives extent cs us e) : Accepts extent cs e := by
  induction h with
  | token hu =>
    intro s pad rest hpad hrest hs
    exact operand_run hpad hu.ne_nil hu.char hu.head hrest hs
  | @minus gap cs us e hgap h ih =>
    intro s pad rest hpad hrest hs
    obtain ⟨u, hu, hread⟩ := operand_minus hpad hs
    obtain ⟨t, hinner, ht⟩ := ih hgap hrest (hu.trans (List.append_assoc ..))
    refine ⟨t, ?_, ht⟩
    rw [hread, hinner]
    rfl
  | @parentheses body us e hbody h ih =>
    intro s pad rest hpad hrest hs
    obtain ⟨inner, t, hinner, ht, hread⟩ := operand_section hpad hbody (by simpa using hs)
    refine ⟨t, ?_, ht⟩
    rw [hread, ih.wholeText_eq hinner]
  | @single pad cs us e hpad h ih =>
    intro s rest hrest hs
    obtain ⟨t, hoperand, ht⟩ := ih hpad hrest (hs.trans (List.append_assoc ..))
    refine ⟨t, [], ?_, allBlank_nil, ht⟩
    rw [read_eq, hoperand]
  | @pair cs sign pad ds us vs op left right hleft hsign hpad hright ihl ihr =>
    intro s rest hrest hs
    have hs' : s.stream = cs ++ (sign ++ (pad ++ (ds ++ rest))) := by simpa using hs
    obtain ⟨c, more, hcons, -, -, hstop⟩ := exists_cons_of_isSign hsign
    have hend : OperandEnd (sign ++ (pad ++ (ds ++ rest))) := by
      intro d hd
      obtain rfl : c = d := by simpa [hcons] using hd
      exact Or.inr hstop
    obtain ⟨t, gap, hread, hgap, ht⟩ := ihl hend hs'
    obtain ⟨u, hu, htail⟩ :=
      tail_of_isSign left hgap hsign (head?_append_ne hpad (hright.head?_ne rest)) ht
    obtain ⟨v, hoperand, hv⟩ := ihr hpad hrest hu
    refine ⟨v, [], ?_, allBlank_nil, hv⟩
    rw [hread, htail, hoperand]
  | @blank cs pad us e h hpad ih =>
    intro s rest hrest hs
    have hend : OperandEnd (pad ++ rest) := operandEnd_of_allBlank hpad fun _ => hrest
    obtain ⟨t, gap, hread, hgap, ht⟩ := ih hend (hs.trans (List.append_assoc ..))
    exact ⟨t, gap ++ pad, hread, allBlank_append.2 ⟨hgap, hpad⟩, by rw [ht, List.append_assoc]⟩

/-- **Which texts are accepted**: those that have a derivation, as the expression it stands for. -/
theorem parse_eq_ok_iff {text : String} :
    parse text = .ok e ↔ ∃ us, Derives .whole (unifyLineEnds text.toList) us e := by
  constructor
  · exact derives_of_parse
  · rintro ⟨us, h⟩
    exact Accepts.wholeText_eq (accepts_of_derives h) (Node.stream_ofString text)

/-! ### Literals -/

section

variable {u : String}

theorem IsToken.isRun (h : IsToken u) : IsRun u where
  ne_nil := h.ne_nil
  char := fun c hc => ⟨(h.char c hc).1, (h.char c hc).2.1⟩
  head := fun hhead => (h.char '(' (List.mem_of_mem_head? hhead)).2.2.1 rfl

/-- A literal is an operand. -/
theorem derives_of_isLiteral (h : IsLiteral u) : ∃ us, Derives .operand u.toList us (literal u) := by
  rcases h with h | ⟨v, rfl, hv, hnumber⟩
  · exact ⟨_, .token h.isRun⟩
  · have hminus := Derives.minus allBlank_nil (Derives.token hv.isRun)
    rw [negate_of_looksDecimal hv hnumber] at hminus
    refine ⟨[v], ?_⟩
    rw [String.toList_append]
    exact hminus

end

end TreeScript.Expr
