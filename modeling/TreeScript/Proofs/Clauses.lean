import TreeScript.Procedure.Reader
import TreeScript.Proofs.Expressions

/-!
# Items as they are written

The items of a procedure have five written forms.  Each is read back as the item that it stands for,
whatever stands behind it.

- `IsName`, `IsValue`: names and expressions that can stand in a procedure.
- `Argument`, `argumentsText`: arguments of calls, with or without a domain in front.
- `ReadsAs`, `readArguments_of_readsAs`: texts that are read as arguments are read as a list of them.
- `readArguments_of_stream`: a list of arguments is read back.
- `Clause`, `Clause.text`, `Clause.item`: the written forms, and what they stand for.
- `Clause.balanced_text`: the brackets of a clause belong together in pairs.
- `Clause.read_item`: each form is read back.
-/

namespace TreeScript

open Text

/-! ### Keywords and names -/

namespace Keyword

/-- The keyword that declares variables of a domain. -/
def ofDomain : Domain → Keyword
  | .boolean => bool
  | .integer => int
  | .decimal => decimal

@[simp] theorem domain?_ofDomain (d : Domain) : (ofDomain d).domain? = some d := by
  cases d <;> rfl

theorem eq_ofDomain {k : Keyword} {d : Domain} (h : k.domain? = some d) : k = ofDomain d := by
  cases k <;> cases h <;> rfl

theorem word_of_ofWord? {w : String} {k : Keyword} (h : ofWord? w = some k) : k.word = w := by
  simpa using List.find?_some h

end Keyword

/-- A name: it is not empty, and has no blanks and no delimiters. -/
structure IsName (name : String) : Prop where
  ne_nil : name.toList ≠ []
  char : ∀ c ∈ name.toList, isBlank c = false ∧ c ∉ ['[', ']', ':', ';']

instance (name : String) : Decidable (IsName name) :=
  decidable_of_iff (name.toList ≠ [] ∧
      name.toList.all (fun c => !isBlank c && decide (c ∉ ['[', ']', ':', ';'])) = true)
    ⟨fun h => ⟨h.1, by simpa using h.2⟩, fun h => ⟨h.ne_nil, by simpa using h.char⟩⟩

theorem Keyword.isName_word (k : Keyword) : IsName k.word := by
  cases k <;> decide

/-- A text that can stand behind a name. -/
def NameEnd (rest : List Char) : Prop := ∀ c ∈ rest.head?, isBlank c = true ∨ c ∈ Item.nameStops

namespace Item

variable {s : Scanner} {pad rest : List Char}

theorem readName_of_stream {name : String} (hname : IsName name) (hrest : NameEnd rest)
    (hs : s.stream = name.toList ++ rest) :
    ∃ t, readName s = (name, t) ∧ t.stream = rest := by
  have hchars : ∀ c ∈ name.toList, (isBlank c || decide (c ∈ nameStops)) = false := by
    intro c hc
    obtain ⟨hblank, hstop⟩ := hname.char c hc
    simp only [List.mem_cons, not_or] at hstop
    simp [hblank, nameStops, hstop]
  obtain ⟨t, hread, ht⟩ := Scanner.readUntil_of_stream
    (fun c => isBlank c || decide (c ∈ nameStops)) hs hchars (by simpa [NameEnd] using hrest)
  refine ⟨t, ?_, ht⟩
  simp only [readName, Scanner.readUntilBlankOr, hread, String.ofList_toList]

/-! ### Arguments -/

end Item

/-- An expression that can stand in a procedure: it has no brackets that could end a section. -/
structure IsValue (e : Expr) : Prop where
  printable : e.Printable
  bracket : '[' ∉ e.written.toList

/-- An argument of a call: an expression, and a domain that may stand in front of it. -/
structure Argument where
  domain : Option Domain
  expr : Expr

namespace Argument

/-- How an argument is written. -/
def text (a : Argument) : List Char :=
  match a.domain with
  | none => a.expr.written.toList
  | some d => (Keyword.ofDomain d).word.toList ++ ' ' :: a.expr.written.toList

theorem exists_cons {a : Argument} (ha : IsValue a.expr) :
    ∃ c cs, a.text = c :: cs ∧ isBlank c = false ∧ c ≠ ']' := by
  obtain ⟨d, e⟩ := a
  cases d with
  | none => exact ha.printable.exists_cons
  | some d => cases d <;> exact ⟨_, _, rfl, by decide, by decide⟩

/-- An argument as it is evaluated, in the domain of the call or else in its own. -/
def typed (fixed : Option Domain) (a : Argument) : TypedExpr :=
  ⟨a.expr, ((fixed <|> a.domain).getD .decimal)⟩

end Argument

/-- How the arguments of a call are written. -/
def argumentsText : List Argument → List Char
  | [] => []
  | a :: as => a.text ++ as.flatMap fun b => ';' :: ' ' :: b.text

theorem argumentsText_eq (as : List Argument) :
    argumentsText as = List.intercalate [';', ' '] (as.map Argument.text) := by
  induction as with
  | nil => rfl
  | cons a as ih =>
    cases as with
    | nil => simp [argumentsText]
    | cons b bs =>
      rw [List.map_cons, List.map_cons, List.intercalate_cons_cons, ← List.map_cons, ← ih]
      simp [argumentsText]

namespace Item

variable {s : Scanner} {pad rest : List Char}

/-- A domain in front of an argument is read, and the blank behind it is not. -/
theorem readArgumentDomain_word (d : Domain)
    (hs : s.stream = (Keyword.ofDomain d).word.toList ++ ' ' :: rest) :
    ∃ t, readArgumentDomain s = (d, t) ∧ t.stream = ' ' :: rest := by
  have hall : (Keyword.ofDomain d).word.toList.all
      (fun c => !(isBlank c || decide (c ∈ [']', ';', '(']))) = true := by
    cases d <;> decide
  obtain ⟨t, hread, ht⟩ := Scanner.readUntil_of_stream
    (fun c => isBlank c || decide (c ∈ [']', ';', '('])) hs
    (fun c hc => by simpa using List.all_eq_true.1 hall c hc)
    (fun c hc => by
      obtain rfl : ' ' = c := by simpa using hc
      decide)
  refine ⟨t, ?_, ht⟩
  have hblank : isBlank ' ' = true := by decide
  simp only [readArgumentDomain, Scanner.readUntilBlankOr, hread, String.ofList_toList,
    Keyword.ofWord?_word, Option.bind_some, Keyword.domain?_ofDomain, ht]
  simp [hblank]

/-- What stands in front of an argument is put back, unless it is the keyword of a domain with a blank
behind it. -/
theorem readArgumentDomain_of_not_domain
    (h : ∀ d, (Keyword.ofWord? (String.ofList (s.readUntilBlankOr [']', ';', '('] false).1)).bind
        Keyword.domain? = some d →
      (s.readUntilBlankOr [']', ';', '('] false).2.stream.head?.any isBlank = false) :
    ∃ t, readArgumentDomain s = (.decimal, t) ∧ t.stream = s.stream := by
  have hback : ((s.readUntilBlankOr [']', ';', '('] false).2.unread
      (s.readUntilBlankOr [']', ';', '('] false).1).stream = s.stream := by
    rw [Scanner.stream_unread]
    exact (s.stream_eq_readUntil _).symm
  refine ⟨_, ?_, hback⟩
  simp only [readArgumentDomain]
  split
  · next d hd =>
    rw [h d hd]
    rfl
  · rfl

/-- A printed expression is not taken for a keyword: a keyword would have a blank behind it. -/
theorem readArgumentDomain_written {e : Expr} (he : e.Printable)
    (hrest : Expr.IsSeparated rest) (hs : s.stream = e.written.toList ++ rest) :
    ∃ t, readArgumentDomain s = (.decimal, t) ∧ t.stream = s.stream := by
  refine readArgumentDomain_of_not_domain fun d hd => ?_
  obtain ⟨k, hk, -⟩ := Option.bind_eq_some_iff.1 hd
  have hword := Keyword.word_of_ofWord? hk
  cases e with
  | literal text =>
    have hchars : ∀ d ∈ text.toList, (isBlank d || decide (d ∈ [']', ';', '('])) = false := by
      intro d hd
      obtain ⟨hblank, hstop⟩ := Expr.IsLiteral.char he d hd
      simp [hblank, hstop]
    obtain ⟨t, hread, ht⟩ := Scanner.readUntil_of_stream
      (fun d => isBlank d || decide (d ∈ [']', ';', '('])) hs hchars (by
        obtain ⟨more, rfl | rfl⟩ := hrest <;> simp)
    rw [Scanner.readUntilBlankOr, hread, ht]
    obtain ⟨more, rfl | rfl⟩ := hrest
    · show isBlank ';' = false
      decide
    · show isBlank ']' = false
      decide
  | negative inner =>
    -- no keyword starts with a minus
    have hfirst : (s.readUntilBlankOr [']', ';', '('] false).1.head? = some '-' := by
      rw [Scanner.readUntilBlankOr, Scanner.fst_readUntil, hs, Expr.written, String.toList_append]
      rfl
    rw [← String.toList_inj, String.toList_ofList] at hword
    rw [← hword] at hfirst
    exact absurd hfirst (by cases k <;> decide)
  | binary op left right =>
    -- nothing stands in front of the parenthesis, and a keyword has characters
    have hnone : (s.readUntilBlankOr [']', ';', '('] false).1 = [] := by
      rw [Scanner.readUntilBlankOr, Scanner.fst_readUntil, hs, Expr.toList_written_binary]
      rfl
    rw [← String.toList_inj, String.toList_ofList, hnone] at hword
    exact absurd hword (Keyword.isName_word k).ne_nil

/-- An argument is read up to what stands behind it. -/
theorem readArgument_of_stream {fixed : Option Domain} {a : Argument}
    (hfixed : fixed.isSome = true → a.domain = none) (ha : IsValue a.expr)
    (hrest : Expr.IsSeparated rest) (hs : s.stream = a.text ++ rest) :
    ∃ t, readArgument fixed s = (.ok (a.typed fixed), t) ∧ t.stream = rest := by
  obtain ⟨d, e⟩ := a
  -- the expression is read behind a blank if there is a domain in front of it
  have hread : ∀ (u : Scanner) (pad : List Char), AllBlank pad →
      u.stream = pad ++ (e.written.toList ++ rest) →
        ∃ t, Expr.read u = (.ok e, t) ∧ t.stream = rest := by
    have hflush : trimStart rest = rest := trimStart_eq_self_iff.2 hrest.flush
    have hsigns : ∀ c ∈ (trimStart rest).head?, c ∉ Operator.signs := by
      rw [hflush]
      obtain ⟨more, rfl | rfl⟩ := hrest
      · simp [Operator.signs]
      · simp [Operator.signs]
    intro u pad hpad hu
    obtain ⟨t, hread, ht⟩ := Expr.read_written ha.printable hpad hrest.operandEnd hsigns hu
    exact ⟨t, hread, by rw [ht, hflush]⟩
  cases fixed with
  | some d' =>
    obtain rfl : d = none := hfixed rfl
    obtain ⟨t, he, ht⟩ := hread s [] allBlank_nil hs
    exact ⟨t, by simp only [readArgument, he]; rfl, ht⟩
  | none =>
    cases d with
    | none =>
      obtain ⟨u, hdomain, hu⟩ := readArgumentDomain_written ha.printable hrest hs
      obtain ⟨t, he, ht⟩ := hread u [] allBlank_nil (hu.trans hs)
      exact ⟨t, by simp only [readArgument, hdomain, he]; rfl, ht⟩
    | some d' =>
      have hword : s.stream = (Keyword.ofDomain d').word.toList ++ ' ' ::
          (e.written.toList ++ rest) := by
        simpa [Argument.text] using hs
      obtain ⟨u, hdomain, hu⟩ := readArgumentDomain_word d' hword
      obtain ⟨t, he, ht⟩ := hread u [' '] allBlank_space hu
      exact ⟨t, by simp only [readArgument, hdomain, he]; rfl, ht⟩

theorem readArguments_eq (fixed : Option Domain) (opened : Position) (s : Scanner) :
    readArguments fixed opened s =
      if s.skipBlank.stream = [] then (.error (.malformed .argumentsUnclosed opened), s.skipBlank)
      else if s.skipBlank.stream.head? = some ']' then (.ok [], s.skipBlank.advance 1)
      else
        match readArgument fixed s.skipBlank with
        | (.error e, t) => (.error e, t)
        | (.ok argument, t) =>
          if t.skipBlank.stream.head? = some ';' ∨ t.skipBlank.stream.head? = some ']' then
            ((readArguments fixed opened (t.skipBlank.accept ';').2).1.map (argument :: ·),
              (readArguments fixed opened (t.skipBlank.accept ';').2).2)
          else
            (.error (.malformed (.separatorExpected t.skipBlank.stream.head?) t.skipBlank.position),
              t.skipBlank) := by
  rw [readArguments]
  simp only [List.isEmpty_iff]
  split
  · rfl
  · split
    · rfl
    · split <;> simp_all

theorem readArguments_nil (fixed : Option Domain) (opened : Position) (hpad : AllBlank pad)
    (hs : s.stream = pad ++ ']' :: rest) :
    ∃ t, readArguments fixed opened s = (.ok [], t) ∧ t.stream = rest := by
  have hskip := Scanner.skipBlank_of_stream hs hpad (flush_cons.2 (by decide))
  refine ⟨s.skipBlank.advance 1, ?_, by rw [Scanner.stream_advance, hskip]; rfl⟩
  rw [readArguments_eq, if_neg (by simp [hskip]), if_pos (by simp [hskip])]

/-- A text that is read as an argument wherever it stands in a list: behind blanks, and in front of a
separator. -/
def ReadsAs (fixed : Option Domain) (cs : List Char) (a : TypedExpr) : Prop :=
  ∀ (s : Scanner) (pad rest : List Char), AllBlank pad → Expr.IsSeparated rest →
    s.stream = pad ++ (cs ++ rest) →
    s.skipBlank.stream ≠ [] ∧ s.skipBlank.stream.head? ≠ some ']' ∧
      ∃ t, readArgument fixed s.skipBlank = (.ok a, t) ∧ t.stream = rest

/-- Texts that are read as arguments are read as a list of them, up to behind the closing bracket. -/
theorem readArguments_of_readsAs {β : Type} {fixed : Option Domain} (opened : Position)
    (text : β → List Char) (value : β → TypedExpr) {xs : List β}
    (hxs : ∀ x ∈ xs, ReadsAs fixed (text x) (value x)) (hpad : AllBlank pad)
    (hs : s.stream = pad ++ (List.intercalate [';', ' '] (xs.map text) ++ ']' :: rest)) :
    ∃ t, readArguments fixed opened s = (.ok (xs.map value), t) ∧ t.stream = rest := by
  induction xs generalizing s pad with
  | nil => exact readArguments_nil fixed opened hpad hs
  | cons x xs ih =>
    -- behind the first argument stands a semicolon, or the bracket that ends the list
    obtain ⟨behind, hbehind, hs', hmore⟩ : ∃ behind, Expr.IsSeparated behind ∧
        s.stream = pad ++ (text x ++ behind) ∧ ∀ t : Scanner, t.stream = behind →
          ∃ gap, AllBlank gap ∧ (t.accept ';').2.stream =
            gap ++ (List.intercalate [';', ' '] (xs.map text) ++ ']' :: rest) := by
      cases xs with
      | nil =>
        refine ⟨']' :: rest, ⟨rest, .inr rfl⟩, by simpa using hs, fun t ht => ?_⟩
        exact ⟨[], allBlank_nil, by rw [Scanner.stream_accept_of_ne (by simp [ht]), ht]; rfl⟩
      | cons y ys =>
        have hsplit : List.intercalate [';', ' '] ((x :: y :: ys).map text) ++ ']' :: rest =
            text x ++ ';' :: ([' '] ++ (List.intercalate [';', ' '] ((y :: ys).map text) ++
              ']' :: rest)) := by
          simp
        rw [hsplit] at hs
        refine ⟨_, ⟨_, .inl rfl⟩, hs, fun t ht => ?_⟩
        obtain ⟨u, haccept, hu⟩ := Scanner.accept_of_stream ht
        exact ⟨[' '], allBlank_space, by rw [haccept, hu]⟩
    obtain ⟨hne, hclosing, t, hread, ht⟩ := hxs x (by simp) s pad behind hpad hbehind hs'
    have hskip : t.skipBlank.stream = behind :=
      Scanner.skipBlank_of_stream (ht.trans (List.nil_append behind).symm) allBlank_nil hbehind.flush
    obtain ⟨gap, hgap, hrest⟩ := hmore _ hskip
    obtain ⟨u, hothers, hu⟩ := ih (fun y hy => hxs y (by simp [hy])) hgap hrest
    refine ⟨u, ?_, hu⟩
    rw [readArguments_eq, if_neg hne, if_neg hclosing, hread]
    simp only [hskip, hothers]
    rw [if_pos hbehind.head?_eq]
    rfl

/-- The arguments of a call are read up to behind the closing bracket of their list. -/
theorem readArguments_of_stream {fixed : Option Domain} (opened : Position) {as : List Argument}
    (hfixed : fixed.isSome = true → ∀ a ∈ as, a.domain = none) (has : ∀ a ∈ as, IsValue a.expr)
    (hpad : AllBlank pad) (hs : s.stream = pad ++ (argumentsText as ++ ']' :: rest)) :
    ∃ t, readArguments fixed opened s = (.ok (as.map (Argument.typed fixed)), t) ∧
      t.stream = rest := by
  rw [argumentsText_eq] at hs
  refine readArguments_of_readsAs opened Argument.text (Argument.typed fixed) (fun a ha => ?_) hpad hs
  intro u gap behind hgap hbehind hu
  obtain ⟨c, cs, hcs, hblank, hclosing⟩ := Argument.exists_cons (has a ha)
  have hskip : u.skipBlank.stream = a.text ++ behind := by
    refine Scanner.skipBlank_of_stream hu hgap ?_
    rw [hcs]
    exact flush_cons.2 hblank
  exact ⟨by simp [hskip, hcs], by simp [hskip, hcs, hclosing],
    readArgument_of_stream (fun h => hfixed h a ha) (has a ha) hbehind hskip⟩

/-! ### What stands behind a name -/

theorem readName_next {name : String} {c : Char} (hname : IsName name) (hc : c ∈ nameStops)
    (hpad : AllBlank pad) (hs : s.stream = pad ++ (name.toList ++ c :: rest)) :
    ∃ t u, readName s.skipBlank = (name, t) ∧ t.skipBlank.next = (some c, u) ∧ u.stream = rest := by
  have hflush : Flush (name.toList ++ c :: rest) := by
    obtain ⟨d, ds, hds⟩ := List.exists_cons_of_ne_nil hname.ne_nil
    rw [hds]
    exact flush_cons.2 (hname.char d (by simp [hds])).1
  have hblank : isBlank c = false := by
    simp only [nameStops, List.mem_cons, List.not_mem_nil, or_false] at hc
    rcases hc with rfl | rfl | rfl <;> decide
  have hend : NameEnd (c :: rest) := by
    intro d hd
    obtain rfl : c = d := by simpa using hd
    exact Or.inr hc
  obtain ⟨t, hread, ht⟩ :=
    readName_of_stream hname hend (Scanner.skipBlank_of_stream hs hpad hflush)
  have hskip : t.skipBlank.stream = c :: rest :=
    Scanner.skipBlank_of_stream ht allBlank_nil (flush_cons.2 hblank)
  obtain ⟨u, hnext, hu⟩ := Scanner.next_of_stream hskip
  exact ⟨t, u, hread, hnext, hu⟩

section Declaration

variable {keyword : Keyword} {name : String} {d : Domain}

variable (keyword) in
theorem readDeclaration_semicolon (hname : IsName name) (hpad : AllBlank pad)
    (hs : s.stream = pad ++ (name.toList ++ ';' :: rest)) :
    ∃ t, readDeclaration keyword s = (.ok (.declare keyword name), t) ∧ t.stream = rest := by
  obtain ⟨t, u, hread, hnext, hu⟩ := readName_next hname (by decide) hpad hs
  refine ⟨u, ?_, hu⟩
  have hne : name.isEmpty = false := by simpa using hname.ne_nil
  simp [readDeclaration, hread, hnext, hne]

theorem readDeclaration_colon (hdomain : keyword.domain? = some d) (hname : IsName name)
    (hpad : AllBlank pad) (hs : s.stream = pad ++ (name.toList ++ ':' :: rest)) :
    ∃ u : Scanner, readDeclaration keyword s = readAssignment keyword d name u ∧ u.stream = rest := by
  obtain ⟨t, u, hread, hnext, hu⟩ := readName_next hname (by decide) hpad hs
  refine ⟨u, ?_, hu⟩
  have hne : name.isEmpty = false := by simpa using hname.ne_nil
  simp [readDeclaration, hread, hnext, hne, hdomain]

theorem readDeclaration_bracket (hdomain : keyword.domain? = some d) (hname : IsName name)
    (hpad : AllBlank pad) (hs : s.stream = pad ++ (name.toList ++ '[' :: rest)) :
    ∃ (place : Position) (u : Scanner),
      readDeclaration keyword s = readCall (some d) name place u ∧ u.stream = rest := by
  obtain ⟨t, u, hread, hnext, hu⟩ := readName_next hname (by decide) hpad hs
  refine ⟨s.skipBlank.position, u, ?_, hu⟩
  have hne : name.isEmpty = false := by simpa using hname.ne_nil
  simp [readDeclaration, hread, hnext, hne, hdomain]

variable (keyword name d) in
theorem readAssignment_of_stream {e : Expr} (he : IsValue e) (hpad : AllBlank pad)
    (hs : s.stream = pad ++ (e.written.toList ++ ';' :: rest)) :
    ∃ t, readAssignment keyword d name s = (.ok (.assign keyword name ⟨e, d⟩), t) ∧
      t.stream = rest := by
  have hflush : trimStart (';' :: rest) = ';' :: rest :=
    trimStart_eq_self_iff.2 (flush_cons.2 (by decide))
  obtain ⟨t, hread, ht⟩ := Expr.read_written he.printable hpad
    (by simp [Expr.OperandEnd, Expr.tokenStops]) (by rw [hflush]; simp [Operator.signs]) hs
  have hskip : t.skipBlank.stream = ';' :: rest := by
    rw [Scanner.stream_skipBlank, ht, ← trimStart, hflush, hflush]
  obtain ⟨u, haccept, hu⟩ := Scanner.accept_of_stream hskip
  exact ⟨u, by simp only [readAssignment, hread, haccept], hu⟩

end Declaration

/-- What may stand behind a call: nothing, or a semicolon. -/
def IsCallEnd (ending : List Char) : Prop :=
  ending = [] ∨ ∃ pad, AllBlank pad ∧ ending = pad ++ [';']

theorem readCall_of_stream (fixed : Option Domain) (native : String) (position : Position)
    {as : List Argument} {ending : List Char}
    (hfixed : fixed.isSome = true → ∀ a ∈ as, a.domain = none) (has : ∀ a ∈ as, IsValue a.expr)
    (hending : IsCallEnd ending) (hrest : (trimStart rest).head? ≠ some ';')
    (hs : s.stream = argumentsText as ++ ']' :: (ending ++ rest)) :
    ∃ t, readCall fixed native position s =
        (.ok (.call native (as.map (Argument.typed fixed)) position), t) ∧
      t.skipBlank.stream = trimStart rest := by
  obtain ⟨t, hread, ht⟩ := readArguments_of_stream s.position hfixed has allBlank_nil hs
  refine ⟨(t.skipBlank.accept ';').2, by simp only [readCall, hread], ?_⟩
  rcases hending with rfl | ⟨gap, hgap, rfl⟩
  · have hskip : t.skipBlank.stream = trimStart rest := by
      rw [Scanner.stream_skipBlank, ht]
      rfl
    rw [Scanner.stream_skipBlank, Scanner.stream_accept_of_ne (by rwa [hskip]), hskip]
    exact trimStart_eq_self_iff.2 (flush_trimStart rest)
  · have hskip : t.skipBlank.stream = ';' :: rest :=
      Scanner.skipBlank_of_stream (by rw [ht, List.append_assoc]; rfl) hgap
        (flush_cons.2 (by decide))
    obtain ⟨u, haccept, hu⟩ := Scanner.accept_of_stream hskip
    rw [haccept, Scanner.stream_skipBlank, hu]
    rfl

theorem read_keyword (k : Keyword) (hs : s.stream = k.word.toList ++ ' ' :: rest) :
    ∃ u : Scanner, read s = readDeclaration k u ∧ u.stream = ' ' :: rest := by
  have hend : NameEnd (' ' :: rest) := by
    intro c hc
    obtain rfl : ' ' = c := by simpa using hc
    exact Or.inl (by decide)
  obtain ⟨t, hread, ht⟩ := readName_of_stream k.isName_word hend hs
  have hne : k.word.isEmpty = false := by simpa using k.isName_word.ne_nil
  refine ⟨t, ?_, ht⟩
  simp [read, hread, hne, Keyword.ofWord?_word]

theorem read_native {native : String} (hname : IsName native)
    (hword : Keyword.ofWord? native = none) (hs : s.stream = native.toList ++ '[' :: rest) :
    ∃ u : Scanner, read s = readCall none native s.position u ∧ u.stream = rest := by
  have hend : NameEnd ('[' :: rest) := by
    intro c hc
    obtain rfl : '[' = c := by simpa using hc
    exact Or.inr (by decide)
  obtain ⟨t, hread, ht⟩ := readName_of_stream hname hend hs
  have hne : native.isEmpty = false := by simpa using hname.ne_nil
  have hskip : t.skipBlank.stream = '[' :: rest :=
    Scanner.skipBlank_of_stream ht allBlank_nil (flush_cons.2 (by decide))
  obtain ⟨u, haccept, hu⟩ := Scanner.accept_of_stream hskip
  refine ⟨u, ?_, hu⟩
  simp [read, hread, hne, hword, haccept]

end Item

/-! ### Characters that no name and no value has -/

/-- Brackets and carriage returns stand neither in names nor in values. -/
def foreignChars : List Char := ['[', ']', '\r']

theorem IsName.not_mem {name : String} (h : IsName name) {c : Char} (hc : c ∈ foreignChars) :
    c ∉ name.toList := by
  intro hmem
  obtain ⟨hblank, hstop⟩ := h.char c hmem
  simp only [foreignChars, List.mem_cons, List.not_mem_nil, or_false] at hc
  rcases hc with rfl | rfl | rfl
  · exact hstop (by simp)
  · exact hstop (by simp)
  · exact absurd hblank (by decide)

theorem IsValue.not_mem {e : Expr} (h : IsValue e) {c : Char} (hc : c ∈ foreignChars) :
    c ∉ e.written.toList := by
  simp only [foreignChars, List.mem_cons, List.not_mem_nil, or_false] at hc
  rcases hc with rfl | rfl | rfl
  · exact h.bracket
  · exact h.printable.not_mem (Or.inr (Or.inl (by decide))) (by decide)
  · exact h.printable.not_mem (Or.inl (by decide)) (by decide)

theorem not_mem_argumentsText {as : List Argument} (h : ∀ a ∈ as, IsValue a.expr) {c : Char}
    (hc : c ∈ foreignChars) : c ∉ argumentsText as := by
  have hspace : c ≠ ' ' := by
    rintro rfl
    exact absurd hc (by decide)
  have hsemicolon : c ≠ ';' := by
    rintro rfl
    exact absurd hc (by decide)
  have hone : ∀ a : Argument, IsValue a.expr → c ∉ a.text := by
    rintro ⟨d, e⟩ he
    cases d with
    | none => exact he.not_mem hc
    | some d =>
      have hword := (Keyword.isName_word (.ofDomain d)).not_mem hc
      have hvalue := IsValue.not_mem he hc
      simp [Argument.text, hword, hvalue, hspace]
  cases as with
  | nil => exact List.not_mem_nil
  | cons a as =>
    intro hmem
    rcases List.mem_append.1 hmem with hmem | hmem
    · exact hone a (h a (by simp)) hmem
    · obtain ⟨b, hb, hmem⟩ := List.mem_flatMap.1 hmem
      simp only [List.mem_cons, hsemicolon, hspace, false_or] at hmem
      exact hone b (h b (by simp [hb])) hmem

/-! ### Clauses -/

/-- An item as it is written. -/
inductive Clause where
  /-- `param name;` -/
  | parameter (name : String)
  /-- `keyword name;` -/
  | declaration (domain : Domain) (name : String)
  /-- `keyword name: value;` -/
  | assignment (domain : Domain) (name : String) (value : Expr)
  /-- `keyword native[value; …]` -/
  | typedCall (domain : Domain) (native : String) (values : List Expr)
  /-- `native[argument; …]` -/
  | untypedCall (native : String) (arguments : List Argument)

namespace Clause

/-- The characters of a clause. -/
def text : Clause → List Char
  | parameter name => Keyword.param.word.toList ++ ' ' :: (name.toList ++ [';'])
  | declaration d name => (Keyword.ofDomain d).word.toList ++ ' ' :: (name.toList ++ [';'])
  | assignment d name value => (Keyword.ofDomain d).word.toList ++ ' ' ::
      (name.toList ++ ':' :: ' ' :: (value.written.toList ++ [';']))
  | typedCall d native values => (Keyword.ofDomain d).word.toList ++ ' ' ::
      (native.toList ++ '[' :: (argumentsText (values.map (⟨none, ·⟩)) ++ [']']))
  | untypedCall native arguments => native.toList ++ '[' :: (argumentsText arguments ++ [']'])

/-- The side conditions of a clause.  A native function whose name is a keyword can only be called with
a keyword in front. -/
def Legal : Clause → Prop
  | parameter name => IsName name
  | declaration _ name => IsName name
  | assignment _ name value => IsName name ∧ IsValue value
  | typedCall _ native values => IsName native ∧ ∀ e ∈ values, IsValue e
  | untypedCall native arguments =>
    IsName native ∧ Keyword.ofWord? native = none ∧ ∀ a ∈ arguments, IsValue a.expr

/-- A clause starts with the first character of a name. -/
theorem exists_cons {c : Clause} (hc : c.Legal) :
    ∃ d ds, c.text = d :: ds ∧ isBlank d = false ∧ d ∉ ['[', ']', ':', ';'] := by
  have hname : ∀ {name : String} (rest : List Char), IsName name →
      ∃ d ds, name.toList ++ rest = d :: ds ∧ isBlank d = false ∧ d ∉ ['[', ']', ':', ';'] := by
    intro name rest hname
    obtain ⟨d, ds, hds⟩ := List.exists_cons_of_ne_nil hname.ne_nil
    exact ⟨d, ds ++ rest, by rw [hds]; rfl, hname.char d (by simp [hds])⟩
  cases c with
  | untypedCall native arguments => exact hname _ hc.1
  | _ => exact hname _ (Keyword.isName_word _)

/-- The item that a clause stands for. -/
def item (position : Position) : Clause → Item
  | parameter name => .declare .param name
  | declaration d name => .declare (.ofDomain d) name
  | assignment d name value => .assign (.ofDomain d) name ⟨value, d⟩
  | typedCall d native values => .call native (values.map (⟨·, d⟩)) position
  | untypedCall native arguments => .call native (arguments.map (Argument.typed none)) position

/-- What may stand behind a clause: only a call leaves its semicolon out. -/
def IsEnd : Clause → List Char → Prop
  | typedCall _ _ _, ending => Item.IsCallEnd ending
  | untypedCall _ _, ending => Item.IsCallEnd ending
  | _, ending => ending = []

/-! ### What a clause has inside -/

theorem isValue_of_mem_map {values : List Expr} (h : ∀ e ∈ values, IsValue e) :
    ∀ a ∈ values.map (Argument.mk none), IsValue a.expr := by
  intro a ha
  obtain ⟨e, he, rfl⟩ := List.mem_map.1 ha
  exact h e he

theorem carriageReturn_not_mem_text {c : Clause} (hc : c.Legal) : '\r' ∉ c.text := by
  have hreturn : '\r' ∈ foreignChars := by decide
  have hword : ∀ k : Keyword, '\r' ∉ k.word.toList := fun k => k.isName_word.not_mem hreturn
  cases c with
  | parameter name => simp [text, hword, IsName.not_mem hc hreturn]
  | declaration d name => simp [text, hword, IsName.not_mem hc hreturn]
  | assignment d name value =>
    simp [text, hword, hc.1.not_mem hreturn, hc.2.not_mem hreturn]
  | typedCall d native values =>
    simp [text, hword, hc.1.not_mem hreturn,
      not_mem_argumentsText (isValue_of_mem_map hc.2) hreturn]
  | untypedCall native arguments =>
    simp [text, hc.1.not_mem hreturn, not_mem_argumentsText hc.2.2 hreturn]

/-- The only brackets of a clause are the two around the arguments of a call. -/
theorem balanced_text {c : Clause} (hc : c.Legal) : Balanced '[' ']' c.text := by
  have hopen : '[' ∈ foreignChars := by decide
  have hclose : ']' ∈ foreignChars := by decide
  have hplain : ∀ {cs : List Char}, '[' ∉ cs → ']' ∉ cs → Balanced '[' ']' cs :=
    balanced_of_not_mem
  have hword : ∀ k : Keyword, Balanced '[' ']' (k.word.toList ++ [' ']) := fun k =>
    hplain (by simp [k.isName_word.not_mem hopen]) (by simp [k.isName_word.not_mem hclose])
  have hcall : ∀ {native : String} {as : List Argument}, IsName native →
      (∀ a ∈ as, IsValue a.expr) →
        Balanced '[' ']' (native.toList ++ '[' :: (argumentsText as ++ [']'])) := by
    intro native as hnative has
    have harguments := hplain (not_mem_argumentsText has hopen) (not_mem_argumentsText has hclose)
    exact (hplain (hnative.not_mem hopen) (hnative.not_mem hclose)).append
      harguments.enclose
  cases c with
  | parameter name =>
    rw [text, List.append_cons]
    exact (hword .param).append
      (hplain (by simp [IsName.not_mem hc hopen]) (by simp [IsName.not_mem hc hclose]))
  | declaration d name =>
    rw [text, List.append_cons]
    exact (hword (.ofDomain d)).append
      (hplain (by simp [IsName.not_mem hc hopen]) (by simp [IsName.not_mem hc hclose]))
  | assignment d name value =>
    rw [text, List.append_cons]
    exact (hword (.ofDomain d)).append
      (hplain (by simp [hc.1.not_mem hopen, hc.2.not_mem hopen])
        (by simp [hc.1.not_mem hclose, hc.2.not_mem hclose]))
  | typedCall d native values =>
    rw [text, List.append_cons]
    exact (hword (.ofDomain d)).append (hcall hc.1 (isValue_of_mem_map hc.2))
  | untypedCall native arguments => exact hcall hc.1 hc.2.2

/-- What stands behind a clause keeps its form when line ends are unified. -/
theorem IsEnd.lineFeeds {c : Clause} {ending : List Char} (h : c.IsEnd ending) :
    c.IsEnd (lineFeeds ending) := by
  have hcall : Item.IsCallEnd ending → Item.IsCallEnd (Text.lineFeeds ending) := by
    rintro (rfl | ⟨pad, hpad, rfl⟩)
    · exact Or.inl rfl
    · refine Or.inr ⟨Text.lineFeeds pad, hpad.lineFeeds, ?_⟩
      exact lineFeeds_append_of_head? (by decide) pad
  cases c with
  | typedCall d native values => exact hcall h
  | untypedCall native arguments => exact hcall h
  | _ =>
    obtain rfl := h
    rfl

theorem IsEnd.isCallEnd {c : Clause} {ending : List Char} (h : c.IsEnd ending) :
    Item.IsCallEnd ending := by
  cases c with
  | typedCall d native values => exact h
  | untypedCall native arguments => exact h
  | _ => exact Or.inl h

/-! ### Reading a clause -/

/-- **Clauses are read back**: a clause is read as the item that it stands for, up to the next
character that is not blank. -/
theorem read_item {c : Clause} (hc : c.Legal) {s : Scanner} {ending rest : List Char}
    (hending : c.IsEnd ending) (hrest : (trimStart rest).head? ≠ some ';')
    (hs : s.stream = c.text ++ (ending ++ rest)) :
    ∃ position t, Item.read s = (.ok (c.item position), t) ∧ t.skipBlank.stream = trimStart rest := by
  have hdone : ∀ t : Scanner, t.stream = rest → t.skipBlank.stream = trimStart rest := by
    intro t ht
    rw [Scanner.stream_skipBlank, ht]
    rfl
  cases c with
  | parameter name =>
    obtain rfl := hending
    have htext : s.stream = Keyword.param.word.toList ++ ' ' :: (name.toList ++ ';' :: rest) := by
      simpa [text] using hs
    obtain ⟨u, hread, hu⟩ := Item.read_keyword .param htext
    obtain ⟨t, hdeclare, ht⟩ := Item.readDeclaration_semicolon .param hc allBlank_space hu
    exact ⟨.start, t, hread.trans hdeclare, hdone t ht⟩
  | declaration d name =>
    obtain rfl := hending
    have htext : s.stream = (Keyword.ofDomain d).word.toList ++ ' ' ::
        (name.toList ++ ';' :: rest) := by
      simpa [text] using hs
    obtain ⟨u, hread, hu⟩ := Item.read_keyword (.ofDomain d) htext
    obtain ⟨t, hdeclare, ht⟩ :=
      Item.readDeclaration_semicolon (.ofDomain d) hc allBlank_space hu
    exact ⟨.start, t, hread.trans hdeclare, hdone t ht⟩
  | assignment d name value =>
    obtain rfl := hending
    have htext : s.stream = (Keyword.ofDomain d).word.toList ++ ' ' ::
        (name.toList ++ ':' :: ([' '] ++ (value.written.toList ++ ';' :: rest))) := by
      simpa [text] using hs
    obtain ⟨u, hread, hu⟩ := Item.read_keyword (.ofDomain d) htext
    obtain ⟨v, hcolon, hv⟩ :=
      Item.readDeclaration_colon (Keyword.domain?_ofDomain d) hc.1 allBlank_space hu
    obtain ⟨t, hassign, ht⟩ :=
      Item.readAssignment_of_stream (.ofDomain d) name d hc.2 allBlank_space hv
    exact ⟨.start, t, hread.trans (hcolon.trans hassign), hdone t ht⟩
  | typedCall d native values =>
    have htext : s.stream = (Keyword.ofDomain d).word.toList ++ ' ' :: (native.toList ++ '[' ::
        (argumentsText (values.map (⟨none, ·⟩)) ++ ']' :: (ending ++ rest))) := by
      simpa [text] using hs
    obtain ⟨u, hread, hu⟩ := Item.read_keyword (.ofDomain d) htext
    obtain ⟨place, v, hbracket, hv⟩ :=
      Item.readDeclaration_bracket (Keyword.domain?_ofDomain d) hc.1 allBlank_space hu
    have hfixed : ∀ a ∈ values.map (Argument.mk none), a.domain = none := by
      intro a ha
      obtain ⟨e, -, rfl⟩ := List.mem_map.1 ha
      rfl
    obtain ⟨t, hcall, ht⟩ := Item.readCall_of_stream (some d) native place
      (fun _ => hfixed) (isValue_of_mem_map hc.2) hending hrest hv
    refine ⟨place, t, ?_, ht⟩
    rw [hread, hbracket, hcall, List.map_map]
    rfl
  | untypedCall native arguments =>
    obtain ⟨hname, hword, harguments⟩ := hc
    have htext : s.stream = native.toList ++ '[' ::
        (argumentsText arguments ++ ']' :: (ending ++ rest)) := by
      simpa [text] using hs
    obtain ⟨u, hread, hu⟩ := Item.read_native hname hword htext
    obtain ⟨t, hcall, ht⟩ := Item.readCall_of_stream none native s.position
      (fun h => absurd h Bool.false_ne_true) harguments hending hrest hu
    exact ⟨s.position, t, hread.trans hcall, ht⟩

end Clause

end TreeScript
