import TreeScript.Proofs.Displacement
import TreeScript.Proofs.Embedding

/-!
# Ways to write a call

The domain of the arguments of a call is written in front of the call, or in front of each argument, or not at
all if it is that of decimal numbers.  The three ways lead through different readers: without a domain in
front of the call, the reader looks at the first word of each argument, and puts it back if it is no domain.
The call is the same, and so is all that is read behind it.

- `Derives.exists_first`, `Derives.blank_append`: how an expression starts.
- `StartsWithDomain`: the texts that are taken apart when no domain is written.
- `Spelling`, `Spelling.text`: the three ways.
- `Spelling.readsAs`: arguments, in each of them.
- `Spelling.read_item`: calls.
- `readItems_spellings`: a call among other items.
-/

namespace TreeScript

open Text

/-! ### How an expression starts -/

namespace Expr

variable {extent : Extent} {cs pad : List Char} {us : List String} {e : Expr}

/-- An expression starts with a character that is neither a blank nor a closing bracket, apart from blanks in
front of it. -/
theorem Derives.exists_first (h : Derives extent cs us e) :
    ∃ pad c ds, AllBlank pad ∧ cs = pad ++ c :: ds ∧ isBlank c = false ∧ c ≠ ']' := by
  induction h with
  | @token u hu =>
    obtain ⟨c, ds, hcs⟩ := List.exists_cons_of_ne_nil hu.ne_nil
    obtain ⟨hblank, hstop⟩ := hu.char c (by simp [hcs])
    refine ⟨[], c, ds, allBlank_nil, hcs, hblank, ?_⟩
    rintro rfl
    exact hstop (by decide)
  | minus => exact ⟨[], '-', _, allBlank_nil, rfl, by decide, by decide⟩
  | parentheses => exact ⟨[], '(', _, allBlank_nil, rfl, by decide, by decide⟩
  | @single gap cs us e hgap h ih =>
    obtain ⟨pad, c, ds, hpad, rfl, hc⟩ := ih
    exact ⟨gap ++ pad, c, ds, allBlank_append.2 ⟨hgap, hpad⟩, by simp, hc⟩
  | pair hleft hsign hgap hright ihl ihr =>
    obtain ⟨pad, c, ds, hpad, rfl, hc⟩ := ihl
    exact ⟨pad, c, _, hpad, List.append_assoc .., hc⟩
  | blank h hgap ih =>
    obtain ⟨pad, c, ds, hpad, rfl, hc⟩ := ih
    exact ⟨pad, c, _, hpad, List.append_assoc .., hc⟩

/-- Blanks can be put in front of a whole expression. -/
theorem Derives.blank_append (h : Derives extent cs us e) (hextent : extent = .whole)
    (hpad : AllBlank pad) : Derives .whole (pad ++ cs) us e := by
  induction h with
  | token => cases hextent
  | minus => cases hextent
  | parentheses => cases hextent
  | single hgap h =>
    rw [← List.append_assoc]
    exact .single (allBlank_append.2 ⟨hpad, hgap⟩) h
  | pair hleft hsign hgap hright ihl =>
    rw [← List.append_assoc]
    exact .pair (ihl rfl) hsign hgap hright
  | blank h hgap ih =>
    rw [← List.append_assoc]
    exact .blank (ih rfl) hgap

/-- An operand is looked for behind blanks. -/
theorem read_skipBlank (s : Scanner) : read s.skipBlank = read s := by
  rw [read_eq s.skipBlank, read_eq s, operand_eq s.skipBlank, operand_eq s, s.skipBlank_skipBlank]

/-- An expression is read from its first character. -/
theorem exists_read_skipBlank {rest : List Char} {s : Scanner} (h : Derives .whole cs us e)
    (hpad : AllBlank pad) (hrest : IsSeparated rest) (hs : s.stream = pad ++ (cs ++ rest)) :
    ∃ gap c ds, AllBlank gap ∧ cs = gap ++ c :: ds ∧ c ≠ ']' ∧
      s.skipBlank.stream = c :: ds ++ rest ∧
      ∃ t, read s.skipBlank = (.ok e, t) ∧ t.stream = rest := by
  obtain ⟨gap, c, ds, hgap, hcs, hc, hclosing⟩ := h.exists_first
  refine ⟨gap, c, ds, hgap, hcs, hclosing, ?_, ?_⟩
  · have hfront : s.stream = (pad ++ gap) ++ (c :: ds ++ rest) := by
      rw [hs, hcs]
      simp
    exact Scanner.skipBlank_of_stream hfront (allBlank_append.2 ⟨hpad, hgap⟩) (flush_cons.2 hc)
  · rw [read_skipBlank]
    exact read_of_derives (h.blank_append rfl hpad) hrest (hs.trans (List.append_assoc ..).symm)

/-- What is read of a text is read wherever the text stands. -/
theorem read_of_stream_eq {s t u : Scanner} (h : u.stream = s.stream) (hread : read s = (.ok e, t)) :
    ∃ v, read u = (.ok e, v) ∧ v.stream = t.stream := by
  have hsame := read_parallel h
  rw [hread] at hsame
  generalize read u = outcome at hsame ⊢
  cases hsame with
  | ok he hv => exact ⟨_, by rw [he], hv⟩

end Expr

/-! ### Arguments without a domain -/

/-- A text that starts with the keyword of a domain, behind blanks, and a blank behind it. -/
def StartsWithDomain (cs : List Char) : Prop :=
  ∃ (pad : List Char) (d : Domain) (c : Char) (rest : List Char), AllBlank pad ∧ isBlank c = true ∧
    cs = pad ++ ((Keyword.ofDomain d).word.toList ++ c :: rest)

/-- The same, as a test. -/
theorem startsWithDomain_iff {cs : List Char} :
    StartsWithDomain cs ↔ ∃ d ∈ [Domain.boolean, .integer, .decimal],
      (Keyword.ofDomain d).word.toList <+: trimStart cs ∧
        ((trimStart cs).drop (Keyword.ofDomain d).word.toList.length).head?.any isBlank = true := by
  constructor
  · rintro ⟨pad, d, c, rest, hpad, hc, rfl⟩
    have hflush : Flush ((Keyword.ofDomain d).word.toList ++ c :: rest) := by
      cases d <;> exact flush_cons.2 (by decide)
    refine ⟨d, by cases d <;> decide, ?_⟩
    rw [trimStart_append_of_allBlank hpad, trimStart_eq_self_iff.2 hflush]
    exact ⟨List.prefix_append _ _, by rw [List.drop_left]; exact hc⟩
  · rintro ⟨d, -, ⟨rest, hrest⟩, hblank⟩
    rw [← hrest, List.drop_left] at hblank
    cases rest with
    | nil => cases hblank
    | cons c rest =>
      refine ⟨cs.takeWhile isBlank, d, c, rest, forall_mem_takeWhile _ _, hblank, ?_⟩
      rw [hrest]
      exact List.takeWhile_append_dropWhile.symm

instance (cs : List Char) : Decidable (StartsWithDomain cs) :=
  decidable_of_iff _ startsWithDomain_iff.symm

theorem StartsWithDomain.blank_append {pad cs : List Char} (hpad : AllBlank pad)
    (h : StartsWithDomain cs) : StartsWithDomain (pad ++ cs) := by
  obtain ⟨gap, d, c, rest, hgap, hc, rfl⟩ := h
  exact ⟨pad ++ gap, d, c, rest, allBlank_append.2 ⟨hpad, hgap⟩, hc, by simp⟩

theorem StartsWithDomain.of_lineFeeds {cs : List Char} (h : StartsWithDomain (lineFeeds cs)) :
    StartsWithDomain cs := by
  obtain ⟨pad, d, c, rest, hpad, hc, hcs⟩ := h
  obtain ⟨gap, behind, rfl, hgap, hbehind⟩ := exists_of_lineFeeds_eq_append hcs
  obtain ⟨word, more, rfl, hword, hmore⟩ := exists_of_lineFeeds_eq_append hbehind
  have hnext : lineFeeds more = [c] ++ rest := hmore
  obtain ⟨blank, last, rfl, hblank, -⟩ := exists_of_lineFeeds_eq_append hnext
  obtain rfl := eq_of_lineFeeds_eq hword (by cases d <;> decide)
  -- the line end that the blank may have been is a blank too
  have hall : AllBlank blank :=
    AllBlank.of_lineFeeds (hblank ▸ allBlank_cons.2 ⟨hc, allBlank_nil⟩)
  cases blank with
  | nil => cases hblank
  | cons b blank =>
    exact ⟨gap, d, b, blank ++ last, AllBlank.of_lineFeeds (hgap ▸ hpad), (allBlank_cons.1 hall).1,
      rfl⟩

namespace Item

variable {s : Scanner} {cs rest : List Char}

/-- The first word of an argument is put back, unless it is a domain with a blank behind it. -/
theorem readArgumentDomain_of_not_startsWithDomain (hcs : ¬StartsWithDomain cs)
    (hrest : Expr.IsSeparated rest) (hs : s.stream = cs ++ rest) :
    ∃ t, readArgumentDomain s = (.decimal, t) ∧ t.stream = s.stream := by
  refine readArgumentDomain_of_not_domain fun d hd => ?_
  obtain ⟨k, hk, hdomain⟩ := Option.bind_eq_some_iff.1 hd
  obtain rfl := Keyword.eq_ofDomain hdomain
  have hword := congrArg String.toList (Keyword.word_of_ofWord? hk)
  rw [String.toList_ofList] at hword
  have hsplit : cs ++ rest = (Keyword.ofDomain d).word.toList ++
      (s.readUntilBlankOr [']', ';', '('] false).2.stream := by
    rw [← hs, hword]
    exact s.stream_eq_readUntil _
  -- a separator is neither in the word nor the blank behind it
  have hseparator : ∀ c ∈ rest.head?, isBlank c = false ∧ c ∉ (Keyword.ofDomain d).word.toList := by
    intro c hc
    rcases hrest.head?_eq with hhead | hhead
    · obtain rfl := Option.mem_unique hc hhead
      exact ⟨by decide, by cases d <;> decide⟩
    · obtain rfl := Option.mem_unique hc hhead
      exact ⟨by decide, by cases d <;> decide⟩
  generalize (s.readUntilBlankOr [']', ';', '('] false).2.stream = left at hsplit ⊢
  cases left with
  | nil => rfl
  | cons c more =>
    refine Bool.eq_false_iff.2 fun (hblank : isBlank c = true) => hcs ?_
    rcases List.append_eq_append_iff.1 hsplit with ⟨as, has, rfl⟩ | ⟨bs, rfl, hbs⟩
    · cases as with
      | nil => exact absurd hblank (by simp [(hseparator c rfl).1])
      | cons b bs => exact absurd (by simp [has]) (hseparator b rfl).2
    · cases bs with
      | nil =>
        obtain rfl : c :: more = rest := hbs
        exact absurd hblank (by simp [(hseparator c rfl).1])
      | cons b bs =>
        obtain ⟨rfl, -⟩ := List.cons.inj hbs
        exact ⟨[], d, c, bs, allBlank_nil, hblank, rfl⟩

end Item

/-! ### The three ways -/

/-- Where the domain of the arguments of a call is written. -/
inductive Spelling where
  /-- `keyword native[argument; …]` -/
  | front (domain : Domain)
  /-- `native[keyword argument; …]` -/
  | each (domain : Domain)
  /-- `native[argument; …]` -/
  | plain
deriving DecidableEq

namespace Spelling

/-- The domain of the arguments. -/
def domain : Spelling → Domain
  | front domain => domain
  | each domain => domain
  | plain => .decimal

/-- What stands in front of the name. -/
def lead : Spelling → List Char
  | front domain => (Keyword.ofDomain domain).word.toList ++ [' ']
  | each _ => []
  | plain => []

/-- How an argument is written. -/
def argument (spelling : Spelling) (cs : List Char) : List Char :=
  match spelling with
  | front _ => cs
  | each domain => (Keyword.ofDomain domain).word.toList ++ ' ' :: cs
  | plain => cs

/-- How a call is written. -/
def text (spelling : Spelling) (native : String) (arguments : List (List Char)) : List Char :=
  spelling.lead ++ (native.toList ++ '[' ::
    (List.intercalate [';', ' '] (arguments.map spelling.argument) ++ [']']))

/-- Without a domain, no argument may start with the keyword of one. -/
def Admits (spelling : Spelling) (cs : List Char) : Prop := spelling = plain → ¬StartsWithDomain cs

instance (spelling : Spelling) (cs : List Char) : Decidable (spelling.Admits cs) :=
  inferInstanceAs (Decidable (spelling = plain → ¬StartsWithDomain cs))

/-- The domain that is known when the arguments are read. -/
def known : Spelling → Option Domain
  | front domain => some domain
  | each _ => none
  | plain => none

variable {spelling : Spelling} {cs rest : List Char} {us : List String} {e : Expr} {s : Scanner}

/-- An argument is read as its expression in the domain of the call. -/
theorem readsAs (h : Expr.Derives .whole cs us e) (hadmits : spelling.Admits cs) :
    Item.ReadsAs spelling.known (spelling.argument cs) ⟨e, spelling.domain⟩ := by
  intro s pad rest hpad hrest hs
  cases spelling with
  | front d =>
    obtain ⟨gap, c, ds, -, -, hclosing, hskip, t, hread, ht⟩ :=
      Expr.exists_read_skipBlank h hpad hrest hs
    refine ⟨by simp [hskip], by simp [hskip, hclosing], t, ?_, ht⟩
    simp only [known, Item.readArgument, hread]
    rfl
  | each d =>
    obtain ⟨b, word, hword, hb, hbracket⟩ : ∃ b word, (Keyword.ofDomain d).word.toList = b :: word ∧
        isBlank b = false ∧ b ≠ ']' := by
      cases d <;> exact ⟨_, _, rfl, by decide, by decide⟩
    have hskip : s.skipBlank.stream = (Keyword.ofDomain d).word.toList ++ ' ' :: (cs ++ rest) := by
      refine Scanner.skipBlank_of_stream (hs.trans ?_) hpad ?_
      · simp [argument]
      · rw [hword]
        exact flush_cons.2 hb
    obtain ⟨u, hdomain, hu⟩ := Item.readArgumentDomain_word d hskip
    obtain ⟨t, hread, ht⟩ := Expr.read_of_derives (h.blank_append rfl allBlank_space) hrest hu
    refine ⟨by simp [hskip], by simp [hskip, hword, hbracket], t, ?_, ht⟩
    simp only [known, Item.readArgument, hdomain, hread]
    rfl
  | plain =>
    obtain ⟨gap, c, ds, hgap, hcs, hclosing, hskip, t, hread, ht⟩ :=
      Expr.exists_read_skipBlank h hpad hrest hs
    have hnot : ¬StartsWithDomain (c :: ds) := fun hstarts =>
      hadmits rfl (hcs ▸ hstarts.blank_append hgap)
    -- what was put back is read as if it had never been taken
    obtain ⟨u, hdomain, hu⟩ := Item.readArgumentDomain_of_not_startsWithDomain hnot hrest hskip
    obtain ⟨v, hread', hv⟩ := Expr.read_of_stream_eq hu hread
    refine ⟨by simp [hskip], by simp [hskip, hclosing], v, ?_, hv.trans ht⟩
    simp only [known, Item.readArgument, hdomain, hread']
    rfl

/-! ### Calls -/

/-- What is left behind a call: a semicolon there belongs to it. -/
def behindCall (rest : List Char) : List Char :=
  match trimStart rest with
  | ';' :: more => more
  | more => more

theorem stream_behindCall {t : Scanner} (h : t.stream = rest) :
    (t.skipBlank.accept ';').2.stream = behindCall rest := by
  have hskip : t.skipBlank.stream = trimStart rest := by
    rw [Scanner.stream_skipBlank, h]
    rfl
  unfold behindCall
  split
  · next more hmore =>
    obtain ⟨u, haccept, hu⟩ := Scanner.accept_of_stream (hskip.trans hmore)
    rw [haccept, hu]
  · next hne =>
    have hhead : t.skipBlank.stream.head? ≠ some ';' := by
      intro hhead
      obtain ⟨more, hmore⟩ := List.head?_eq_some_iff.1 hhead
      exact hne more (hskip.symm.trans hmore)
    rw [Scanner.stream_accept_of_ne hhead, hskip]

/-- **Calls are read alike**, wherever their domain is written. -/
theorem read_item {native : String} (hname : IsName native) (hword : Keyword.ofWord? native = none)
    {arguments : List (List Char × Expr)}
    (harguments : ∀ a ∈ arguments, (∃ us, Expr.Derives .whole a.1 us a.2) ∧ spelling.Admits a.1)
    (hs : s.stream = spelling.text native (arguments.map Prod.fst) ++ rest) :
    ∃ place t, Item.read s =
        (.ok (.call native (arguments.map fun a => ⟨a.2, spelling.domain⟩) place), t) ∧
      t.stream = behindCall rest := by
  -- the three ways meet behind the bracket that opens the list
  obtain ⟨place, u, hread, hu⟩ : ∃ place u, Item.read s = Item.readCall spelling.known native place u ∧
      u.stream = [] ++ (List.intercalate [';', ' ']
        (arguments.map fun a => spelling.argument a.1) ++ ']' :: rest) := by
    cases spelling with
    | front d =>
      obtain ⟨u, hkeyword, hu⟩ := Item.read_keyword (s := s) (.ofDomain d) (by simpa [text, lead] using hs)
      obtain ⟨place, v, hbracket, hv⟩ := Item.readDeclaration_bracket (Keyword.domain?_ofDomain d)
        hname allBlank_space hu
      exact ⟨place, v, hkeyword.trans hbracket, hv⟩
    | each d =>
      obtain ⟨u, hnative, hu⟩ := Item.read_native (s := s) hname hword (by simpa [text, lead] using hs)
      exact ⟨s.position, u, hnative, hu⟩
    | plain =>
      obtain ⟨u, hnative, hu⟩ := Item.read_native (s := s) hname hword (by simpa [text, lead] using hs)
      exact ⟨s.position, u, hnative, hu⟩
  obtain ⟨t, hlist, ht⟩ := Item.readArguments_of_readsAs u.position
    (fun a : List Char × Expr => spelling.argument a.1) (fun a => ⟨a.2, spelling.domain⟩)
    (fun a ha => by
      obtain ⟨⟨us, hus⟩, hadmits⟩ := harguments a ha
      exact readsAs hus hadmits) allBlank_nil hu
  refine ⟨place, (t.skipBlank.accept ';').2, ?_, stream_behindCall ht⟩
  rw [hread, Item.readCall, hlist]

/-! ### Calls in a block -/

theorem Admits.lineFeeds (h : spelling.Admits cs) : spelling.Admits (Text.lineFeeds cs) :=
  fun hplain hstarts => h hplain hstarts.of_lineFeeds

theorem lineFeeds_argument (spelling : Spelling) (cs : List Char) :
    Text.lineFeeds (spelling.argument cs) = spelling.argument (Text.lineFeeds cs) := by
  cases spelling with
  | front d => rfl
  | each d =>
    have hword : '\r' ∉ (Keyword.ofDomain d).word.toList ++ [' '] := by cases d <;> decide
    rw [argument, List.append_cons, lineFeeds_append_of_not_mem hword, ← List.append_cons]
    rfl
  | plain => rfl

/-- The line ends of a call are those of its arguments. -/
theorem lineFeeds_text (spelling : Spelling) {native : String} (hname : IsName native)
    (arguments : List (List Char)) :
    Text.lineFeeds (spelling.text native arguments) =
      spelling.text native (arguments.map Text.lineFeeds) := by
  have hlead : '\r' ∉ spelling.lead ++ (native.toList ++ ['[']) := by
    have hnative : '\r' ∉ native.toList := hname.not_mem (by decide)
    cases spelling with
    | front d => cases d <;> simp [lead, hnative] <;> decide
    | each d => simp [lead, hnative]
    | plain => simp [lead, hnative]
  have hlist : Text.lineFeeds (List.intercalate [';', ' '] (arguments.map spelling.argument)) =
      List.intercalate [';', ' '] ((arguments.map Text.lineFeeds).map spelling.argument) := by
    induction arguments with
    | nil => rfl
    | cons cs arguments ih =>
      cases arguments with
      | nil => simp [lineFeeds_argument]
      | cons ds arguments =>
        simp only [List.map_cons, List.intercalate_cons_cons, List.append_assoc] at ih ⊢
        rw [lineFeeds_append_of_head? (by simp), lineFeeds_append_of_not_mem (by decide), ih,
          lineFeeds_argument]
  have hsplit : ∀ list : List (List Char), spelling.text native list =
      (spelling.lead ++ (native.toList ++ ['['])) ++
        (List.intercalate [';', ' '] (list.map spelling.argument) ++ [']']) := by
    intro list
    simp [text]
  rw [hsplit, hsplit, lineFeeds_append_of_not_mem hlead, lineFeeds_append_of_head? (by decide), hlist]
  rfl

/-- A call starts with the first character of a word. -/
theorem exists_cons (spelling : Spelling) {native : String} (hname : IsName native)
    (arguments : List (List Char)) :
    ∃ c cs, spelling.text native arguments = c :: cs ∧ isBlank c = false := by
  obtain ⟨c, cs, hcs⟩ := List.exists_cons_of_ne_nil hname.ne_nil
  have hc := (hname.char c (by simp [hcs])).1
  cases spelling with
  | front d => cases d <;> exact ⟨_, _, rfl, by decide⟩
  | each d => exact ⟨c, _, by rw [text, lead, hcs]; rfl, hc⟩
  | plain => exact ⟨c, _, by rw [text, lead, hcs]; rfl, hc⟩

end Spelling

namespace Procedure

variable {α : Type} {natives : Registry α} {native : String} {arguments : List (String × Expr)}
  {rest : List Char}

/-- A call of a registered function adds a statement, and the reader goes on behind it. -/
theorem readItems_spelling (p : Procedure) (hname : IsName native)
    (hword : Keyword.ofWord? native = none) (hnative : natives.contains native = true)
    (harguments : ∀ a ∈ arguments, Expr.parse a.1 = .ok a.2) {spelling : Spelling}
    (hadmits : ∀ a ∈ arguments, spelling.Admits a.1.toList) {s : Scanner} {pad : List Char}
    (hpad : AllBlank pad)
    (hs : s.stream = pad ++ (lineFeeds (spelling.text native (arguments.map (·.1.toList))) ++ rest)) :
    ∃ t : Scanner, readItems natives p s = readItems natives (p.addStatement
        (.call native (arguments.map fun a => ⟨a.2, spelling.domain⟩))) t ∧
      t.stream = Spelling.behindCall rest := by
  rw [spelling.lineFeeds_text hname, List.map_map] at hs
  obtain ⟨c, cs, hcs, hblank⟩ := spelling.exists_cons hname
    (arguments.map (lineFeeds ∘ fun a => a.1.toList))
  have hskip := Scanner.skipBlank_of_stream hs hpad (by rw [hcs]; exact flush_cons.2 hblank)
  -- the arguments as the reader sees them
  have hderives : ∀ a ∈ arguments.map fun a => (lineFeeds a.1.toList, a.2),
      (∃ us, Expr.Derives .whole a.1 us a.2) ∧ spelling.Admits a.1 := by
    intro a ha
    obtain ⟨b, hb, rfl⟩ := List.mem_map.1 ha
    obtain ⟨us, hus⟩ := Expr.parse_eq_ok_iff_derives.1 (harguments b hb)
    exact ⟨⟨us, hus.lineFeeds⟩, (hadmits b hb).lineFeeds⟩
  have hstream : s.skipBlank.stream = spelling.text native
      ((arguments.map fun a => (lineFeeds a.1.toList, a.2)).map Prod.fst) ++ rest := by
    rw [hskip, List.map_map]
    rfl
  obtain ⟨place, t, hitem, ht⟩ := Spelling.read_item hname hword hderives hstream
  refine ⟨t, ?_, ht⟩
  rw [readItems_eq, if_neg (by simp [hskip, hcs]), hitem, List.map_map]
  simp only [addItem, hnative, if_true]
  rfl

/-- **Ways to write a call.**  In a block, a call of a registered function adds the same statement wherever
its domain is written, and the reader goes on behind it.  The whole rest of the block comes to the same
procedure for two ways that mean the same domain, or to the same error, whose place alone may differ. -/
theorem readItems_spellings (p : Procedure) (hname : IsName native)
    (hword : Keyword.ofWord? native = none) (hnative : natives.contains native = true)
    (harguments : ∀ a ∈ arguments, Expr.parse a.1 = .ok a.2) (rest : List Char) :
    (∀ (spelling : Spelling) (s : Scanner) (pad : List Char),
      (∀ a ∈ arguments, spelling.Admits a.1.toList) → AllBlank pad →
      s.stream = pad ++ (lineFeeds (spelling.text native (arguments.map (·.1.toList))) ++ rest) →
      ∃ t : Scanner, readItems natives p s = readItems natives (p.addStatement
          (.call native (arguments.map fun a => ⟨a.2, spelling.domain⟩))) t ∧
        t.stream = Spelling.behindCall rest) ∧
    ∀ (one other : Spelling) (s t : Scanner) (pad gap : List Char), one.domain = other.domain →
      (∀ a ∈ arguments, one.Admits a.1.toList ∧ other.Admits a.1.toList) →
      AllBlank pad → AllBlank gap →
      s.stream = pad ++ (lineFeeds (one.text native (arguments.map (·.1.toList))) ++ rest) →
      t.stream = gap ++ (lineFeeds (other.text native (arguments.map (·.1.toList))) ++ rest) →
      Displaced Eq (readItems natives p s) (readItems natives p t) := by
  constructor
  · intro spelling s pad hadmits hpad hs
    exact readItems_spelling p hname hword hnative harguments hadmits hpad hs
  · intro one other s t pad gap hdomain hadmits hpad hgap hs ht
    obtain ⟨u, hone, hu⟩ := readItems_spelling p hname hword hnative harguments
      (fun a ha => (hadmits a ha).1) hpad hs
    obtain ⟨v, hother, hv⟩ := readItems_spelling p hname hword hnative harguments
      (fun a ha => (hadmits a ha).2) hgap ht
    rw [hone, hother, hdomain]
    exact readItems_displaced natives _ (hu.trans hv.symm)

theorem readItems_spellings_sample :
    let natives := Registry.ofNames ["print"]
    let p : Procedure := .blank "f" none {}
    let values : List TypedExpr :=
      [⟨.binary .minus (.literal "int") (.literal "1"), .decimal⟩, ⟨.literal "b", .decimal⟩]
    (∃ t : Scanner, readItems natives p (.ofChars " print[int-1; (\r\nb)]; int n;".toList) =
        readItems natives (p.addStatement (.call "print" values)) t ∧
      t.stream = " int n;\n".toList) ∧
    Displaced Eq (readItems natives p (.ofChars "decimal print[int-1; (\r\nb)]; int n;".toList))
      (readItems natives p (.ofChars " print[int-1; (\r\nb)]; int n;".toList)) := by
  intro natives p values
  have hname : IsName "print" := by decide
  have hnative : natives.contains "print" = true := by with_unfolding_all rfl
  have hparse : ∀ a ∈ [("int-1", Expr.binary .minus (.literal "int") (.literal "1")),
      ("(\r\nb)", .literal "b")], Expr.parse a.1 = .ok a.2 := by
    with_unfolding_all decide
  obtain ⟨hadds, hsame⟩ := readItems_spellings p hname (by decide) hnative hparse "; int n;\n".toList
  constructor
  · exact hadds .plain (.ofChars " print[int-1; (\r\nb)]; int n;".toList) [' '] (by decide) allBlank_space
      (by with_unfolding_all rfl)
  · exact hsame (.front .decimal) .plain _ _ [] [' '] rfl (by decide) allBlank_nil allBlank_space
      (by with_unfolding_all rfl) (by with_unfolding_all rfl)

end Procedure

end TreeScript
