import TreeScript.Procedure.Reader
import TreeScript.Proofs.Readers
import TreeScript.Proofs.Sources

/-!
# How readers move on

Whatever comes of a reader, what it leaves is a suffix of what it found, also where a run was put back; and
if it succeeds, the suffix is a proper one.  A node takes up a character that is not blank, and the line feed
that may come in at the end of a text is blank.  So a text has at most as many nodes as characters.

- `Scanner.Beyond`: a scanner that is further on than another one.
- `Scanner.invariant_suffix`, `Expr.invariant_suffix`: a suffix is kept where a scanner moves on.
- `Expr.beyond_of_read`, `Item.beyond_of_read`, `Node.beyond_of_read`: readers that succeed.
- `Item.readRound`, `Procedure.readStatement`: one round of the loops over arguments and over items.
- `Node.length_le_of_parseAll`: the number of nodes.
-/

namespace TreeScript

open Scanner Text

namespace Scanner

variable {α : Type} {P : Scanner → Prop} {s t : Scanner} {cs : List Char}

/-- A scanner that is further on than another one: it has a proper suffix of the other's stream. -/
structure Beyond (t s : Scanner) : Prop where
  suffix : t.stream <:+ s.stream
  ne : t.stream ≠ s.stream

theorem beyond_iff_remaining_lt (hsuffix : t.stream <:+ s.stream) :
    t.Beyond s ↔ t.remaining < s.remaining := by
  constructor
  · intro h
    exact Nat.lt_of_le_of_ne hsuffix.length_le fun heq => h.ne (hsuffix.eq_of_length heq)
  · intro hlt
    refine ⟨hsuffix, fun heq => ?_⟩
    rw [remaining, remaining, heq] at hlt
    exact Nat.lt_irrefl _ hlt

theorem Beyond.remaining_lt (h : t.Beyond s) : t.remaining < s.remaining :=
  (beyond_iff_remaining_lt h.suffix).1 h

/-- What is behind it is further on too, also than what was in front. -/
theorem Beyond.extend {u v : Scanner} (h : t.Beyond s) (hbehind : u.stream <:+ t.stream)
    (hfront : s.stream <:+ v.stream) : u.Beyond v := by
  refine (beyond_iff_remaining_lt (hbehind.trans (h.suffix.trans hfront))).2 ?_
  exact Nat.lt_of_le_of_lt hbehind.length_le (Nat.lt_of_lt_of_le h.remaining_lt hfront.length_le)

theorem suffix_of_eq {outcome : α × Scanner} {a : α} (hsuffix : outcome.2.stream <:+ cs)
    (h : outcome = (a, t)) : t.stream <:+ cs := by
  subst h
  exact hsuffix

/-! ### What is kept where a scanner moves on -/

namespace Invariant

theorem readUntil (h : Invariant P) (hs : P s) (stop : Char → Bool) : P (s.readUntil stop false).2 :=
  h.takeWhile hs _

theorem next (h : Invariant P) (hs : P s) : P s.next.2 := h.advance 1 (h.touch hs)

theorem findSection (h : Invariant P) (hs : P s) (opening closing : Char) :
    P (s.findSection opening closing).2 := by
  have houter : P (s.skipUntilChar opening false) := h.readUntil hs _
  simp only [Scanner.findSection]
  split
  · exact houter
  · split
    · exact h.advance _ (h.advance 1 houter)
    · exact h.takeWhile (h.advance 1 houter) _

end Invariant

theorem invariant_suffix (cs : List Char) : Invariant (·.stream <:+ cs) where
  touch h := by rwa [stream_touch]
  advance n h := by
    rw [stream_advance]
    exact (List.drop_suffix n _).trans h

theorem suffix_skipBlank (s : Scanner) : s.skipBlank.stream <:+ s.stream :=
  (invariant_suffix s.stream).skipBlank (List.suffix_refl _)

/-- The text of a section that is entered is shorter than what was left to read by both delimiters. -/
theorem exists_text_of_enterSection {opening closing : Char} {inner : Scanner}
    (h : s.enterSection opening closing = (.ok inner, t)) :
    ∃ text origin, inner = .ofChars text origin ∧ text.length + 2 ≤ s.stream.length := by
  rcases hfind : s.findSection opening closing with ⟨_ | body, u⟩
  · rw [enterSection, hfind] at h
    cases h
  · rw [enterSection, hfind] at h
    obtain rfl := Except.ok.inj (Prod.mk.inj h).1
    have hlengths : body.text.length + 2 + u.remaining ≤ s.stream.length := findSection_lengths hfind
    exact ⟨body.text, body.origin, rfl, Nat.le_trans (Nat.le_add_right _ _) hlengths⟩

end Scanner

variable {s t : Scanner}

/-! ### Expressions -/

namespace Expr

theorem invariant_suffix (cs : List Char) :
    Invariant (·.stream <:+ cs) (fun _ => True) (fun _ => True) where
  toInvariant := Scanner.invariant_suffix cs
  operandExpected _ _ := trivial
  operatorUnrecognized _ _ := trivial
  findSection hs _ :=
    ⟨⟨fun _ _ => trivial, (Scanner.invariant_suffix cs).findSection hs '(' ')'⟩, fun _ _ => trivial⟩

theorem suffix_read (s : Scanner) : (read s).2.stream <:+ s.stream := by
  -- nothing has to be known of the scanners of sections
  have hinside : Invariant (fun _ => True) (fun _ => True) fun _ => True :=
    { touch := id, advance := fun _ => id, operandExpected := fun _ _ => trivial
      operatorUnrecognized := fun _ _ => trivial
      findSection := fun _ _ => ⟨⟨fun _ _ => trivial, trivial⟩, fun _ _ => trivial⟩ }
  exact ((invariant_suffix s.stream).read hinside (List.suffix_refl _)).scanner

theorem beyond_of_read {e : Expr} (h : read s = (.ok e, t)) : t.Beyond s :=
  (beyond_iff_remaining_lt (suffix_of_eq (suffix_read s) h)).2 (remaining_read_lt h)

end Expr

/-! ### Items -/

namespace Item

theorem suffix_readName (s : Scanner) : (readName s).2.stream <:+ s.stream :=
  (Scanner.invariant_suffix s.stream).readUntil (List.suffix_refl _) _

/-- A run that is put back stands in front of what was left behind it. -/
theorem suffix_readArgumentDomain (s : Scanner) : (readArgumentDomain s).2.stream <:+ s.stream := by
  let stop : Char → Bool := fun c => isBlank c || c ∈ [']', ';', '(']
  have hstream : s.stream = (s.readUntil stop false).1 ++ (s.readUntil stop false).2.stream :=
    stream_eq_readUntil stop s
  have hback : ((s.readUntil stop false).2.unread (s.readUntil stop false).1).stream <:+ s.stream := by
    rw [stream_unread, ← hstream]
  simp only [readArgumentDomain]
  split
  · split
    · exact (Scanner.invariant_suffix s.stream).readUntil (List.suffix_refl _) stop
    · exact hback
  · exact hback

theorem suffix_readArgument (fixed : Option Domain) (s : Scanner) :
    (readArgument fixed s).2.stream <:+ s.stream := by
  cases fixed with
  | some domain => exact Expr.suffix_read s
  | none => exact (Expr.suffix_read _).trans (suffix_readArgumentDomain s)

theorem beyond_of_readArgument {fixed : Option Domain} {argument : TypedExpr}
    (h : readArgument fixed s = (.ok argument, t)) : t.Beyond s :=
  (beyond_iff_remaining_lt (suffix_of_eq (suffix_readArgument fixed s) h)).2 (remaining_readArgument_lt h)

/-- Reads one argument of a list, and the semicolon behind it. -/
def readRound (fixed : Option Domain) (s : Scanner) : Except Error TypedExpr × Scanner :=
  match readArgument fixed s.skipBlank with
  | (.error e, t) => (.error e, t)
  | (.ok argument, t) =>
    if t.skipBlank.stream.head? = some ';' ∨ t.skipBlank.stream.head? = some ']' then
      (.ok argument, (t.skipBlank.accept ';').2)
    else
      (.error (.malformed (.separatorExpected t.skipBlank.stream.head?) t.skipBlank.position),
        t.skipBlank)

theorem suffix_accept_skipBlank (c : Char) (s : Scanner) :
    (s.skipBlank.accept c).2.stream <:+ s.stream :=
  (Scanner.invariant_suffix s.stream).accept s.suffix_skipBlank c

theorem beyond_of_readRound {fixed : Option Domain} {argument : TypedExpr}
    (h : readRound fixed s = (.ok argument, t)) : t.Beyond s := by
  rcases hread : readArgument fixed s.skipBlank with ⟨_ | argument', u⟩
  · rw [readRound, hread] at h
    cases h
  · simp only [readRound, hread] at h
    split at h
    · obtain ⟨-, rfl⟩ := Prod.mk.inj h
      exact (beyond_of_readArgument hread).extend (suffix_accept_skipBlank ';' u) s.suffix_skipBlank
    · cases h

theorem suffix_readArguments (fixed : Option Domain) (opened : Position) (s : Scanner) :
    (readArguments fixed opened s).2.stream <:+ s.stream := by
  have hfirst : ∀ s : Scanner, (readArgument fixed s.skipBlank).2.stream <:+ s.stream := fun s =>
    (suffix_readArgument fixed s.skipBlank).trans s.suffix_skipBlank
  fun_induction readArguments fixed opened s with
  | case1 s hend => exact s.suffix_skipBlank
  | case2 s hmore hclosing => exact (Scanner.invariant_suffix s.stream).advance 1 s.suffix_skipBlank
  | case3 s hmore hopen e t hread => exact suffix_of_eq (hfirst s) hread
  | case4 s hmore hopen argument t hread hseparator arguments u hrest ih =>
    have hothers := (suffix_of_eq ih hrest).trans (suffix_accept_skipBlank ';' t)
    exact hothers.trans (suffix_of_eq (hfirst s) hread)
  | case5 s hmore hopen argument t hread hseparator =>
    exact t.suffix_skipBlank.trans (suffix_of_eq (hfirst s) hread)

theorem suffix_readCall (fixed : Option Domain) (native : String) (place : Position) (s : Scanner) :
    (readCall fixed native place s).2.stream <:+ s.stream := by
  have harguments := suffix_readArguments fixed s.position s
  simp only [readCall]
  split
  · next e t hread => exact suffix_of_eq harguments hread
  · next arguments t hread => exact (suffix_accept_skipBlank ';' t).trans (suffix_of_eq harguments hread)

theorem suffix_readAssignment (keyword : Keyword) (domain : Domain) (name : String) (s : Scanner) :
    (readAssignment keyword domain name s).2.stream <:+ s.stream := by
  have hexpression := Expr.suffix_read s
  simp only [readAssignment]
  split
  · next e t hread => exact suffix_of_eq hexpression hread
  · next e t hread =>
    have hend := (suffix_accept_skipBlank ';' t).trans (suffix_of_eq hexpression hread)
    split
    · next u haccept => exact suffix_of_eq hend haccept
    · next u haccept => exact suffix_of_eq hend haccept

theorem suffix_readDeclaration (keyword : Keyword) (s : Scanner) :
    (readDeclaration keyword s).2.stream <:+ s.stream := by
  have hkept := Scanner.invariant_suffix s.stream
  have hname := (suffix_readName s.skipBlank).trans s.suffix_skipBlank
  have hnext := hkept.next (hkept.skipBlank hname)
  simp only [readDeclaration]
  split
  · exact hname
  · split
    · next u hread => exact suffix_of_eq hnext hread
    · next u domain hread _ => exact (suffix_readAssignment _ _ _ u).trans (suffix_of_eq hnext hread)
    · next u domain hread _ => exact (suffix_readCall _ _ _ u).trans (suffix_of_eq hnext hread)
    · next u hread _ => exact suffix_of_eq hnext hread
    · next u hread _ => exact suffix_of_eq hnext hread
    · next found u _ hread _ _ _ _ => exact suffix_of_eq hnext hread

theorem suffix_read (s : Scanner) : (read s).2.stream <:+ s.stream := by
  have hname := suffix_readName s
  have hopen := (suffix_accept_skipBlank '[' (readName s).2).trans hname
  simp only [read]
  split
  · exact hname
  · split
    · exact (suffix_readDeclaration _ _).trans hname
    · split
      · next u haccept => exact (suffix_readCall _ _ _ u).trans (suffix_of_eq hopen haccept)
      · next u haccept => exact suffix_of_eq hopen haccept

theorem beyond_of_read {item : Item} (h : read s = (.ok item, t)) : t.Beyond s :=
  (beyond_iff_remaining_lt (suffix_of_eq (suffix_read s) h)).2 (remaining_read_lt h)

end Item

namespace Procedure

variable {α : Type} {natives : Registry α} {p q : Procedure}

/-- Reads one item and adds it to a procedure. -/
def readStatement (natives : Registry α) (p : Procedure) (s : Scanner) :
    Except Error Procedure × Scanner :=
  ((Item.read s).1.bind (p.addItem natives), (Item.read s).2)

theorem beyond_of_readStatement (h : readStatement natives p s = (.ok q, t)) : t.Beyond s := by
  rcases hread : Item.read s with ⟨_ | item, u⟩
  · rw [readStatement, hread] at h
    cases h
  · rw [readStatement, hread] at h
    obtain ⟨-, rfl⟩ := Prod.mk.inj h
    exact Item.beyond_of_read hread

end Procedure

/-! ### Nodes -/

namespace Node

variable {mode : ReadMode} {node : Node} {nodes : List Node}

theorem suffix_readLeaf (key : List Char) (start : Position) (s : Scanner) :
    (readLeaf key start s).2.stream <:+ s.stream := by
  have hkept := Scanner.invariant_suffix s.stream
  have hend := hkept.accept (hkept.readUntil s.suffix_skipBlank (· = ';')) ';'
  simp only [readLeaf]
  split
  · next u haccept => exact suffix_of_eq hend haccept
  · next u haccept => exact suffix_of_eq hend haccept

theorem suffix_behindKey (mode : ReadMode) (readNodes : Scanner → Except Error (List Node))
    (start : Position) (key : List Char) (s : Scanner) :
    (behindKey mode readNodes start key s).2.stream <:+ s.stream := by
  have hkept := Scanner.invariant_suffix s.stream
  have hstay := List.suffix_refl s.stream
  simp only [behindKey]
  split
  · exact hstay
  · exact hkept.advance 1 hstay
  · exact (suffix_readLeaf key start _).trans (hkept.advance 1 hstay)
  · split
    · exact hstay
    · exact hkept.findSection hstay '[' ']'

/-- A node is read from the first character that is not blank. -/
theorem suffix_read (mode : ReadMode) (s : Scanner) : (read mode s).2.stream <:+ s.skipBlank.stream := by
  have hkept := Scanner.invariant_suffix s.skipBlank.stream
  have hkey := hkept.readUntil (List.suffix_refl _) (· ∈ ['[', ':', ']'])
  rw [read, readWith_eq_behindKey mode fun t => (readAll mode t).1]
  exact (suffix_behindKey _ _ _ _ _).trans (hkept.touch hkey)

theorem read_skipBlank (mode : ReadMode) (s : Scanner) : read mode s.skipBlank = read mode s := by
  simp only [read, readWith_eq_behindKey mode fun t => (readAll mode t).1, s.skipBlank_skipBlank]

theorem beyond_skipBlank_of_read (h : read mode s = (.ok node, t)) : t.Beyond s.skipBlank := by
  have hsuffix := suffix_of_eq (suffix_read mode s) h
  rw [← read_skipBlank] at h
  exact (beyond_iff_remaining_lt hsuffix).2 (remaining_readWith_lt h)

theorem beyond_of_read (h : read mode s = (.ok node, t)) : t.Beyond s :=
  (beyond_skipBlank_of_read h).extend (List.suffix_refl _) s.suffix_skipBlank

/-! ### The number of nodes -/

/-- The number of characters that are not blank. -/
def visible (cs : List Char) : Nat := cs.countP (!isBlank ·)

/-- All line ends are blank, also the one that comes in at the end of a text. -/
theorem visible_unifyLineEnds (cs : List Char) : visible (unifyLineEnds cs) = visible cs := by
  have hreturn : isBlank '\r' = true := by decide
  have hfeed : isBlank '\n' = true := by decide
  simp only [visible]
  fun_induction unifyLineEnds cs with
  | case1 => rfl
  | case2 cs ih => simp [hreturn, hfeed, ih]
  | case3 cs _ ih => simp [hreturn, hfeed, ih]
  | case4 cs ih => simp [hfeed, ih]
  | case5 c _ _ => simp [List.countP_cons, hfeed]
  | case6 c d cs _ _ _ ih => rw [List.countP_cons, List.countP_cons, ih]

/-- A node takes up the first character that is not blank. -/
theorem visible_lt_of_read (h : read mode s = (.ok node, t)) : visible t.stream < visible s.stream := by
  have hbeyond := beyond_skipBlank_of_read h
  cases hs : s.skipBlank.stream with
  | nil =>
    have hlt := hbeyond.remaining_lt
    rw [remaining, remaining, hs] at hlt
    exact absurd hlt (Nat.not_lt_zero _)
  | cons c cs =>
    have hc : isBlank c = false := flush_cons.1 (hs ▸ s.flush_skipBlank)
    have hrest : t.stream <:+ cs := by
      have hsuffix := hbeyond.suffix
      rw [hs, List.suffix_cons_iff] at hsuffix
      exact hsuffix.resolve_left fun heq => hbeyond.ne (heq.trans hs.symm)
    calc visible t.stream
      _ ≤ visible cs := hrest.sublist.countP_le
      _ < visible (c :: cs) := by simp [visible, hc]
      _ ≤ visible s.stream := hs ▸ s.suffix_skipBlank.sublist.countP_le

theorem length_le_of_readAll (h : (readAll mode s).1 = .ok nodes) :
    nodes.length ≤ visible s.stream := by
  induction hn : s.remaining using Nat.strong_induction_on generalizing s nodes with
  | _ n ih =>
    subst hn
    rw [readAll_eq] at h
    split at h
    · obtain rfl := Except.ok.inj h
      exact Nat.zero_le _
    · rcases hread : read mode s with ⟨_ | node, t⟩
      all_goals
        rw [read] at hread
        simp only [hread] at h
      · cases h
      · obtain ⟨others, hothers, rfl⟩ := map_eq_ok_iff.1 h
        have hlt := visible_lt_of_read hread
        have hle := ih _ (beyond_of_read hread).remaining_lt hothers rfl
        rw [List.length_cons]
        exact Nat.lt_of_le_of_lt hle hlt

/-- **A text has at most as many nodes as characters.** -/
theorem length_le_of_parseAll {text : String} (h : parseAll text = .ok nodes) :
    nodes.length ≤ text.length := by
  have hle := length_le_of_readAll h
  rw [stream_ofString, visible_unifyLineEnds] at hle
  exact hle.trans List.countP_le_length

end Node

end TreeScript
