import TreeScript.Proofs.Positions
import TreeScript.Procedure.Reader

/-!
# Reading items

In front of an argument whose domain is not fixed, the reader of items looks for a keyword: it reads a run of
characters, and puts the run back if it is none.  The place of the scanner does not move back with it, so an
error about an operand that is found in the run stands behind the run.  All other errors about operands stand
at the character that was found, and every error stands at a place of the text.

- `Text.CharAt`, `Text.PastRun`: the place of a character, and a place behind a run with it.
- `Reported`: the errors that readers of items report.
- `Scanner.Ahead`: a scanner that has a run put back.
- `Expr.invariant_ahead`, `Expr.kept_read`: what readers of expressions do with it.
- `Item.readArgumentDomain_ahead`: in front of an argument.
- `Item.settles_read`: an item.
-/

namespace TreeScript

open Scanner Text

/-! ### Places of characters -/

namespace Text

/-- The character at a place of a text. -/
def CharAt (text : List Char) (place : Position) (c : Char) : Prop :=
  ∃ front behind, text = front ++ c :: behind ∧ place = Position.start.after front

/-- The characters that end the run in front of an argument. -/
def isRunEnd (c : Char) : Bool := isBlank c || c ∈ [']', ';', '(']

/-- A place behind a run of characters that is over there. -/
structure RunEnds (text word : List Char) (place : Position) : Prop where
  split : ∃ before behind, text = before ++ word ++ behind ∧
    place = Position.start.after (before ++ word) ∧ ∃ c ∈ behind.head?, isRunEnd c = true
  not_isRunEnd : ∀ c ∈ word, isRunEnd c = false

/-- A place behind a run that a character is in. -/
def PastRun (text : List Char) (place : Position) (c : Char) : Prop :=
  ∃ word, c ∈ word ∧ RunEnds text word place

/-- What a scanner of a piece has read stands in the text, if it is not only the line feed at the end. -/
theorem Piece.exists_split {text taken rest : List Char} {c : Char} (p : Piece text) (hc : c ≠ '\n')
    (h : endLine p.inner = taken ++ [c] ++ rest) :
    ∃ more, p.inner = taken ++ [c] ++ more ∧ text = (p.before ++ (taken ++ [c])) ++ (more ++ p.behind) := by
  obtain ⟨more, hmore⟩ := concat_prefix_of_endLine hc ⟨rest, h.symm⟩
  refine ⟨more, hmore.symm, p.text_eq.trans ?_⟩
  rw [← hmore]
  simp only [List.append_assoc]

end Text

/-- The errors about operands that point at the character that was found; where runs are put back, also those
that stand behind a run with it. -/
def Points (text : List Char) (runs : Prop) (e : Error) : Prop :=
  ∀ c place, e = .malformed (.operandExpected (some c)) place →
    CharAt text place c ∨ runs ∧ PastRun text place c

/-- The errors of items: they stand at a place, and those about operands at the character. -/
structure Reported (text : List Char) (runs : Prop) (e : Error) : Prop where
  located : Located text e
  points : Points text runs e

theorem Scanner.Plain.reported {text : List Char} {runs : Prop} {e : Error} (h : Plain text e) :
    Reported text runs e := by
  refine ⟨h.located, ?_⟩
  rintro c place rfl
  cases h.asksNoOperand

theorem Text.Placed.reported {text : List Char} {runs : Prop} {place : Position} {flaw : Flaw}
    (h : Placed text place) (hflaw : AsksNoOperand (.malformed flaw place)) :
    Reported text runs (.malformed flaw place) :=
  Plain.reported ⟨⟨flaw, place, rfl, h⟩, hflaw⟩

/-! ### Scanners with a run put back -/

/-- A scanner of a piece that has at most a part of a run put back, behind which it stands. -/
structure Scanner.Ahead {text : List Char} (p : Piece text) (word : List Char) (s : Scanner) : Prop extends
    Within p (· ∈ word) s where
  runEnds : s.pushed ≠ [] → RunEnds text word s.position

namespace Scanner

variable {text word : List Char} {p : Piece text} {s : Scanner} {c : Char} {cs : List Char}

theorem Within.ahead (h : Within p (fun _ => False) s) (word : List Char) : Ahead p word s where
  toWithin := h.weaken _
  runEnds hpushed := absurd (List.eq_nil_iff_forall_not_mem.2 h.pushed) hpushed

theorem Within.stream_eq (h : Within p (fun _ => False) s) : s.stream = s.rest := by
  rw [stream, List.eq_nil_iff_forall_not_mem.2 h.pushed, List.nil_append]

/-- In front of a character that is in no run, nothing is put back. -/
theorem Ahead.within (h : Ahead p word s) (hc : c ∉ word) (hs : s.stream = c :: cs) :
    Within p (fun _ => False) s where
  taken := h.taken
  pushed d hd := by
    rw [(h.stream_eq_rest hc hs).1] at hd
    cases hd

/-- The next character stands at the place of the scanner, or in the run that was put back. -/
theorem Ahead.charAt_or (h : Ahead p word s) (hflush : Flush s.stream) (hhead : s.stream.head? = some c) :
    CharAt text s.position c ∨ c ∈ word ∧ RunEnds text word s.position := by
  cases hpushed : s.pushed with
  | nil =>
    rw [stream, hpushed, List.nil_append] at hflush hhead
    obtain ⟨rest, hrest⟩ := List.head?_eq_some_iff.1 hhead
    obtain ⟨taken, hinner, hposition⟩ := h.taken
    have hfeed : c ≠ '\n' := by
      rintro rfl
      exact hflush '\n' hhead (by decide)
    have htaken : endLine p.inner = taken ++ [c] ++ rest := by
      rw [hinner, hrest, List.append_assoc, List.singleton_append]
    obtain ⟨more, -, htext⟩ := p.exists_split hfeed htaken
    refine .inl ⟨p.before ++ taken, more ++ p.behind, htext.trans ?_, hposition⟩
    simp only [List.append_assoc, List.singleton_append]
  | cons d ds =>
    rw [stream, hpushed, List.cons_append, List.head?_cons] at hhead
    obtain rfl := Option.some.inj hhead
    exact .inr ⟨h.pushed d (by simp [hpushed]), h.runEnds (by simp [hpushed])⟩

theorem invariant_ahead (p : Piece text) (word : List Char) : Invariant (Ahead p word) where
  touch h := by
    refine ⟨h.toWithin.touch, ?_⟩
    rw [pushed_touch, position_touch]
    exact h.runEnds
  advance {s} n h := by
    refine ⟨h.toWithin.advance n, fun hpushed => ?_⟩
    -- as long as a part of the run is left, no other character leaves the text
    have hlt : n < s.pushed.length := Nat.lt_of_not_le fun hle => hpushed (List.drop_eq_nil_of_le hle)
    have hposition : (s.advance n).position = s.position := by
      simp [Scanner.advance, Nat.sub_eq_zero_of_le (Nat.le_of_lt hlt)]
    rw [hposition]
    exact h.runEnds (List.ne_nil_of_length_pos (Nat.zero_lt_of_lt hlt))

theorem Ahead.skipBlank (h : Ahead p word s) : Ahead p word s.skipBlank := (invariant_ahead p word).skipBlank h

end Scanner

/-! ### Expressions -/

namespace Expr

variable {text word : List Char} {p : Piece text} {runs : Prop} {s : Scanner}

/-- Readers of expressions report operands where they stand, or behind the run that was put back, which no
section is in. -/
theorem invariant_ahead (p : Piece text) (hparen : '(' ∉ word) (hruns : word ≠ [] → runs) :
    Invariant (Ahead p word) (fun t => ∃ q : Piece text, Ahead q [] t) (Reported text runs) where
  toInvariant := Scanner.invariant_ahead p word
  operandExpected {s} h hflush := by
    refine ⟨⟨_, _, rfl, h.placed⟩, fun c place heq => ?_⟩
    obtain ⟨hfound, rfl⟩ := Error.malformed.inj heq
    refine (h.charAt_or hflush (Flaw.operandExpected.inj hfound)).imp id fun ⟨hc, hends⟩ => ?_
    exact ⟨hruns (List.ne_nil_of_mem hc), word, hc, hends⟩
  operatorUnrecognized c h := h.placed.reported trivial
  findSection {s cs} h hs := by
    obtain ⟨hstays, hsection⟩ := (h.within hparen hs).findSection '(' ')' id (by decide)
    refine ⟨hstays.mono (fun _ ht => ht.ahead word) fun _ he => he.reported, fun body hbody => ?_⟩
    obtain ⟨q, -, hq⟩ := hsection body hbody
    exact ⟨q, (hq _).ahead []⟩

theorem kept_read (h : Ahead p word s) (hparen : '(' ∉ word) (hruns : word ≠ [] → runs) :
    Kept (Ahead p word) (Reported text runs) (read s) :=
  (invariant_ahead p hparen hruns).read
    (.of_forall fun q => invariant_ahead q List.not_mem_nil fun hne => absurd rfl hne) h

/-- Where nothing was put back. -/
theorem kept_read_within (h : Within p (fun _ => False) s) :
    Kept (Ahead p []) (Reported text runs) (read s) :=
  kept_read (h.ahead []) List.not_mem_nil fun hne => absurd rfl hne

/-- The errors of expressions stand at a place, and those about operands at the character. -/
theorem reported_parse (text : String) :
    FailsOnly (Reported (unifyLineEnds text.toList) False) (parse text) := by
  have hstart : Within (Piece.whole text.toList) (fun _ => False) (.ofString text) := within_ofString text
  exact (invariant_ahead _ List.not_mem_nil fun hne => absurd rfl hne).wholeText (kept_read_within hstart)

end Expr

/-! ### Arguments -/

namespace Item

variable {text word : List Char} {p : Piece text} {runs : Prop} {s t : Scanner} {place : Position}

/-- A run that is read from a piece in front of a closing bracket is over at a place of the text. -/
theorem runEnds_of_readUntil (h : Within p (fun _ => False) s) (hbehind : p.behind.head? = some ']')
    (hread : s.readUntil isRunEnd false = (word, t)) (hne : word ≠ []) : RunEnds text word t.position := by
  have hword : ∀ c ∈ (s.readUntil isRunEnd false).1, isRunEnd c = false := fun c => not_stop_of_mem_readUntil
  have hstream := stream_eq_readUntil isRunEnd s
  have hend : Within p (fun _ => False) (s.readUntil isRunEnd false).2 := h.readUntil isRunEnd
  have hstop : ∀ c rest, (s.readUntil isRunEnd false).2.stream = c :: rest → isRunEnd c = true :=
    fun c rest => stop_of_head?_readUntil
  rw [hread] at hword hstream hend hstop
  obtain ⟨taken, hinner, -⟩ := h.taken
  obtain ⟨taken', hinner', hposition⟩ := hend.taken
  rw [← h.stream_eq, hstream, hend.stream_eq, ← List.append_assoc, hinner',
    List.append_cancel_right_eq] at hinner
  subst hinner
  obtain ⟨front, d, rfl⟩ := (List.eq_nil_or_concat' word).resolve_left hne
  have hfeed : d ≠ '\n' := by
    rintro rfl
    exact absurd (hword '\n' (by simp)) (by decide)
  rw [← List.append_assoc taken] at hinner'
  obtain ⟨more, hmore, htext⟩ := p.exists_split hfeed hinner'
  refine ⟨⟨p.before ++ taken, more ++ p.behind, ?_, ?_, ?_⟩, hword⟩
  · refine htext.trans ?_
    simp only [List.append_assoc]
  · rw [hposition, List.append_assoc]
  · cases more with
    | nil => exact ⟨']', hbehind, by decide⟩
    | cons c cs =>
      -- the run is over in front of the next character of the piece
      refine ⟨c, rfl, ?_⟩
      obtain heq | heq := endLine_cases p.inner
      · rw [heq, hmore, List.append_cancel_left_eq, ← hend.stream_eq] at hinner'
        exact hstop c cs hinner'.symm
      · rw [heq, hmore, List.append_assoc, List.append_cancel_left_eq, ← hend.stream_eq] at hinner'
        exact hstop c (cs ++ ['\n']) hinner'.symm

/-- In front of an argument, nothing or a run is put back. -/
theorem readArgumentDomain_ahead (h : Within p (fun _ => False) s) (hbehind : p.behind.head? = some ']') :
    ∃ word, (∀ c ∈ word, isRunEnd c = false) ∧ Ahead p word (readArgumentDomain s).2 := by
  rcases hread : s.readUntil isRunEnd false with ⟨word, t⟩
  have hword : ∀ c ∈ (s.readUntil isRunEnd false).1, isRunEnd c = false := fun c => not_stop_of_mem_readUntil
  have hend : Within p (fun _ => False) (s.readUntil isRunEnd false).2 := h.readUntil isRunEnd
  rw [hread] at hword hend
  have hback : Ahead p word (t.unread word) := by
    refine ⟨(hend.weaken _).unread fun c => id, fun hpushed => ?_⟩
    have hne : word ≠ [] := by
      rintro rfl
      exact hpushed (List.eq_nil_iff_forall_not_mem.2 hend.pushed)
    show RunEnds text word t.position
    exact runEnds_of_readUntil h hbehind hread hne
  have hdomain : s.readUntilBlankOr [']', ';', '('] false = (word, t) := hread
  refine ⟨word, hword, ?_⟩
  simp only [readArgumentDomain, hdomain]
  split
  · split
    · exact hend.ahead word
    · exact hback
  · exact hback

theorem readArgument_ahead (fixed : Option Domain) (h : Within p (fun _ => False) s)
    (hbehind : p.behind.head? = some ']') (hruns : fixed = none → runs) :
    ∃ word, (∀ c ∈ word, isRunEnd c = false) ∧
      Kept (Ahead p word) (Reported text runs) (readArgument fixed s) := by
  cases fixed with
  | some domain => exact ⟨[], List.forall_mem_nil _, (Expr.kept_read_within h).map _⟩
  | none =>
    obtain ⟨word, hword, hahead⟩ := readArgumentDomain_ahead h hbehind
    have hparen : '(' ∉ word := fun hmem => absurd (hword '(' hmem) (by decide)
    exact ⟨word, hword, (Expr.kept_read hahead hparen fun _ => hruns rfl).map _⟩

/-! ### Items -/

/-- A reader of a part of an item was done: it reports errors as it should, and behind what it has read nothing
is put back. -/
structure Settles {α : Type} (p : Piece text) (runs : Prop) (Q : α → Prop)
    (outcome : Except Error α × Scanner) : Prop where
  failsOnly : FailsOnly (Reported text runs) outcome.1
  within : ∀ a, outcome.1 = .ok a → Within p (fun _ => False) outcome.2
  result : ∀ a, outcome.1 = .ok a → Q a

section Settles

variable {α β : Type} {Q : α → Prop}

theorem settles_error {e : Error} (he : Reported text runs e) :
    Settles p runs Q ((.error e : Except Error α), s) :=
  ⟨failsOnly_error he, fun a ha => (by cases ha), fun a ha => (by cases ha)⟩

theorem settles_ok {a : α} (ha : Q a) (h : Within p (fun _ => False) s) :
    Settles p runs Q ((.ok a : Except Error α), s) :=
  ⟨failsOnly_ok a, fun _ _ => h, fun _ heq => Except.ok.inj heq ▸ ha⟩

theorem Settles.map {outcome : Except Error α × Scanner} (h : Settles p runs (fun _ => True) outcome)
    (f : α → β) : Settles p runs (fun _ => True) (outcome.1.map f, outcome.2) := by
  refine ⟨h.failsOnly.map f, fun b hb => ?_, fun _ _ => trivial⟩
  obtain ⟨a, ha, -⟩ := map_eq_ok_iff.1 hb
  exact h.within a ha

end Settles

/-- The place at which a call would be refused is a place of the text. -/
def Placed (text : List Char) : Item → Prop
  | call _ _ position => Text.Placed text position
  | declare _ _ | assign _ _ _ => True

theorem settles_readArguments (fixed : Option Domain) (hplace : Text.Placed text place)
    (h : Within p (fun _ => False) s) (hbehind : p.behind.head? = some ']') (hruns : fixed = none → runs) :
    Settles p runs (fun _ => True) (readArguments fixed place s) := by
  fun_induction readArguments fixed place s with
  | case1 s hend => exact settles_error (hplace.reported trivial)
  | case2 s hmore hclosing => exact settles_ok trivial (h.skipBlank.advance 1)
  | case3 s hmore hopen e t hread =>
    obtain ⟨word, -, hkept⟩ := readArgument_ahead fixed h.skipBlank hbehind hruns
    exact settles_error (hkept.failsOnly e (congrArg Prod.fst hread))
  | case4 s hmore hopen argument t hread hseparator arguments u hrest ih =>
    obtain ⟨word, hword, hkept⟩ := readArgument_ahead fixed h.skipBlank hbehind hruns
    -- the separator is in no run, so what was put back has been read
    have hend : Within p (fun _ => False) t.skipBlank := by
      have hahead : Ahead p word t.skipBlank := (hkept.of_ok hread).skipBlank
      rcases hseparator with hhead | hhead
      · obtain ⟨rest, hs⟩ := List.head?_eq_some_iff.1 hhead
        exact hahead.within (fun hmem => absurd (hword ';' hmem) (by decide)) hs
      · obtain ⟨rest, hs⟩ := List.head?_eq_some_iff.1 hhead
        exact hahead.within (fun hmem => absurd (hword ']' hmem) (by decide)) hs
    have hothers := ih (hend.accept ';')
    rw [hrest] at hothers
    exact hothers.map (argument :: ·)
  | case5 s hmore hopen argument t hread hseparator =>
    obtain ⟨word, -, hkept⟩ := readArgument_ahead fixed h.skipBlank hbehind hruns
    exact settles_error ((hkept.of_ok hread).skipBlank.placed.reported trivial)

theorem settles_readCall {fixed : Option Domain} {native : String} (hplace : Text.Placed text place)
    (h : Within p (fun _ => False) s) (hbehind : p.behind.head? = some ']') (hruns : fixed = none → runs) :
    Settles p runs (Item.Placed text) (readCall fixed native place s) := by
  have hsettles := settles_readArguments fixed h.placed h hbehind hruns
  unfold readCall
  split
  · next e t hread => exact settles_error (hsettles.failsOnly e (congrArg Prod.fst hread))
  · next arguments t hread =>
    rw [hread] at hsettles
    exact settles_ok hplace ((hsettles.within arguments rfl).skipBlank.accept ';')

theorem settles_readAssignment {keyword : Keyword} {domain : Domain} {name : String}
    (h : Within p (fun _ => False) s) :
    Settles p runs (Item.Placed text) (readAssignment keyword domain name s) := by
  have hkept : Kept (Ahead p []) (Reported text runs) (Expr.read s) := Expr.kept_read_within h
  unfold readAssignment
  split
  · next e t hread => exact settles_error (hkept.failsOnly e (congrArg Prod.fst hread))
  · next e t hread =>
    have hend := (hkept.of_ok hread).skipBlank
    split
    · next u haccept =>
      have hwithin := hend.within List.not_mem_nil (stream_of_accept haccept)
      exact settles_ok trivial ((hwithin.accept ';').of_eq haccept)
    · next u haccept => exact settles_error (((hend.accept ';').of_eq haccept).placed.reported trivial)

theorem settles_readDeclaration {keyword : Keyword} (h : Within p (fun _ => False) s)
    (hbehind : p.behind.head? = some ']') :
    Settles p runs (Item.Placed text) (readDeclaration keyword s) := by
  have hplace := h.skipBlank.placed
  have hname : Within p (fun _ => False) (readName s.skipBlank).2 := h.skipBlank.readUntil _
  have hnext := hname.skipBlank.next
  simp only [readDeclaration]
  split
  · exact settles_error (hplace.reported trivial)
  · split
    · next u hread => exact settles_ok trivial (hnext.of_eq hread)
    · next u domain hread _ => exact settles_readAssignment (hnext.of_eq hread)
    · next u domain hread _ =>
      exact settles_readCall hplace (hnext.of_eq hread) hbehind (absurd · (Option.some_ne_none domain))
    · exact settles_error (hplace.reported trivial)
    · exact settles_error (hplace.reported trivial)
    · next found u _ hread _ _ _ _ => exact settles_error ((hnext.of_eq hread).placed.reported trivial)

/-- Runs are put back where the domain of an argument is not fixed, and that is behind a name that is no
keyword. -/
theorem settles_read (h : Within p (fun _ => False) s) (hbehind : p.behind.head? = some ']') :
    Settles p (Keyword.ofWord? (readName s).1 = none) (Item.Placed text) (read s) := by
  have hname : Within p (fun _ => False) (readName s).2 := h.readUntil _
  have hopen := hname.skipBlank.accept '['
  simp only [read]
  split
  · exact settles_error (h.placed.reported trivial)
  · split
    · exact settles_readDeclaration hname hbehind
    · next hnone =>
      split
      · next u haccept => exact settles_readCall h.placed (hopen.of_eq haccept) hbehind fun _ => hnone
      · exact settles_error (h.placed.reported trivial)

end Item

end TreeScript
