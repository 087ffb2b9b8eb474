import TreeScript.Proofs.Brackets
import TreeScript.Proofs.Readers

/-!
# Positions inside a text

The scanner of a section goes on with the positions of the text around it.  It reads a piece of that
text, whose last line it ends with a line feed if that is missing; so all of its positions are places of
the text, but for the one behind the line feed that it has put there.

- `Text.Piece`, `Text.Piece.whole`, `Text.Piece.enter`: the whole text, or the text of a section in it.
- `Text.Placed`: the positions that scanners of pieces have.
- `Scanner.Within`: a scanner of a piece; `Within.advance`, `Within.takeWhile` and so on: it stays one.
- `Within.placed`: where it stands.
- `Within.enter`: the text of a section is a piece too.
- `Located`, `Plain`, `Stays`: what readers report, and that they stay in their piece.
- `Within.findSection`: the search for a section.
-/

namespace TreeScript

namespace Text

/-! ### Pieces of a text -/

theorem endLine_cases (cs : List Char) : endLine cs = cs ∨ endLine cs = cs ++ ['\n'] := by
  unfold endLine
  split
  · exact .inl rfl
  · exact .inr rfl

theorem endLine_unifyLineEnds (cs : List Char) : endLine (unifyLineEnds cs) = unifyLineEnds cs := by
  rw [unifyLineEnds_eq]
  obtain h | h := endLine_cases (lineFeeds cs)
  · rw [h, h]
  · rw [h, endLine_append_lineFeed]

/-- What ends with another character does not reach over the line feed at the end. -/
theorem concat_prefix_of_endLine {cs ds : List Char} {c : Char} (hc : c ≠ '\n')
    (h : cs ++ [c] <+: endLine ds) : cs ++ [c] <+: ds := by
  obtain heq | heq := endLine_cases ds
  · rwa [heq] at h
  · rw [heq, List.prefix_concat_iff] at h
    obtain heq | hprefix := h
    · exact absurd (List.append_inj_right' heq rfl) (by simpa using hc)
    · exact hprefix

/-- The characters that close sections. -/
def closers : List Char := [')', ']']

/-- A piece of a text for which there is a scanner: the whole text, or the text of a section. -/
structure Piece (text : List Char) where
  before : List Char
  inner : List Char
  behind : List Char
  text_eq : text = before ++ inner ++ behind
  not_mem_return : '\r' ∉ inner
  /-- Its last line is ended, or its section is closed behind it. -/
  ended : endLine inner = inner ∨ ∃ c ∈ behind.head?, c ∈ closers

/-- A text as its scanner sees it, as a piece of itself. -/
def Piece.whole (cs : List Char) : Piece (unifyLineEnds cs) where
  before := []
  inner := unifyLineEnds cs
  behind := []
  text_eq := (List.append_nil _).symm
  not_mem_return := not_mem_unifyLineEnds cs
  ended := .inl (endLine_unifyLineEnds cs)

/-- The text of a section of a piece. -/
def Piece.enter {text taken body rest : List Char} {closing : Char} (p : Piece text)
    (hclosing : closing ∈ closers) (h : taken ++ body ++ [closing] ++ rest = p.inner) : Piece text where
  before := p.before ++ taken
  inner := body
  behind := closing :: (rest ++ p.behind)
  text_eq := by
    refine p.text_eq.trans ?_
    rw [← h]
    simp only [List.append_assoc, List.cons_append, List.nil_append]
  not_mem_return hmem := p.not_mem_return (by simp [← h, hmem])
  ended := .inr ⟨closing, rfl, hclosing⟩

/-- A position that a reader of a text can be at. -/
inductive Placed (text : List Char) : Position → Prop
  /-- The position of a place of the text. -/
  | inside {front behind : List Char} (h : text = front ++ behind) :
      Placed text (Position.start.after front)
  /-- The position that the end of a section would have if its last line were ended. -/
  | lineBehind {front behind : List Char} {c : Char} (h : text = front ++ c :: behind)
      (hc : c ∈ closers) (hline : endLine front = front ++ ['\n']) :
      Placed text (Position.start.after (front ++ ['\n']))

theorem endLine_append_of_open {cs : List Char} (h : endLine cs = cs ++ ['\n']) (front : List Char) :
    endLine (front ++ cs) = front ++ cs ++ ['\n'] := by
  have hopen : ¬(cs = [] ∨ cs.getLast? = some '\n') := by
    intro hended
    rw [endLine, if_pos hended] at h
    simp at h
  rw [not_or] at hopen
  rw [endLine, if_neg]
  rintro (hnil | hlast)
  · exact hopen.1 (List.append_eq_nil_iff.1 hnil).2
  · rw [List.getLast?_append_of_ne_nil _ hopen.1] at hlast
    exact hopen.2 hlast

/-- Where a reader stands that has taken some characters of a piece. -/
theorem Piece.placed {text : List Char} (p : Piece text) {taken : List Char}
    (h : taken <+: endLine p.inner) : Placed text (Position.start.after (p.before ++ taken)) := by
  have hinside : taken <+: p.inner → Placed text (Position.start.after (p.before ++ taken)) := by
    rintro ⟨rest, hrest⟩
    have htext : text = (p.before ++ taken) ++ (rest ++ p.behind) := by
      refine p.text_eq.trans ?_
      rw [← hrest]
      simp only [List.append_assoc]
    exact .inside htext
  obtain heq | heq := endLine_cases p.inner
  · exact hinside (heq ▸ h)
  · rw [heq, List.prefix_concat_iff] at h
    obtain rfl | hprefix := h
    · -- the line feed at the end was taken, and it is not that of the text
      obtain hended | ⟨c, hc, hcloser⟩ := p.ended
      · rw [hended] at heq
        simp at heq
      · obtain ⟨behind, hbehind⟩ : ∃ behind, p.behind = c :: behind := by
          cases hb : p.behind with
          | nil => simp [hb] at hc
          | cons d ds => exact ⟨ds, by simpa [hb] using hc⟩
        have htext : text = (p.before ++ p.inner) ++ c :: behind := by
          rw [← hbehind]
          exact p.text_eq
        rw [← List.append_assoc]
        exact .lineBehind htext hcloser (endLine_append_of_open heq p.before)
    · exact hinside hprefix

end Text

namespace Scanner

open Text

/-! ### Scanners of pieces -/

/-- A scanner of a piece: behind some of its characters, with characters of some kind put back. -/
structure Within {text : List Char} (p : Piece text) (pushable : Char → Prop) (s : Scanner) : Prop where
  taken : ∃ taken, endLine p.inner = taken ++ s.rest ∧
    s.position = Position.start.after (p.before ++ taken)
  pushed : ∀ c ∈ s.pushed, pushable c

variable {text : List Char} {p : Piece text} {pushable : Char → Prop} {s t : Scanner}

theorem within_ofString (cs : String) :
    Within (Piece.whole cs.toList) pushable (Scanner.ofString cs) where
  taken := ⟨[], endLine_unifyLineEnds cs.toList, rfl⟩
  pushed := by
    intro c hc
    cases hc

namespace Within

/-- Where nothing was put back, nothing of another kind was. -/
theorem weaken (h : Within p (fun _ => False) s) (pushable : Char → Prop) : Within p pushable s :=
  ⟨h.taken, fun c hc => (h.pushed c hc).elim⟩

theorem of_eq {α : Type} {outcome : α × Scanner} {a : α} (h : Within p pushable outcome.2)
    (heq : outcome = (a, t)) : Within p pushable t := by
  rw [heq] at h
  exact h

/-- A scanner of a piece stands at a place. -/
theorem placed (h : Within p pushable s) : Placed text s.position := by
  obtain ⟨taken, hinner, hposition⟩ := h.taken
  rw [hposition]
  exact p.placed ⟨s.rest, hinner.symm⟩

theorem touch (h : Within p pushable s) : Within p pushable s.touch where
  taken := by
    rw [rest_touch, position_touch]
    exact h.taken
  pushed := by
    rw [pushed_touch]
    exact h.pushed

theorem advance (h : Within p pushable s) (n : Nat) : Within p pushable (s.advance n) where
  taken := by
    obtain ⟨taken, hinner, hposition⟩ := h.taken
    refine ⟨taken ++ s.rest.take (n - s.pushed.length), ?_, ?_⟩
    · show _ = _ ++ s.rest.drop _
      rw [List.append_assoc, List.take_append_drop, hinner]
    · show s.position.after _ = _
      rw [hposition, ← Position.after_append, List.append_assoc]
  pushed c hc := h.pushed c (List.mem_of_mem_drop hc)

theorem invariant (p : Piece text) (pushable : Char → Prop) : Invariant (Within p pushable) where
  touch h := h.touch
  advance n h := h.advance n

theorem takeWhile (h : Within p pushable s) (q : Char → Bool) : Within p pushable (s.takeWhile q).2 :=
  (invariant p pushable).takeWhile h q

theorem skipBlank (h : Within p pushable s) : Within p pushable s.skipBlank :=
  (invariant p pushable).skipBlank h

theorem readUntil (h : Within p pushable s) (stop : Char → Bool) :
    Within p pushable (s.readUntil stop false).2 :=
  h.takeWhile _

theorem accept (h : Within p pushable s) (c : Char) : Within p pushable (s.accept c).2 :=
  (invariant p pushable).accept h c

theorem next (h : Within p pushable s) : Within p pushable s.next.2 := h.touch.advance 1

/-- Characters may be put back if they are of the kind. -/
theorem unread (h : Within p pushable s) {cs : List Char} (hcs : ∀ c ∈ cs, pushable c) :
    Within p pushable (s.unread cs) where
  taken := h.taken
  pushed c hc := (List.mem_append.1 hc).elim (hcs c) (h.pushed c)

/-- In front of a character that is never put back, nothing is. -/
theorem stream_eq_rest (h : Within p pushable s) {c : Char} (hc : ¬pushable c) {rest : List Char}
    (hs : s.stream = c :: rest) : s.pushed = [] ∧ s.rest = c :: rest := by
  cases hpushed : s.pushed with
  | nil =>
    rw [stream, hpushed, List.nil_append] at hs
    exact ⟨rfl, hs⟩
  | cons d ds =>
    rw [stream, hpushed, List.cons_append] at hs
    have hd : pushable d := h.pushed d (by simp [hpushed])
    rw [(List.cons.inj hs).1] at hd
    exact absurd hd hc

end Within

/-! ### Sections of pieces -/

/-- Where the text of a section starts, if nothing that was put back is read there. -/
theorem Within.opened {opening : Char} (h : Within p pushable s) (hopening : ¬pushable opening)
    {rest : List Char} (hs : (s.skipUntilChar opening false).stream = opening :: rest) :
    Within p (fun _ => False) ((s.skipUntilChar opening false).advance 1) ∧
      ((s.skipUntilChar opening false).advance 1).rest = rest := by
  have houter : Within p pushable (s.skipUntilChar opening false) := h.readUntil _
  obtain ⟨hpushed, hrest⟩ := houter.stream_eq_rest hopening hs
  refine ⟨⟨(houter.advance 1).taken, ?_⟩, ?_⟩
  · simp [Scanner.advance, hpushed]
  · simp [Scanner.advance, hpushed, hrest]

/-- The text of a section is a piece too, and its scanner stands at the start of it. -/
theorem Within.enter {closing : Char} {body behind : List Char} (h : Within p (fun _ => False) s)
    (hclosing : closing ∈ closers) (hs : s.rest = body ++ closing :: behind) :
    ∃ q : Piece text, q.behind.head? = some closing ∧
      ∀ pushable, Within q pushable (Section.scanner ⟨body, s.position⟩) := by
  obtain ⟨taken, hinner, hposition⟩ := h.taken
  have hne : closing ≠ '\n' := by
    rintro rfl
    simp [closers] at hclosing
  -- the line feed at the end of the piece stands behind the closing delimiter
  have hprefix : taken ++ body ++ [closing] <+: p.inner := by
    refine concat_prefix_of_endLine hne ⟨behind, ?_⟩
    rw [hinner, hs]
    simp
  obtain ⟨rest, hrest⟩ := hprefix
  refine ⟨p.enter hclosing hrest, rfl, fun pushable => ⟨⟨[], ?_, ?_⟩, ?_⟩⟩
  · exact (unifyLineEnds_of_not_mem (p.enter hclosing hrest).not_mem_return).symm
  · rw [List.append_nil]
    exact hposition
  · intro c hc
    cases hc

/-! ### Readers that stay in a piece -/

/-- The errors that are reported at a place of the text. -/
def Located (text : List Char) (e : Error) : Prop := ∃ flaw position,
  e = .malformed flaw position ∧ Placed text position

/-- The errors that are not about operands. -/
def AsksNoOperand : Error → Prop
  | .malformed (.operandExpected _) _ => False
  | _ => True

/-- The errors that are reported at a place and are not about operands. -/
structure Plain (text : List Char) (e : Error) : Prop where
  located : Located text e
  asksNoOperand : AsksNoOperand e

theorem Within.plain {flaw : Flaw} (h : Within p pushable s)
    (hflaw : AsksNoOperand (.malformed flaw s.position)) : Plain text (.malformed flaw s.position) :=
  ⟨⟨flaw, _, rfl, h.placed⟩, hflaw⟩

/-- A reader was done that asks for no operands: if it failed, with an error at a place, and in any case its
scanner is still in the piece. -/
abbrev Stays {α : Type} (p : Piece text) (pushable : Char → Prop)
    (outcome : Except Error α × Scanner) : Prop :=
  Kept (Within p pushable) (Plain text) outcome

/-- A search for a section stays in the piece, and the section that it finds is a piece too. -/
theorem Within.findSection (opening closing : Char) (h : Within p pushable s)
    (hopening : ¬pushable opening) (hclosing : closing ∈ closers) :
    Stays p pushable (s.findSection opening closing) ∧
      ∀ body, (s.findSection opening closing).1 = .ok body →
        ∃ q : Piece text, q.behind.head? = some closing ∧ ∀ pushable, Within q pushable body.scanner := by
  obtain ⟨-, hfind⟩ | ⟨inner, rfl, hopen, ⟨-, hfind⟩ | ⟨body, behind, hbody, -, hfind⟩⟩ :=
    findSection_cases opening closing s
  · rw [hfind]
    exact ⟨kept_error (h.plain trivial) (h.readUntil _), fun _ hok => (by cases hok)⟩
  · obtain ⟨hinner, -⟩ := h.opened hopening hopen
    have hinner' := hinner.weaken pushable
    rw [hfind]
    exact ⟨kept_error (hinner.plain trivial) (hinner'.takeWhile _), fun _ hok => (by cases hok)⟩
  · obtain ⟨hinner, hrest⟩ := h.opened hopening hopen
    have hinner' := hinner.weaken pushable
    rw [hfind]
    refine ⟨kept_ok _ (hinner'.advance _), ?_⟩
    rintro _ ⟨⟩
    exact hinner.enter hclosing (hrest.trans hbody)

end Scanner

end TreeScript
