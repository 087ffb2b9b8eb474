import TreeScript.Proofs.Cursors
import TreeScript.Proofs.Positions

/-!
# Sections inside sections

A section is read by a scanner of its own, which has the text of the section only and starts at the place
where that text stands.  Sections can be entered inside sections, to any depth.  Each scanner on the way
down was made from a text that was read already: its line ends are unified once more, and its last line is
ended.  None of this moves a character, since the text of a section has no carriage returns, and since the
line feed that a scanner puts at its end stands behind everything that can be in a section.

- `Cursor.skip`, `Cursor.position_skip`: where a cursor stands behind some characters.
- `Nested`: a chain of sections, with the number of characters in front of the innermost one.
- `origin_of_findSection`, `Embedded.enter`: one step down.
- `position_nested`: positions in a section are those of the whole text.
-/

namespace TreeScript

open Text

namespace Cursor

/-- The cursor after a number of characters was asked for. -/
def skip : Nat → Cursor → Cursor
  | 0, c => c
  | n + 1, c => c.next.2.skip n

theorem position_skip {c : Cursor} (h : c.Sound) (n : Nat) :
    (c.skip n).position = c.position.after (c.rest.take n) := by
  induction n generalizing c with
  | zero => rfl
  | succ n ih =>
    obtain ⟨-, hscanner, hsound⟩ := mirrors_next h
    have hposition : c.next.2.position = c.position.after (c.rest.take 1) := by
      show c.next.2.scanner.position = _
      rw [hscanner]
      simp [Scanner.next, Scanner.advance, scanner]
    have hrest : c.next.2.rest = c.rest.drop 1 := by
      show c.next.2.scanner.stream = _
      rw [hscanner]
      simp [Scanner.next]
    rw [skip, ih hsound, hposition, hrest, ← Position.after_append, Nat.add_comm n 1, List.take_add]

/-- A cursor over a text counts the characters of the text with its line ends unified. -/
theorem position_skip_encode (cs : List Char) (n : Nat) :
    ((ofBytes (encode cs)).skip n).position = Position.start.after ((unifyLineEnds cs).take n) := by
  have hrest : (ofBytes (encode cs)).rest = unifyLineEnds cs := by
    show (ofBytes (encode cs)).scanner.rest = _
    rw [scanner_ofBytes, Source.ofBytes_encode]
    rfl
  rw [position_skip (sound_ofBytes _ _), hrest]
  rfl

end Cursor

namespace Scanner

/-! ### Chains of sections -/

/-- The sections of a text, entered one inside the other: the number of characters in front of the last
one, its text, and its scanner.  The whole text is the first of them.  Of each some characters are read;
what is skipped behind them has no opening delimiter. -/
inductive Nested (text : String) : Nat → List Char → Scanner → Prop
  | whole : Nested text 0 (unifyLineEnds text.toList) (.ofString text)
  | enter {start : Nat} {outer : List Char} {s : Scanner} (h : Nested text start outer s) (n : Nat)
      {opening closing : Char} {skipped rest : List Char} (hskipped : opening ∉ skipped)
      (hs : (s.advance n).stream = skipped ++ opening :: rest) {inner : List Char} {t : Scanner}
      (hread : ((s.advance n).readSection opening closing).1 = .ok inner)
      (henter : ((s.advance n).enterSection opening closing).1 = .ok t) :
      Nested text (start + n + skipped.length + 1) inner t

variable {opening closing : Char} {s t : Scanner} {cs outer : List Char} {start : Nat}

/-! ### One step down -/

theorem position_advance_touch (n : Nat) (s : Scanner) :
    (s.touch.advance n).position = (s.advance n).position := by
  simp [advance]

/-- The text of a section starts behind the first opening delimiter. -/
theorem origin_of_findSection {skipped rest : List Char} {body : Section}
    (hskipped : opening ∉ skipped) (hs : s.stream = skipped ++ opening :: rest)
    (hfind : (s.findSection opening closing).1 = .ok body) :
    body.origin = (s.advance (skipped.length + 1)).position ∧
      ∃ behind, rest = body.text ++ closing :: behind := by
  have hrun : s.stream.takeWhile (fun c => !decide (c = opening)) = skipped := by
    rw [hs]
    refine takeWhile_append_of_stop (fun c hc => ?_) (by simp)
    have hne : c ≠ opening := fun heq => hskipped (heq ▸ hc)
    simpa using hne
  have hskip : s.skipUntilChar opening false = (s.advance skipped.length).touch := by
    show (s.advance (s.stream.takeWhile _).length).touch = _
    rw [hrun]
  obtain ⟨-, hcase⟩ | ⟨inner, rfl, -, ⟨-, hcase⟩ | ⟨text, behind, htext, -, hcase⟩⟩ :=
    findSection_cases opening closing s
  · rw [hcase] at hfind
    cases hfind
  · rw [hcase] at hfind
    cases hfind
  · rw [hcase] at hfind
    obtain rfl := Except.ok.inj hfind
    rw [hskip] at htext ⊢
    refine ⟨?_, behind, ?_⟩
    · rw [position_advance_touch, advance_advance]
    · rw [← htext]
      simp [hs]

/-- A scanner for a part of a text, in front of its first character. -/
structure Embedded (cs : List Char) (start : Nat) (inner : List Char) (s : Scanner) : Prop where
  position : ∃ before behind, cs = before ++ inner ++ behind ∧ before.length = start ∧
    s.position = Position.start.after before
  pushed : s.pushed = []
  rest : s.rest = endLine inner
  not_mem_return : '\r' ∉ inner

theorem embedded_ofString (text : String) :
    Embedded (unifyLineEnds text.toList) 0 (unifyLineEnds text.toList) (.ofString text) where
  position := ⟨[], [], (List.append_nil _).symm, rfl, rfl⟩
  pushed := rfl
  rest := (endLine_unifyLineEnds text.toList).symm
  not_mem_return := not_mem_unifyLineEnds text.toList

theorem Embedded.position_advance (h : Embedded cs start outer s) {before : List Char}
    (hposition : s.position = Position.start.after before) (n : Nat) :
    (s.advance n).position = Position.start.after (before ++ (endLine outer).take n) := by
  simp [advance, h.pushed, h.rest, hposition, Position.after_append]

/-- What stands in front of a character of a text whose last line was ended stood there before. -/
theorem prefix_of_endLine_eq {front rest : List Char} {c : Char} (h : endLine cs = front ++ c :: rest) :
    front <+: cs := by
  obtain heq | heq := endLine_cases cs
  · exact ⟨c :: rest, by rw [← h, heq]⟩
  · have hprefix : front <+: cs ++ ['\n'] := ⟨c :: rest, by rw [← h, heq]⟩
    obtain rfl | hprefix := List.prefix_concat_iff.1 hprefix
    · rw [heq] at h
      simp at h
    · exact hprefix

/-- A section of a part is a part. -/
theorem Embedded.enter (h : Embedded cs start outer s) (n : Nat) {skipped rest : List Char}
    (hskipped : opening ∉ skipped) (hs : (s.advance n).stream = skipped ++ opening :: rest)
    {body : Section} (hfind : ((s.advance n).findSection opening closing).1 = .ok body) :
    Embedded cs (start + n + skipped.length + 1) body.text body.scanner := by
  obtain ⟨before, behind, htext, hlength, hposition⟩ := h.position
  obtain ⟨horigin, tail, rfl⟩ := origin_of_findSection hskipped hs hfind
  have hstream : s.stream = endLine outer := by
    rw [stream, h.pushed, h.rest, List.nil_append]
  rw [stream_advance, hstream] at hs
  have hn : n ≤ (endLine outer).length := by
    refine Nat.le_of_not_lt fun hlt => ?_
    rw [List.drop_eq_nil_of_le (Nat.le_of_lt hlt)] at hs
    simp at hs
  -- the characters that are read, the skipped ones and the delimiter, and behind them the section
  obtain ⟨front, hfront, hlead⟩ : ∃ front, front.length = n ∧
      endLine outer = (front ++ skipped ++ [opening] ++ body.text) ++ closing :: tail := by
    refine ⟨(endLine outer).take n, List.length_take_of_le hn, ?_⟩
    conv_lhs => rw [← List.take_append_drop n (endLine outer), hs]
    simp
  obtain ⟨more, hmore⟩ := prefix_of_endLine_eq hlead
  have hreturn : '\r' ∉ body.text := fun hmem => h.not_mem_return (by simp [← hmore, hmem])
  refine ⟨⟨before ++ (front ++ skipped ++ [opening]), more ++ behind, ?_, ?_, ?_⟩, rfl,
    unifyLineEnds_of_not_mem hreturn, hreturn⟩
  · rw [htext, ← hmore]
    simp only [List.append_assoc]
  · simp only [List.length_append, List.length_singleton, hlength, hfront]
    omega
  · show body.origin = _
    have hlength : n + (skipped.length + 1) = (front ++ skipped ++ [opening]).length := by
      simp [hfront]
    rw [horigin, advance_advance, h.position_advance hposition, hlead, hlength, List.append_assoc _ body.text,
      List.take_left]

theorem Nested.embedded {text : String} {inner : List Char} (h : Nested text start inner s) :
    Embedded (unifyLineEnds text.toList) start inner s := by
  induction h with
  | whole => exact embedded_ofString text
  | @enter start outer s h n opening closing skipped rest hskipped hs inner t hread henter ih =>
    cases hfind : ((s.advance n).findSection opening closing).1 with
    | error e => simp [readSection, hfind, Except.map] at hread
    | ok body =>
      obtain rfl : body.text = inner := by simpa [readSection, hfind, Except.map] using hread
      obtain rfl : body.scanner = t := by simpa [enterSection, hfind, Except.map] using henter
      exact ih.enter n hskipped hs hfind

/-! ### Positions in sections -/

/-- **Sections keep the positions of the text.**  However deep a section is, its text is a part of the
whole text, and a scanner that has read some of its characters stands where a cursor over the whole text
stands that has read everything up to the last one of them. -/
theorem position_nested {text : String} {inner : List Char} (h : Nested text start inner s) :
    inner = ((unifyLineEnds text.toList).drop start).take inner.length ∧ inner <+: s.stream ∧
      ∀ k ≤ inner.length, (s.advance k).position =
        ((Cursor.ofBytes (encode text.toList)).skip (start + k)).position := by
  have hembedded := h.embedded
  obtain ⟨before, behind, htext, rfl, hposition⟩ := hembedded.position
  have hprefix : inner <+: endLine inner := by
    obtain heq | heq := endLine_cases inner
    · exact ⟨[], by rw [heq, List.append_nil]⟩
    · exact ⟨['\n'], heq.symm⟩
  refine ⟨?_, ?_, fun k hk => ?_⟩
  · rw [htext]
    simp
  · rw [stream, hembedded.pushed, hembedded.rest]
    exact hprefix
  · obtain ⟨more, hmore⟩ := hprefix
    rw [Cursor.position_skip_encode, hembedded.position_advance hposition, htext,
      ← hmore, List.take_append_of_le_length hk, List.append_assoc, List.take_length_add_append,
      List.take_append_of_le_length hk]

theorem position_nested_sample :
    let text := "é (a\r\n[ü(b)])"
    let s := ofChars ['b'] ⟨2, 4, 10⟩
    Nested text 8 ['b'] s ∧ (s.advance 1).position = ⟨2, 5, 11⟩ ∧
      (s.advance 1).position = ((Cursor.ofBytes (encode text.toList)).skip 9).position := by
  intro text s
  let outer : Scanner := ofChars "a\n[ü(b)]".toList ⟨1, 4, 4⟩
  let middle : Scanner := ofChars "ü(b)".toList ⟨2, 2, 7⟩
  have houter : Nested text 3 "a\n[ü(b)]".toList outer := by
    have hs : ((ofString text).advance 1).stream = [' '] ++ '(' :: "a\n[ü(b)])\n".toList := by
      decide +kernel
    have henter : (((ofString text).advance 1).enterSection '(' ')').1 = .ok outer := by
      decide +kernel
    exact .enter .whole 1 (by decide) hs (by decide +kernel) henter
  have hmiddle : Nested text 6 "ü(b)".toList middle := by
    have hs : (outer.advance 1).stream = ['\n'] ++ '[' :: "ü(b)]\n".toList := by decide +kernel
    have henter : ((outer.advance 1).enterSection '[' ']').1 = .ok middle := by decide +kernel
    exact .enter houter 1 (by decide) hs (by decide +kernel) henter
  have hinner : Nested text 8 ['b'] s := by
    have hs : (middle.advance 0).stream = ['ü'] ++ '(' :: "b)\n".toList := by decide +kernel
    have henter : ((middle.advance 0).enterSection '(' ')').1 = .ok s := by decide +kernel
    exact .enter hmiddle 0 (by decide) hs (by decide +kernel) henter
  obtain ⟨-, -, hposition⟩ := position_nested hinner
  exact ⟨hinner, by decide, hposition 1 (by decide)⟩

end Scanner

end TreeScript
