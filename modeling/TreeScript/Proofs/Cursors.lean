import TreeScript.Proofs.Encoding
import TreeScript.Proofs.Scanner
import TreeScript.Scanner.Cursor

/-!
# Cursors and scanners

A cursor has a line at hand, others in a queue, and the rest of its source in bytes; a scanner has the
characters.  The two are the same reader: what a cursor is still going to read is a text, and with its
place and what it knows of damage this makes a scanner.  Whatever a cursor does to itself, the scanner's
own operation does to that scanner, with the same result.

- `ended_innerLines_append`, `ended_innerLines`: the lines in one line of a source.
- `Cursor.scanner`, `Cursor.Sound`: the scanner that a cursor stands for.
- `scanner_fill`, `scanner_fill_of_end`: fetching lines, the one thing that a scanner does not do.
- `Mirrors`, `mirrors_peek`, `mirrors_next` and so on: the operations.
-/

namespace TreeScript

namespace Text

/-! ### The lines in a line -/

/-- Lines in a row, each with a line feed behind it. -/
def ended (lines : List (List Char)) : List Char := lines.flatMap (· ++ ['\n'])

@[simp] theorem ended_nil : ended [] = [] := rfl

@[simp] theorem ended_cons (line : List Char) (lines : List (List Char)) :
    ended (line :: lines) = line ++ '\n' :: ended lines := by
  simp [ended]

/-- A character as it is seen where it ends no line with another one. -/
def asFeed (c : Char) : Char := if c = '\r' then '\n' else c

theorem ended_splitOn (cs : List Char) :
    ended (cs.splitOn '\r') = cs.map asFeed ++ ['\n'] := by
  induction cs with
  | nil => rfl
  | cons c cs ih =>
    rw [List.splitOn_cons_eq_if_modifyHead]
    by_cases hc : c = '\r'
    · subst hc
      rw [if_pos (by decide), ended_cons, ih]
      rfl
    · obtain ⟨first, others, hsplit⟩ := List.exists_cons_of_ne_nil (List.splitOn_ne_nil '\r' cs)
      rw [hsplit] at ih ⊢
      rw [if_neg (by simpa using hc), List.modifyHead_cons, ended_cons, List.cons_append,
        ← ended_cons, ih, List.map_cons, asFeed, if_neg hc, List.cons_append]

/-- Without line feeds there are no pairs. -/
theorem lineFeeds_eq_map {cs : List Char} (h : '\n' ∉ cs) : lineFeeds cs = cs.map asFeed := by
  induction cs with
  | nil => rfl
  | cons c cs ih =>
    have hcs : '\n' ∉ cs := fun hmem => h (List.mem_cons_of_mem _ hmem)
    by_cases hc : c = '\r'
    · subst hc
      have hhead : cs.head? ≠ some '\n' := fun heq => hcs (List.mem_of_mem_head? heq)
      rw [lineFeeds_cons_return hhead, ih hcs]
      rfl
    · rw [lineFeeds_cons_of_ne hc, ih hcs, List.map_cons, asFeed, if_neg hc]

/-- A line feed, and a carriage return in front of it, are one line end. -/
theorem lineFeeds_append_lineFeed {body : List Char} (h : '\n' ∉ body) (rest : List Char) :
    lineFeeds (body ++ '\n' :: rest) =
      (dropEnd '\r' body).map asFeed ++ '\n' :: lineFeeds rest := by
  have hfeed : lineFeeds ('\n' :: rest) = '\n' :: lineFeeds rest :=
    lineFeeds_cons_of_ne (by decide) rest
  rcases List.eq_nil_or_concat' body with rfl | ⟨front, c, rfl⟩
  · exact hfeed
  · have hfront : '\n' ∉ front := fun hmem => h (List.mem_append_left _ hmem)
    have hc : c ≠ '\n' := fun heq => h (by simp [heq])
    have hhead : (c :: '\n' :: rest).head? ≠ some '\n' := fun heq => hc (Option.some.inj heq)
    rw [List.append_assoc, List.singleton_append, lineFeeds_append_of_head? hhead,
      lineFeeds_eq_map hfront]
    by_cases hreturn : c = '\r'
    · subst hreturn
      simp [dropEnd]
    · rw [lineFeeds_cons_of_ne hreturn, hfeed]
      simp [dropEnd, hreturn, asFeed]

theorem endLine_append_lineFeed_cons (cs ds : List Char) :
    endLine (cs ++ '\n' :: ds) = cs ++ '\n' :: endLine ds := by
  cases ds with
  | nil => rw [endLine_append_lineFeed]; rfl
  | cons d ds => by_cases h : (d :: ds).getLast? = some '\n' <;> simp [endLine, h]

theorem innerLines_append_lineFeed (body : List Char) :
    innerLines (body ++ ['\n']) = (dropEnd '\r' body).splitOn '\r' := by
  simp [innerLines, dropEnd]

theorem innerLines_of_not_mem {body : List Char} (h : '\n' ∉ body) :
    innerLines body = (dropEnd '\r' body).splitOn '\r' := by
  have hlast : body.getLast? ≠ some '\n' := fun heq => h (List.mem_of_getLast? heq)
  rw [innerLines, dropEnd.eq_def '\n', if_neg hlast]

/-- What a line with an end of its own is seen as, in front of others. -/
theorem ended_innerLines_append {body : List Char} (h : '\n' ∉ body) (rest : List Char) :
    unifyLineEnds (body ++ '\n' :: rest) =
      ended (innerLines (body ++ ['\n'])) ++ unifyLineEnds rest := by
  rw [unifyLineEnds_eq, unifyLineEnds_eq, lineFeeds_append_lineFeed h, endLine_append_lineFeed_cons,
    innerLines_append_lineFeed, ended_splitOn, List.append_assoc, List.singleton_append]

/-- What a last line without an end is seen as. -/
theorem ended_innerLines {body : List Char} (hne : body ≠ []) (h : '\n' ∉ body) :
    unifyLineEnds body = ended (innerLines body) := by
  rw [unifyLineEnds_eq, lineFeeds_eq_map h, innerLines_of_not_mem h, ended_splitOn]
  obtain ⟨front, c, rfl⟩ := (List.eq_nil_or_concat' body).resolve_left hne
  have hc : c ≠ '\n' := fun heq => h (by simp [heq])
  by_cases hreturn : c = '\r'
  · subst hreturn
    simp [dropEnd, asFeed, endLine]
  · simp [dropEnd, hreturn, asFeed, endLine, hc]

theorem exists_of_encode_eq_append {cs : List Char} {body : List UInt8}
    (h : encode cs = body ++ [10]) : ∃ front, cs = front ++ ['\n'] ∧ encode front = body := by
  rcases List.eq_nil_or_concat' cs with rfl | ⟨front, c, rfl⟩
  · simp at h
  · obtain ⟨bytes, b, hbytes⟩ := (List.eq_nil_or_concat' (String.utf8EncodeChar c)).resolve_left
      String.utf8EncodeChar_ne_nil
    have hlast : encode front ++ (bytes ++ [b]) = body ++ [10] := by
      rw [← h, encode_append, ← hbytes]
      simp
    rw [← List.append_assoc] at hlast
    obtain ⟨hbody, hb⟩ := List.append_inj' hlast rfl
    have hb : b = 10 := List.singleton_inj.1 hb
    have hfeed : c = '\n' := eq_lineFeed_of_mem (by simp [hbytes, hb])
    subst hfeed
    refine ⟨front, rfl, ?_⟩
    have hnil : bytes = [] := by
      have hlength := congrArg List.length hbytes
      rw [List.length_append] at hlength
      exact List.length_eq_zero_iff.1 (Nat.succ.inj hlength.symm)
    rwa [hnil, List.append_nil] at hbody

/-- The first line of a source is seen as the lines in it, in front of what the others are seen as. -/
theorem unifyLineEnds_append_of_isFirstLine {line rest : List UInt8} {cs : List Char}
    (h : IsFirstLine (· = 10) line rest) (hdecode : Source.decodeLine? line = some cs) :
    unifyLineEnds (cs ++ (Source.ofBytes rest).text) =
      ended (innerLines cs) ++ unifyLineEnds (Source.ofBytes rest).text := by
  have hencode := decodeLine?_eq_some_iff.1 hdecode
  have hfeed : ∀ {bytes : List UInt8} {ds : List Char}, (∀ b ∈ bytes, decide (b = 10) = false) →
      encode ds = bytes → '\n' ∉ ds := by
    rintro bytes ds hbytes rfl hmem
    simpa using hbytes 10 (lineFeed_mem_encode_iff.2 hmem)
  cases h with
  | ended body e hline he hbody =>
    have he : e = 10 := of_decide_eq_true he
    rw [hline, he] at hencode
    obtain ⟨front, rfl, hfront⟩ := exists_of_encode_eq_append hencode.symm
    rw [List.append_assoc, List.singleton_append]
    exact ended_innerLines_append (hfeed hbody hfront) _
  | last hne hline hrest =>
    subst hrest
    have hcs : cs ≠ [] := by
      rintro rfl
      exact hne hencode
    show unifyLineEnds (cs ++ []) = ended (innerLines cs) ++ unifyLineEnds []
    rw [List.append_nil, ended_innerLines hcs (hfeed hline hencode.symm)]
    simp [unifyLineEnds]

end Text

/-! ### The scanner of a cursor -/

namespace Cursor

open Text

variable {c d : Cursor}

/-- The characters that a cursor is still going to read. -/
def rest (c : Cursor) : List Char :=
  ended (c.line.toList ++ c.queued) ++
    if c.finished then [] else unifyLineEnds (Source.ofLines c.lines).text

/-- What a cursor knows of damage. -/
def fault (c : Cursor) : Fault :=
  if c.failed then .met
  else if !c.finished && (Source.ofLines c.lines).damaged then .ahead
  else .absent

/-- The scanner that sees what a cursor sees. -/
def scanner (c : Cursor) : Scanner := ⟨[], c.rest, c.position, c.fault⟩

/-- The source is cut into lines, and it is left alone when it has failed. -/
structure Sound (c : Cursor) : Prop where
  lines : ∃ bytes, c.lines = splitLines (· = 10) bytes
  finished : c.failed = true → c.finished = true

theorem sound_ofBytes (bytes : List UInt8) (origin : Position) : (ofBytes bytes origin).Sound :=
  ⟨⟨bytes, rfl⟩, fun h => nomatch (show false = true from h)⟩

theorem scanner_ofBytes (bytes : List UInt8) (origin : Position) :
    (ofBytes bytes origin).scanner = .ofSource (.ofBytes bytes) origin := by
  simp only [scanner, Scanner.ofSource, Source.ofBytes_eq]
  rfl

@[simp] theorem stream_scanner (c : Cursor) : c.scanner.stream = c.rest := rfl

/-- A line that comes from the source was ahead. -/
theorem scanner_fetch (h : c.Sound) (hline : c.line = none) (hqueued : c.queued = [])
    (hfinished : c.finished = false) (hfetch : c.fetch = (true, d)) :
    d.Sound ∧ d.line.isSome = true ∧ d.scanner = c.scanner := by
  obtain ⟨bytes, hlines⟩ := h.lines
  cases hsource : c.lines with
  | nil =>
    simp [fetch, hsource] at hfetch
  | cons line lines =>
    obtain ⟨rest, -, hrest, hfirst⟩ := isFirstLine_of_splitLines (hlines.symm.trans hsource)
    cases hdecode : Source.decodeLine? line with
    | none => simp [fetch, hsource, hdecode] at hfetch
    | some cs =>
      obtain ⟨first, others, hinner⟩ := List.exists_cons_of_ne_nil
        (List.splitOn_ne_nil '\r' (dropEnd '\r' (dropEnd '\n' cs)))
      have hinner : innerLines cs = first :: others := hinner
      simp only [fetch, hsource, hdecode, hinner, Prod.mk.injEq, true_and] at hfetch
      subst hfetch
      refine ⟨⟨⟨rest, hrest⟩, h.finished⟩, rfl, ?_⟩
      have htext : unifyLineEnds (Source.ofLines c.lines).text =
          ended (first :: others) ++ unifyLineEnds (Source.ofLines lines).text := by
        rw [hsource, Source.ofLines_cons_some hdecode, hrest, ← Source.ofBytes_eq,
          unifyLineEnds_append_of_isFirstLine hfirst hdecode, hinner]
      have hdamaged : (Source.ofLines c.lines).damaged = (Source.ofLines lines).damaged := by
        rw [hsource, Source.ofLines_cons_some hdecode]
      simp only [scanner, Cursor.rest, fault, hline, hqueued, hfinished, htext, hdamaged]
      rfl

/-- Where no line comes from the source, there is nothing ahead, and damage shows. -/
theorem scanner_fetch_of_end (h : c.Sound) (hline : c.line = none) (hqueued : c.queued = [])
    (hfinished : c.finished = false) (hfetch : c.fetch = (false, d)) :
    d.Sound ∧ c.rest = [] ∧ d.scanner = c.scanner.touch := by
  have hfailed : c.failed = false := by
    cases hc : c.failed with
    | false => rfl
    | true => rw [h.finished hc] at hfinished; cases hfinished
  cases hsource : c.lines with
  | nil =>
    simp only [fetch, hsource, Prod.mk.injEq, true_and] at hfetch
    subst hfetch
    have hrest : c.rest = [] := by simp [Cursor.rest, hline, hqueued, hsource, unifyLineEnds]
    refine ⟨⟨⟨[], rfl⟩, fun _ => rfl⟩, hrest, ?_⟩
    simp [scanner, Cursor.rest, fault, Scanner.touch, Scanner.stream, hline, hqueued, hsource,
      hfailed, unifyLineEnds]
  | cons line lines =>
    obtain ⟨bytes, hlines⟩ := h.lines
    obtain ⟨rest, -, hothers, -⟩ := isFirstLine_of_splitLines (hlines.symm.trans hsource)
    cases hdecode : Source.decodeLine? line with
    | some cs => simp [fetch, hsource, hdecode] at hfetch
    | none =>
      simp only [fetch, hsource, hdecode, Prod.mk.injEq, true_and] at hfetch
      subst hfetch
      have hsource' : Source.ofLines c.lines = ⟨[], true⟩ := by
        rw [hsource, Source.ofLines_cons_none hdecode]
      have hrest : c.rest = [] := by simp [Cursor.rest, hline, hqueued, hsource', unifyLineEnds]
      refine ⟨⟨⟨rest, hothers⟩, fun _ => rfl⟩, hrest, ?_⟩
      simp [scanner, Cursor.rest, fault, Scanner.touch, Scanner.stream, hline, hqueued, hsource',
        hfailed, hfinished, unifyLineEnds]

/-- To have a line at hand changes nothing that a scanner would see. -/
theorem scanner_fill (h : c.Sound) (hfill : c.fill = (true, d)) :
    d.Sound ∧ d.line.isSome = true ∧ d.scanner = c.scanner := by
  unfold fill at hfill
  split at hfill
  · next line hline =>
    obtain ⟨-, rfl⟩ := Prod.mk.inj hfill
    exact ⟨h, by rw [hline]; rfl, rfl⟩
  · next line queued hline hqueued =>
    obtain ⟨-, rfl⟩ := Prod.mk.inj hfill
    refine ⟨⟨h.lines, h.finished⟩, rfl, ?_⟩
    simp [scanner, Cursor.rest, fault, hline, hqueued]
  · next hline hqueued =>
    split at hfill
    · cases hfill
    · next hfinished =>
      exact scanner_fetch h hline hqueued (Bool.eq_false_iff.2 hfinished) hfill

/-- Where there is no line to have at hand, a scanner would be at the end of its text. -/
theorem scanner_fill_of_end (h : c.Sound) (hfill : c.fill = (false, d)) :
    d.Sound ∧ c.rest = [] ∧ d.scanner = c.scanner.touch := by
  unfold fill at hfill
  split at hfill
  · cases hfill
  · cases hfill
  · next hline hqueued =>
    split at hfill
    · next hfinished =>
      obtain ⟨-, rfl⟩ := Prod.mk.inj hfill
      have hrest : c.rest = [] := by simp [Cursor.rest, hline, hqueued, hfinished]
      refine ⟨h, hrest, ?_⟩
      have hfault : c.fault ≠ .ahead := by
        unfold fault
        split
        · exact nofun
        · simp [hfinished]
      rw [Scanner.touch, if_neg (by simp [scanner, hfault])]
    · next hfinished =>
      exact scanner_fetch_of_end h hline hqueued (Bool.eq_false_iff.2 hfinished) hfill

/-! ### Readers of a cursor -/

/-- A reader has done to a cursor what another one has done to its scanner. -/
structure Mirrors {α : Type} (x : α × Cursor) (y : α × Scanner) : Prop where
  result : x.1 = y.1
  scanner : x.2.scanner = y.2
  sound : x.2.Sound

theorem rest_of_line {line : List Char} (h : c.line = some line) :
    c.rest = line ++ '\n' :: { c with line := none }.rest := by
  simp [Cursor.rest, h]

theorem mirrors_peek (h : c.Sound) : Mirrors c.peek c.scanner.peek := by
  rcases hfill : c.fill with ⟨found, d⟩
  cases found with
  | true =>
    obtain ⟨hd, hline, hsame⟩ := scanner_fill h hfill
    obtain ⟨line, hline⟩ := Option.isSome_iff_exists.1 hline
    have hrest : c.rest = line ++ '\n' :: { d with line := none }.rest := by
      rw [← rest_of_line hline]
      exact congrArg Scanner.rest hsame.symm
    have hne : c.scanner.stream ≠ [] := by simp [hrest]
    constructor
    · simp only [peek, hfill, hline, Scanner.peek, stream_scanner, hrest]
      cases line <;> rfl
    · simp only [peek, hfill, Scanner.peek, Scanner.touch_of_stream_ne_nil hne, hsame]
    · simp only [peek, hfill, hd]
  | false =>
    obtain ⟨hd, hrest, hsame⟩ := scanner_fill_of_end h hfill
    constructor
    · simp [peek, hfill, Scanner.peek, hrest]
    · simp only [peek, hfill, Scanner.peek, hsame]
    · simp only [peek, hfill, hd]

/-- A character that was looked at is the first one of the line at hand, or the line feed behind it. -/
theorem line_of_peek (h : c.Sound) {ch : Char} (hpeek : c.peek = (some ch, d)) :
    ∃ line, d.line = some line ∧ ch = line.headD '\n' := by
  rcases hfill : c.fill with ⟨found, e⟩
  cases found with
  | true =>
    obtain ⟨-, hline, -⟩ := scanner_fill h hfill
    obtain ⟨line, hline⟩ := Option.isSome_iff_exists.1 hline
    simp only [peek, hfill, hline, Option.getD_some, Prod.mk.injEq, Option.some.injEq] at hpeek
    obtain ⟨rfl, rfl⟩ := hpeek
    exact ⟨line, hline, rfl⟩
  | false => simp [peek, hfill] at hpeek

/-- What is read goes out of the line at hand, or is the line feed behind it. -/
theorem scanner_advance {line : List Char} (h : c.line = some line) :
    { c with
      line := if line.isEmpty then none else some line.tail
      position := c.position.step (line.headD '\n') }.scanner = c.scanner.advance 1 := by
  cases line with
  | nil => simp [scanner, Scanner.advance, Cursor.rest, fault, h]
  | cons ch line => simp [scanner, Scanner.advance, Cursor.rest, fault, h]

theorem mirrors_next (h : c.Sound) : Mirrors c.next c.scanner.next := by
  obtain ⟨hfound, hsame, hd⟩ := mirrors_peek h
  rcases hpeek : c.peek with ⟨found, d⟩
  rw [hpeek] at hfound hsame hd
  cases found with
  | none =>
    have hrest : c.scanner.touch.stream = [] := by
      rw [Scanner.stream_touch, ← List.head?_eq_none_iff]
      exact hfound.symm
    constructor
    · simp only [next, hpeek]
      exact hfound
    · simp only [next, hpeek, Scanner.next, Scanner.advance_of_stream_nil hrest]
      exact hsame
    · simp only [next, hpeek, hd]
  | some ch =>
    obtain ⟨line, hline, rfl⟩ := line_of_peek h hpeek
    constructor
    · simp only [next, hpeek]
      exact hfound
    · simp only [next, hpeek, hline, Option.getD_some, scanner_advance hline, Scanner.next]
      rw [hsame]
      rfl
    · simp only [next, hpeek]
      exact ⟨hd.lines, hd.finished⟩

/-- To look changes no more than to look at the next character. -/
theorem Mirrors.of_peek {α : Type} (h : c.Sound) (f : Option Char → α) :
    Mirrors (f c.peek.1, c.peek.2) (f c.scanner.stream.head?, c.scanner.touch) := by
  obtain ⟨hfound, hsame, hd⟩ := mirrors_peek h
  exact ⟨congrArg f hfound, hsame, hd⟩

theorem mirrors_isAtEnd (h : c.Sound) : Mirrors c.isAtEnd c.scanner.isAtEnd := by
  have hempty : c.scanner.isAtEnd = (c.scanner.stream.head?.isNone, c.scanner.touch) := by
    rw [Scanner.isAtEnd]
    cases c.scanner.stream <;> rfl
  rw [hempty]
  exact Mirrors.of_peek h Option.isNone

theorem mirrors_check (h : c.Sound) (ch : Char) : Mirrors (c.check ch) (c.scanner.check ch) :=
  Mirrors.of_peek h fun found => decide (found = some ch)

theorem mirrors_checkAny (h : c.Sound) (set : List Char) :
    Mirrors (c.checkAny set) (c.scanner.checkAny set) :=
  Mirrors.of_peek h fun found => found.any (· ∈ set)

theorem mirrors_accept (h : c.Sound) (ch : Char) : Mirrors (c.accept ch) (c.scanner.accept ch) := by
  obtain ⟨hfound, hsame, hd⟩ := mirrors_check h ch
  rcases hcheck : c.check ch with ⟨found, d⟩
  rw [hcheck] at hfound hsame hd
  have hfound : found = decide (c.scanner.stream.head? = some ch) := hfound
  by_cases hnext : c.scanner.stream.head? = some ch
  · have hne : c.scanner.stream ≠ [] := by
      rintro hnil
      simp [hnil] at hnext
    obtain rfl : found = true := by rw [hfound, decide_eq_true hnext]
    obtain ⟨-, hread, hsound⟩ := mirrors_next hd
    constructor
    · simp only [accept, hcheck, Scanner.accept, if_pos hnext]
    · simp only [accept, hcheck, Scanner.accept, if_pos hnext]
      rw [hread, hsame]
      show c.scanner.touch.touch.advance 1 = c.scanner.advance 1
      simp only [Scanner.touch_of_stream_ne_nil hne]
    · simp only [accept, hcheck, hsound]
  · obtain rfl : found = false := by rw [hfound, decide_eq_false hnext]
    constructor
    · simp only [accept, hcheck, Scanner.accept, if_neg hnext]
    · simp only [accept, hcheck, Scanner.accept, if_neg hnext]
      exact hsame
    · simp only [accept, hcheck, hd]

/-- A failure is told of once, and there is nothing to read behind it. -/
theorem mirrors_takeFault (h : c.Sound) : Mirrors c.takeFault c.scanner.takeFault := by
  cases hfailed : c.failed with
  | true =>
    have hmet : c.scanner.fault = .met := by simp [scanner, fault, hfailed]
    constructor
    · simp [takeFault, Scanner.takeFault, hfailed, hmet]
    · simp [takeFault, Scanner.takeFault, hfailed, scanner, fault, Cursor.rest, h.finished hfailed]
    · simp only [takeFault, hfailed, if_true]
      exact ⟨h.lines, fun _ => h.finished hfailed⟩
  | false =>
    have hmet : c.scanner.fault ≠ .met := by
      simp only [scanner, fault, hfailed, Bool.false_eq_true, if_false]
      split <;> simp
    constructor
    · simp [takeFault, Scanner.takeFault, hfailed, hmet]
    · simp [takeFault, Scanner.takeFault, hfailed, hmet]
    · simp only [takeFault, hfailed, Bool.false_eq_true, if_false, h]

end Cursor

end TreeScript
