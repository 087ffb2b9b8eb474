import TreeScript.Proofs.Cursors
import TreeScript.Procedure.Reader

/-!
# What a reader of characters can learn

Whoever reads a text asks a cursor for characters, one question after the other.  The questions and the
answers to them are a log.  The log tells which characters were read, whether someone looked for a
character behind the last one, and whether a failure was reported; and this determines the next answer,
to whatever question.

A cursor and the scanner that it stands for give the same answers.  So it is enough to follow a scanner:
the characters in its log and those that it still has are the whole text, and damage shows once its end
was reached, and once only.

- `Query`, `Answer`, `Log`, `play`: questions, answers and logs.
- `Reads`: what the log says of the next answer.
- `Scanner.Follows`, `Follows.answer`, `Follows.play`: a scanner, question by question.
- `Parser`: a reader that chooses its questions by the answers to earlier ones.
- `Cursor.reads_unified`: what is read from a source of bytes, and that nothing else of it matters.
-/

namespace TreeScript

/-! ### Questions and logs -/

/-- What a reader of characters can be asked. -/
inductive Query where
  /-- The next character, which stays in the text. -/
  | peek
  /-- The next character, which is read. -/
  | next
  /-- Whether the text is over. -/
  | isAtEnd
  /-- Whether a given character is next. -/
  | check (c : Char)
  /-- Whether the next character is one of a list. -/
  | checkAny (set : List Char)
  /-- To read a given character if it is next, and whether it was. -/
  | accept (c : Char)
  /-- A failure of the source that was not reported. -/
  | takeFault
  /-- The place behind the characters that were read. -/
  | position
deriving DecidableEq, Repr

/-- What a reader of characters can answer. -/
inductive Answer where
  | character (c : Option Char)
  | truth (b : Bool)
  | report (message : Option String)
  | place (p : Position)
deriving DecidableEq, Repr

namespace Query

/-- Whether a question is about the next character. -/
def looks : Query → Bool
  | takeFault | position => false
  | _ => true

/-- The number of characters that a question reads in front of some text. -/
def width (ahead : List Char) : Query → Nat
  | next => 1
  | accept c => if ahead.head? = some c then 1 else 0
  | _ => 0

/-- The answer to a question in front of some text, at a place, where a failure can be reported. -/
def answerAt (ahead : List Char) (place : Position) (failure : Option String) : Query → Answer
  | peek | next => .character ahead.head?
  | isAtEnd => .truth ahead.isEmpty
  | check c | accept c => .truth (ahead.head? = some c)
  | checkAny set => .truth (ahead.head?.any (· ∈ set))
  | takeFault => .report failure
  | position => .place place

end Query

/-- Questions, each with its answer. -/
abbrev Log := List (Query × Answer)

/-- Asks questions one after the other. -/
def play {σ : Type} (answer : Query → σ → Answer × σ) : List Query → σ → Log × σ
  | [], s => ([], s)
  | q :: queries, s =>
    ((q, (answer q s).1) :: (play answer queries (answer q s).2).1,
      (play answer queries (answer q s).2).2)

namespace Log

/-- The characters that were read. -/
def read (log : Log) : List Char :=
  log.flatMap fun
    | (.next, .character (some c)) => [c]
    | (.accept c, .truth true) => [c]
    | _ => []

/-- Someone looked for a character when the whole text was read. -/
def ReachedEnd (whole : List Char) (log : Log) : Prop :=
  ∃ seen q a unseen, log = seen ++ (q, a) :: unseen ∧ q.looks = true ∧ read seen = whole

/-- A failure was reported. -/
def Reported (log : Log) : Prop := ∃ message, (.takeFault, .report (some message)) ∈ log

variable {log : Log} {whole : List Char} {q : Query} {a : Answer}

@[simp] theorem read_append (log more : Log) : read (log ++ more) = read log ++ read more :=
  List.flatMap_append

theorem read_singleton (ahead : List Char) (place : Position) (failure : Option String) (q : Query) :
    read [(q, q.answerAt ahead place failure)] = ahead.take (q.width ahead) := by
  cases q with
  | next => cases ahead <;> rfl
  | accept c =>
    cases ahead with
    | nil => rfl
    | cons d ds =>
      by_cases hd : d = c
      · simp [read, Query.answerAt, Query.width, hd]
      · simp [read, Query.answerAt, Query.width, hd]
  | _ => rfl

theorem not_reachedEnd_nil : ¬ReachedEnd whole [] := by
  rintro ⟨seen, q, a, unseen, h, -⟩
  simp at h

theorem not_reported_nil : ¬Reported [] := by
  rintro ⟨message, h⟩
  cases h

theorem reachedEnd_concat :
    ReachedEnd whole (log ++ [(q, a)]) ↔
      ReachedEnd whole log ∨ q.looks = true ∧ read log = whole := by
  constructor
  · rintro ⟨seen, q', a', unseen, hlog, hlooks, hread⟩
    rcases List.eq_nil_or_concat' unseen with rfl | ⟨unseen, last, rfl⟩
    · obtain ⟨rfl, hlast⟩ := List.append_inj' hlog rfl
      obtain ⟨rfl, -⟩ := Prod.mk.inj (List.singleton_inj.1 hlast)
      exact .inr ⟨hlooks, hread⟩
    · rw [← List.cons_append, ← List.append_assoc] at hlog
      exact .inl ⟨seen, q', a', unseen, (List.append_inj' hlog rfl).1, hlooks, hread⟩
  · rintro (⟨seen, q', a', unseen, rfl, hlooks, hread⟩ | ⟨hlooks, hread⟩)
    · exact ⟨seen, q', a', unseen ++ [(q, a)], by simp, hlooks, hread⟩
    · exact ⟨log, q, a, [], rfl, hlooks, hread⟩

theorem reachedEnd_concat_of_not (hlooks : q.looks = false) :
    ReachedEnd whole (log ++ [(q, a)]) ↔ ReachedEnd whole log := by
  rw [reachedEnd_concat, or_iff_left]
  rintro ⟨hlooks', -⟩
  rw [hlooks] at hlooks'
  cases hlooks'

theorem read_concat_of_not (hlooks : q.looks = false) : read (log ++ [(q, a)]) = read log := by
  have hnone : read [(q, a)] = [] := by cases q <;> first | rfl | cases hlooks
  rw [read_append, hnone, List.append_nil]

theorem reported_concat :
    Reported (log ++ [(q, a)]) ↔
      Reported log ∨ ∃ message, q = .takeFault ∧ a = .report (some message) := by
  simp only [Reported, List.mem_append, List.mem_singleton, Prod.mk.injEq, exists_or, eq_comm]

theorem reported_concat_of_looks (hlooks : q.looks = true) :
    Reported (log ++ [(q, a)]) ↔ Reported log := by
  rw [reported_concat, or_iff_left]
  rintro ⟨message, rfl, -⟩
  cases hlooks

end Log

/-- What is true of a reader of a whole text after some questions.  The characters that it has read and
those that are ahead are the whole text; its position counts those that it has read; and if there is
damage behind the text, a failure can be reported when someone looked for a character there, unless it
was reported before. -/
structure Reads (whole : List Char) (damaged : Prop) (origin : Position) (log : Log)
    (answer : Query → Answer) (ahead : List Char) (failure : Option String) : Prop where
  read : log.read ++ ahead = whole
  answer : ∀ q, answer q = q.answerAt ahead (origin.after log.read) failure
  due : damaged ∧ log.ReachedEnd whole ∧ ¬log.Reported → failure = some Source.damage
  quiet : ¬(damaged ∧ log.ReachedEnd whole ∧ ¬log.Reported) → failure = none

/-! ### Scanners -/

namespace Scanner

open Text

/-- Answers a question. -/
def answer (q : Query) (s : Scanner) : Answer × Scanner :=
  match q with
  | .peek => s.peek.map .character id
  | .next => s.next.map .character id
  | .isAtEnd => s.isAtEnd.map .truth id
  | .check c => (s.check c).map .truth id
  | .checkAny set => (s.checkAny set).map .truth id
  | .accept c => (s.accept c).map .truth id
  | .takeFault => s.takeFault.map .report id
  | .position => (.place s.position, s)

variable {s : Scanner} {whole : List Char} {damaged : Prop} {origin : Position} {log : Log}

theorem fst_answer (q : Query) (s : Scanner) :
    (s.answer q).1 = q.answerAt s.stream s.position s.takeFault.1 := by
  cases q with
  | accept c =>
    show Answer.truth (s.accept c).1 = .truth (decide (s.stream.head? = some c))
    by_cases hc : s.stream.head? = some c
    · rw [accept, if_pos hc, decide_eq_true hc]
    · rw [accept, if_neg hc, decide_eq_false hc]
  | _ => rfl

theorem snd_answer_of_looks {q : Query} (h : q.looks = true) (s : Scanner) :
    (s.answer q).2 = s.touch.advance (q.width s.stream) := by
  cases q with
  | next => rfl
  | accept c =>
    show (s.accept c).2 = s.touch.advance (if s.stream.head? = some c then 1 else 0)
    by_cases hc : s.stream.head? = some c
    · have hne : s.stream ≠ [] := by
        intro hnil
        simp [hnil] at hc
      rw [accept, if_pos hc, if_pos hc, touch_of_stream_ne_nil hne]
    · rw [accept, if_neg hc, if_neg hc, advance_zero]
  | takeFault => cases h
  | position => cases h
  | _ => exact (advance_zero s.touch).symm

/-- A scanner of a whole text, after the questions of a log. -/
structure Follows (whole : List Char) (damaged : Prop) (origin : Position) (log : Log)
    (s : Scanner) : Prop where
  pushed : s.pushed = []
  read : log.read ++ s.rest = whole
  position : s.position = origin.after log.read
  ahead_iff : s.fault = .ahead ↔ damaged ∧ ¬log.ReachedEnd whole
  met_iff : s.fault = .met ↔ damaged ∧ log.ReachedEnd whole ∧ ¬log.Reported
  reached : log.Reported → log.ReachedEnd whole

theorem follows_ofSource (source : Source) (origin : Position) :
    (ofSource source origin).Follows (unifyLineEnds source.text) (source.damaged = true) origin [] where
  pushed := rfl
  read := rfl
  position := rfl
  ahead_iff := by
    cases hdamaged : source.damaged <;> simp [ofSource, hdamaged, Log.not_reachedEnd_nil]
  met_iff := by
    cases hdamaged : source.damaged <;> simp [ofSource, hdamaged, Log.not_reachedEnd_nil]
  reached := fun h => absurd h Log.not_reported_nil

namespace Follows

theorem stream (h : s.Follows whole damaged origin log) : s.stream = s.rest := by
  rw [Scanner.stream, h.pushed, List.nil_append]

/-- A question about the next character reads some, and behind the last one it meets damage. -/
theorem look (h : s.Follows whole damaged origin log) {q : Query} (hlooks : q.looks = true) :
    (s.answer q).2.Follows whole damaged origin (log ++ [(q, (s.answer q).1)]) := by
  rw [snd_answer_of_looks hlooks, fst_answer]
  have hread := Log.read_singleton s.stream s.position s.takeFault.1 q
  generalize q.answerAt s.stream s.position s.takeFault.1 = a at hread ⊢
  have hreported : Log.Reported (log ++ [(q, a)]) ↔ log.Reported :=
    Log.reported_concat_of_looks hlooks
  have hreached : Log.ReachedEnd whole (log ++ [(q, a)]) ↔
      log.ReachedEnd whole ∨ s.stream = [] := by
    rw [Log.reachedEnd_concat, and_iff_right hlooks, h.stream, ← h.read, List.self_eq_append_right]
  have hearlier := h.reached
  constructor
  · simp [advance, h.pushed]
  · simp [advance, h.pushed, hread, h.stream, h.read]
  · simp [advance, h.pushed, hread, h.stream, h.position, Position.after_append]
  · show s.touch.fault = .ahead ↔ _
    rw [fault_touch_eq_ahead_iff, h.ahead_iff, hreached, not_or, and_assoc]
  · show s.touch.fault = .met ↔ _
    rw [fault_touch_eq_met_iff, h.met_iff, h.ahead_iff, hreached, hreported]
    tauto
  · rw [hreported, hreached]
    exact fun hdone => .inl (hearlier hdone)

/-- A question about something else, to which the answer is no failure, does nothing. -/
theorem silent (h : s.Follows whole damaged origin log) {q : Query} {a : Answer}
    (hlooks : q.looks = false) (hsilent : ¬∃ message, q = .takeFault ∧ a = .report (some message)) :
    s.Follows whole damaged origin (log ++ [(q, a)]) := by
  have hreported : Log.Reported (log ++ [(q, a)]) ↔ log.Reported := by
    rw [Log.reported_concat, or_iff_left hsilent]
  have hreached : Log.ReachedEnd whole (log ++ [(q, a)]) ↔ log.ReachedEnd whole :=
    Log.reachedEnd_concat_of_not hlooks
  constructor
  · exact h.pushed
  · rw [Log.read_concat_of_not hlooks, h.read]
  · rw [Log.read_concat_of_not hlooks, h.position]
  · rw [hreached, h.ahead_iff]
  · rw [hreached, hreported, h.met_iff]
  · rw [hreached, hreported]
    exact h.reached

/-- A failure is reported once. -/
theorem report (h : s.Follows whole damaged origin log) :
    s.takeFault.2.Follows whole damaged origin (log ++ [(.takeFault, .report s.takeFault.1)]) := by
  by_cases hmet : s.fault = .met
  · obtain ⟨hdamaged, hreached, -⟩ := h.met_iff.1 hmet
    have hreached' : Log.ReachedEnd whole (log ++ [(.takeFault, .report s.takeFault.1)]) :=
      (Log.reachedEnd_concat_of_not rfl).2 hreached
    have hreported : Log.Reported (log ++ [(.takeFault, .report s.takeFault.1)]) := by
      rw [takeFault, if_pos hmet]
      exact Log.reported_concat.2 (.inr ⟨Source.damage, rfl, rfl⟩)
    have hstate : s.takeFault.2 = { s with fault := .absent } := by rw [takeFault, if_pos hmet]
    rw [hstate]
    constructor
    · exact h.pushed
    · rw [Log.read_concat_of_not rfl, h.read]
    · rw [Log.read_concat_of_not rfl, ← h.position]
    · simp [hreached']
    · simp [hreported]
    · exact fun _ => hreached'
  · have hnone : s.takeFault = (none, s) := by rw [takeFault, if_neg hmet]
    rw [hnone]
    refine h.silent rfl ?_
    rintro ⟨message, -, hmessage⟩
    cases hmessage

theorem answer (h : s.Follows whole damaged origin log) (q : Query) :
    (s.answer q).2.Follows whole damaged origin (log ++ [(q, (s.answer q).1)]) := by
  cases hlooks : q.looks with
  | true => exact h.look hlooks
  | false =>
    cases q with
    | takeFault => exact h.report
    | position =>
      refine h.silent rfl ?_
      rintro ⟨message, hposition, -⟩
      cases hposition
    | _ => cases hlooks

/-- Question by question, the log and the scanner stay together. -/
theorem play (h : s.Follows whole damaged origin log) (queries : List Query) :
    (TreeScript.play Scanner.answer queries s).2.Follows whole damaged origin
      (log ++ (TreeScript.play Scanner.answer queries s).1) := by
  induction queries generalizing s log with
  | nil => simpa [TreeScript.play] using h
  | cons q queries ih => simpa [TreeScript.play] using ih (h.answer q)

theorem reads (h : s.Follows whole damaged origin log) :
    Reads whole damaged origin log (fun q => (s.answer q).1) s.rest s.takeFault.1 where
  read := h.read
  answer := fun q => by rw [fst_answer, h.stream, h.position]
  due := fun hdue => by rw [takeFault, if_pos (h.met_iff.2 hdue)]
  quiet := fun hquiet => by rw [takeFault, if_neg (mt h.met_iff.1 hquiet)]

end Follows

end Scanner

/-! ### Readers that go on as they are answered -/

/-- A reader that is done, or asks a question and goes on with the answer. -/
inductive Parser (α : Type) where
  | done (result : α)
  | ask (q : Query) (proceed : Answer → Parser α)

/-- What a reader makes of the answers that it gets. -/
def Parser.run {α σ : Type} (answer : Query → σ → Answer × σ) : Parser α → σ → α
  | done result, _ => result
  | ask q proceed, s => (proceed (answer q s).1).run answer (answer q s).2

/-- Two readers of characters that answer alike, and go on answering alike, for as long as a relation of
their states holds. -/
def AnswerAlike {σ τ : Type} (related : σ → τ → Prop) (f : Query → σ → Answer × σ)
    (g : Query → τ → Answer × τ) : Prop :=
  ∀ q s t, related s t → (f q s).1 = (g q t).1 ∧ related (f q s).2 (g q t).2

namespace AnswerAlike

variable {σ τ : Type} {related : σ → τ → Prop} {f : Query → σ → Answer × σ}
  {g : Query → τ → Answer × τ} {s : σ} {t : τ}

theorem play (h : AnswerAlike related f g) (hst : related s t) (queries : List Query) :
    (TreeScript.play f queries s).1 = (TreeScript.play g queries t).1 ∧
      related (TreeScript.play f queries s).2 (TreeScript.play g queries t).2 := by
  induction queries generalizing s t with
  | nil => exact ⟨rfl, hst⟩
  | cons q queries ih =>
    obtain ⟨hanswer, hnext⟩ := h q s t hst
    obtain ⟨hlog, hlast⟩ := ih hnext
    exact ⟨by rw [TreeScript.play, TreeScript.play, hanswer, hlog], hlast⟩

theorem run {α : Type} (h : AnswerAlike related f g) (hst : related s t) (p : Parser α) :
    p.run f s = p.run g t := by
  induction p generalizing s t with
  | done result => rfl
  | ask q proceed ih =>
    obtain ⟨hanswer, hnext⟩ := h q s t hst
    rw [Parser.run, Parser.run, hanswer]
    exact ih _ hnext

end AnswerAlike

/-! ### Cursors -/

namespace Cursor

open Text

/-- Answers a question. -/
def answer (q : Query) (c : Cursor) : Answer × Cursor :=
  match q with
  | .peek => c.peek.map .character id
  | .next => c.next.map .character id
  | .isAtEnd => c.isAtEnd.map .truth id
  | .check ch => (c.check ch).map .truth id
  | .checkAny set => (c.checkAny set).map .truth id
  | .accept ch => (c.accept ch).map .truth id
  | .takeFault => c.takeFault.map .report id
  | .position => (.place c.position, c)

theorem Mirrors.map {α β : Type} {x : α × Cursor} {y : α × Scanner} (h : Mirrors x y) (f : α → β) :
    Mirrors (x.map f id) (y.map f id) :=
  ⟨congrArg f h.result, h.scanner, h.sound⟩

theorem mirrors_answer {c : Cursor} (h : c.Sound) (q : Query) :
    Mirrors (c.answer q) (c.scanner.answer q) := by
  cases q with
  | peek => exact (mirrors_peek h).map _
  | next => exact (mirrors_next h).map _
  | isAtEnd => exact (mirrors_isAtEnd h).map _
  | check ch => exact (mirrors_check h ch).map _
  | checkAny set => exact (mirrors_checkAny h set).map _
  | accept ch => exact (mirrors_accept h ch).map _
  | takeFault => exact (mirrors_takeFault h).map _
  | position => exact ⟨rfl, rfl, h⟩

/-- A cursor answers as the scanner does that it stands for. -/
theorem answerAlike_scanner :
    AnswerAlike (fun c s => c.Sound ∧ c.scanner = s) answer Scanner.answer := by
  rintro q c s ⟨h, rfl⟩
  obtain ⟨hresult, hscanner, hsound⟩ := mirrors_answer h q
  exact ⟨hresult, hsound, hscanner⟩

theorem run_ofBytes {α : Type} (p : Parser α) (bytes : List UInt8) (origin : Position) :
    p.run answer (ofBytes bytes origin) =
      p.run Scanner.answer (.ofSource (.ofBytes bytes) origin) :=
  answerAlike_scanner.run ⟨sound_ofBytes bytes origin, scanner_ofBytes bytes origin⟩ p

/-- After any questions, what is true of a scanner is true of a cursor. -/
theorem exists_reads (bytes : List UInt8) (origin : Position) (queries : List Query) :
    ∃ ahead failure, Reads (unifyLineEnds (Source.ofBytes bytes).text)
      ((Source.ofBytes bytes).damaged = true) origin
      (play answer queries (ofBytes bytes origin)).1
      (fun q => ((play answer queries (ofBytes bytes origin)).2.answer q).1) ahead failure := by
  obtain ⟨hlog, hsound, hscanner⟩ := answerAlike_scanner.play
    ⟨sound_ofBytes bytes origin, scanner_ofBytes bytes origin⟩ queries
  have hfollows := (Scanner.follows_ofSource (.ofBytes bytes) origin).play queries
  rw [List.nil_append, ← hlog, ← hscanner] at hfollows
  have hanswers : (fun q => ((play answer queries (ofBytes bytes origin)).2.answer q).1) =
      fun q => ((play answer queries (ofBytes bytes origin)).2.scanner.answer q).1 :=
    funext fun q => (mirrors_answer hsound q).result
  rw [hanswers]
  exact ⟨_, _, hfollows.reads⟩

end Cursor

/-- No reader tells two texts from each other. -/
structure Indistinguishable (a b : String) : Prop where
  characters : ∀ (α : Type) (p : Parser α) (origin : Position),
    p.run Cursor.answer (.ofBytes (Text.encode a.toList) origin) =
      p.run Cursor.answer (.ofBytes (Text.encode b.toList) origin)
  scanner : Scanner.ofString a = Scanner.ofString b
  node : Node.parse a = Node.parse b
  nodes : Node.parseAll a = Node.parseAll b
  source : ∀ mode, Node.parseSource mode (.ofString a) = Node.parseSource mode (.ofString b)
  expr : Expr.parse a = Expr.parse b
  procedure : ∀ (α : Type) (natives : Registry α) (engine : Engine),
    Procedure.parse natives engine a = Procedure.parse natives engine b
  procedures : ∀ (α : Type) (natives : Registry α) (engine : Engine),
    Procedure.parseAll natives engine a = Procedure.parseAll natives engine b

namespace Cursor

open Text

theorem indistinguishable_of_unified {a b : String}
    (h : endLine (lineFeeds a.toList) = endLine (lineFeeds b.toList)) : Indistinguishable a b := by
  have hscanner : ∀ origin, Scanner.ofSource (.ofString a) origin =
      Scanner.ofSource (.ofString b) origin := by
    intro origin
    show Scanner.mk [] (unifyLineEnds a.toList) origin .absent =
      Scanner.mk [] (unifyLineEnds b.toList) origin .absent
    rw [unifyLineEnds_eq, unifyLineEnds_eq, h]
  have hstring : Scanner.ofString a = Scanner.ofString b := hscanner .start
  constructor
  · intro α p origin
    rw [run_ofBytes, run_ofBytes, ← Source.ofString_eq_ofBytes, ← Source.ofString_eq_ofBytes,
      hscanner]
  · exact hstring
  · rw [Node.parse, Node.parse, hstring]
  · rw [Node.parseAll, Node.parseAll, hstring]
  · intro mode
    rw [Node.parseSource, Node.parseSource, hscanner]
  · rw [Expr.parse, Expr.parse, hstring]
  · intro α natives engine
    rw [Procedure.parse, Procedure.parse, hstring]
  · intro α natives engine
    rw [Procedure.parseAll, Procedure.parseAll, hstring]

/-- **A cursor reads the text of the readable lines with its line ends unified**: in whatever order
characters are looked at and read, they are those of that text, then there are none; positions count
them; and a failure is reported, once, behind the last one, if some line is not UTF-8.  So no reader
tells texts from each other that differ in their line ends only. -/
theorem reads_unified (bytes : List UInt8) (origin : Position) :
    (∃ text, Source.decodeLine? (Source.readable bytes) = some text ∧
      ∀ queries, ∃ ahead failure,
        Reads (endLine (lineFeeds text))
          (∃ line ∈ splitLines (· = 10) bytes, Source.decodeLine? line = none) origin
          (play answer queries (ofBytes bytes origin)).1
          (fun q => ((play answer queries (ofBytes bytes origin)).2.answer q).1) ahead failure) ∧
    (∀ (α : Type) (p : Parser α), p.run answer (ofBytes bytes origin) =
      p.run Scanner.answer (.ofSource (.ofBytes bytes) origin)) ∧
    ∀ a b : String, endLine (lineFeeds a.toList) = endLine (lineFeeds b.toList) →
      Indistinguishable a b := by
  refine ⟨⟨(Source.ofBytes bytes).text, Source.decodeLine?_readable bytes, ?_⟩, ?_, ?_⟩
  · intro queries
    rw [← unifyLineEnds_eq, ← Source.damaged_ofLines_iff, ← Source.ofBytes_eq]
    exact exists_reads bytes origin queries
  · intro α p
    exact run_ofBytes p bytes origin
  · intro a b h
    exact indistinguishable_of_unified h

theorem reads_unified_sample :
    (play answer [.next, .peek, .next, .next, .takeFault, .takeFault, .position]
      (ofBytes [97, 13, 10, 255, 98, 10])).1.map Prod.snd =
      [.character (some 'a'), .character (some '\n'), .character (some '\n'), .character none,
        .report (some Source.damage), .report none, .place ⟨2, 1, 2⟩] ∧
    endLine (lineFeeds "[a:\r\nb: 1;]".toList) = endLine (lineFeeds "[a:\nb: 1;]\n".toList) ∧
    Indistinguishable "[a:\r\nb: 1;]" "[a:\nb: 1;]\n" := by
  have hsame : endLine (lineFeeds "[a:\r\nb: 1;]".toList) =
      endLine (lineFeeds "[a:\nb: 1;]\n".toList) := by
    with_unfolding_all decide
  obtain ⟨-, -, htexts⟩ := reads_unified [97, 13, 10, 255, 98, 10] .start
  exact ⟨by with_unfolding_all decide, hsame, htexts _ _ hsame⟩

end Cursor

end TreeScript
