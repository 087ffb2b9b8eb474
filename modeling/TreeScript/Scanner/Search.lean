import TreeScript.Scanner.Basic

/-!
# Reading up to a terminator

A text is read up to a character, to one of a set of characters, or to the first place where one of
several strings starts.  Of the strings that start there the shortest is the terminator.

A string search has to look ahead.  It takes characters for as long as they can become a terminator
(`takeCandidate`).  If they do not, it puts all but the first one of them back, and goes on with the
next one; so the position of a scanner can run ahead of what it has read.
-/

namespace TreeScript.Scanner

/-! ### Single characters -/

/-- Reads up to the first character that passes a test; `discard` says whether to read that one too. -/
def readUntil (stop : Char → Bool) (discard : Bool) (s : Scanner) : List Char × Scanner :=
  let (text, s) := s.takeWhile (!stop ·)
  (text, if discard then s.advance 1 else s)

/-- Reads up to a given character. -/
def readUntilChar (c : Char) (discard : Bool) (s : Scanner) : List Char × Scanner :=
  s.readUntil (· = c) discard

/-- Reads up to a character of a set. -/
def readUntilAny (set : List Char) (discard : Bool) (s : Scanner) : List Char × Scanner :=
  s.readUntil (· ∈ set) discard

/-- Reads up to a blank or a character of a set. -/
def readUntilBlankOr (set : List Char) (discard : Bool) (s : Scanner) : List Char × Scanner :=
  s.readUntil (fun c => Text.isBlank c || c ∈ set) discard

/-- Reads for as long as the characters belong to a set. -/
def readUntilNot (set : List Char) (discard : Bool) (s : Scanner) : List Char × Scanner :=
  s.readUntil (!· ∈ set) discard

/-- Skips the characters in front of a given one. -/
def skipUntilChar (c : Char) (discard : Bool) (s : Scanner) : Scanner := (s.readUntilChar c discard).2

/-! ### Strings -/

/-- Whether a text can become one of the terminators when characters are put behind it. -/
def isBeginning (terminators : List (List Char)) (text : List Char) : Bool :=
  terminators.any fun t => text.length < t.length && text.isPrefixOf t

/-- Takes characters behind a candidate for as long as it can become a terminator: whether it became one,
and what it is then. -/
def takeCandidate (terminators : List (List Char)) (candidate : List Char) (s : Scanner) :
    (Bool × List Char) × Scanner :=
  if terminators.contains candidate then ((true, candidate), s)
  else if isBeginning terminators candidate then
    match _h : s.next with
    | (some c, s) => takeCandidate terminators (candidate ++ [c]) s
    | (none, s) => ((false, candidate), s)
  else ((false, candidate), s)
termination_by s.remaining
decreasing_by exact remaining_next_lt _h

/-- A candidate grows by the characters that leave the stream. -/
theorem append_stream_takeCandidate {terminators : List (List Char)} {candidate taken : List Char}
    {found : Bool} {s t : Scanner}
    (h : s.takeCandidate terminators candidate = ((found, taken), t)) :
    candidate <+: taken ∧ taken ++ t.stream = candidate ++ s.stream := by
  fun_induction takeCandidate terminators candidate s with
  | case1 | case4 =>
    obtain ⟨htaken, rfl⟩ := Prod.mk.inj h
    obtain ⟨-, rfl⟩ := Prod.mk.inj htaken
    exact ⟨List.prefix_rfl, rfl⟩
  | case2 candidate s hnot hbeginning c u hnext ih =>
    obtain ⟨hfront, happend⟩ := ih h
    obtain ⟨hhead, rfl⟩ := Prod.mk.inj hnext
    obtain ⟨cs, hcs⟩ := List.head?_eq_some_iff.1 hhead
    refine ⟨(List.prefix_append _ _).trans hfront, ?_⟩
    rw [happend, stream_advance, stream_touch, hcs]
    simp
  | case3 candidate s hnot hbeginning u hnext =>
    obtain ⟨htaken, rfl⟩ := Prod.mk.inj h
    obtain ⟨-, rfl⟩ := Prod.mk.inj htaken
    obtain ⟨hhead, rfl⟩ := Prod.mk.inj hnext
    have hend : s.stream = [] := List.head?_eq_none_iff.1 hhead
    exact ⟨List.prefix_rfl, by simp [hend]⟩

/-- A candidate that came to nothing is put back, its first character apart. -/
theorem stream_unread_takeCandidate {terminators : List (List Char)} {c : Char} {taken : List Char}
    {found : Bool} {s t : Scanner} (h : s.takeCandidate terminators [c] = ((found, taken), t)) :
    (t.unread taken.tail).stream = s.stream := by
  obtain ⟨⟨tail, rfl⟩, happend⟩ := append_stream_takeCandidate h
  simpa using happend

/-- Reads up to the first place where a terminator starts, and reads the terminator too.  There are no
empty terminators. -/
def search (terminators : List (List Char)) (s : Scanner) :
    (List Char × Option (List Char)) × Scanner :=
  match _h : s.next with
  | (none, s) => (([], none), s)
  | (some c, s) =>
    match _hc : s.takeCandidate terminators [c] with
    | ((true, t), s) => (([], some t), s)
    | ((false, taken), s) =>
      let ((text, t), s) := search terminators (s.unread taken.tail)
      ((c :: text, t), s)
termination_by s.remaining
decreasing_by
  have := remaining_next_lt _h
  rwa [remaining, stream_unread_takeCandidate _hc]

/-- Reads up to the first place where a terminator starts, and reads the terminator too.  An empty
terminator never starts. -/
def readUntilStrings (terminators : List (List Char)) (s : Scanner) :
    (List Char × Option (List Char)) × Scanner :=
  s.search (terminators.filter (!·.isEmpty))

/-- Reads up to and over a string, or to the end of a text without it. -/
def readUntilString (t : List Char) (s : Scanner) : List Char × Scanner :=
  let ((text, _), s) := s.readUntilStrings [t]
  (text, s)

/-- Skips to behind the first occurrence of a string, and says whether there was one. -/
def skipUntilString (t : List Char) (s : Scanner) : Bool × Scanner :=
  let ((_, found), s) := s.readUntilStrings [t]
  (found.isSome, s)

/-! ### Whole texts -/

/-- Reads the rest of the line, and its line end. -/
def readLine (s : Scanner) : List Char × Scanner := s.readUntilChar '\n' true

/-- Reads every character that is left. -/
def drain (s : Scanner) : List Char × Scanner := s.takeWhile fun _ => true

/-- A text without the line end of its last line. -/
def withoutLastLineEnd (cs : List Char) : List Char :=
  if cs.getLast? = some '\n' then cs.dropLast else cs

/-- Reads every character that is left, without the line end of the last line. -/
def readToEnd (s : Scanner) : List Char × Scanner :=
  let (text, s) := s.drain
  (withoutLastLineEnd text, s)

/-- Skips blanks, and reads up to the next one and over it. -/
def readWord (s : Scanner) : List Char × Scanner := s.skipBlank.readUntil Text.isBlank true

/-- Skips blanks, and reads one character. -/
def readChar (s : Scanner) : Option Char × Scanner := s.skipBlank.next

/-! ### How far a reader gets -/

theorem remaining_readUntil_le (stop : Char → Bool) (discard : Bool) (s : Scanner) :
    (s.readUntil stop discard).2.remaining ≤ s.remaining := by
  have := remaining_takeWhile_le (!stop ·) s
  simp only [readUntil]
  split <;> simp <;> omega

/-- What is read in front of a stop leaves the text, and nothing else does. -/
theorem length_add_remaining_readUntil (stop : Char → Bool) (s : Scanner) :
    (s.readUntil stop false).1.length + (s.readUntil stop false).2.remaining = s.remaining := by
  have h : (s.stream.takeWhile (!stop ·)).length + (s.stream.dropWhile (!stop ·)).length =
      s.stream.length := by
    rw [← List.length_append, List.takeWhile_append_dropWhile]
  simpa [readUntil, remaining, Scanner.takeWhile, drop_length_takeWhile] using h

/-- A search loses nothing: the stream is what was read, the terminator and what is left. -/
theorem stream_eq_search {terminators : List (List Char)} {s u : Scanner} {text : List Char}
    {t : Option (List Char)} (h : s.search terminators = ((text, t), u)) :
    s.stream = text ++ (t.getD [] ++ u.stream) := by
  fun_induction search terminators s generalizing text t u with
  | case1 s v hnext =>
    obtain ⟨hhead, rfl⟩ := Prod.mk.inj hnext
    have hend : s.stream = [] := List.head?_eq_none_iff.1 hhead
    obtain ⟨hresult, rfl⟩ := Prod.mk.inj h
    obtain ⟨rfl, rfl⟩ := Prod.mk.inj hresult
    simp [hend]
  | case2 s c v hnext t' w hcandidate =>
    obtain ⟨hhead, rfl⟩ := Prod.mk.inj hnext
    obtain ⟨cs, hcs⟩ := List.head?_eq_some_iff.1 hhead
    obtain ⟨hresult, rfl⟩ := Prod.mk.inj h
    obtain ⟨rfl, rfl⟩ := Prod.mk.inj hresult
    have happend := (append_stream_takeCandidate hcandidate).2
    simpa [hcs] using happend.symm
  | case3 s c v hnext taken w hcandidate text' t' x hsearch ih =>
    obtain ⟨hhead, rfl⟩ := Prod.mk.inj hnext
    obtain ⟨cs, hcs⟩ := List.head?_eq_some_iff.1 hhead
    obtain ⟨hresult, rfl⟩ := Prod.mk.inj h
    obtain ⟨rfl, rfl⟩ := Prod.mk.inj hresult
    have hrest := ih hsearch
    rw [stream_unread_takeCandidate hcandidate, stream_advance, stream_touch, hcs] at hrest
    rw [hcs, List.cons_append, ← hrest]
    rfl

/-- The terminator that ends a search is not empty. -/
theorem ne_nil_of_search {terminators : List (List Char)} {s u : Scanner} {text t : List Char}
    (h : s.search terminators = ((text, some t), u)) : t ≠ [] := by
  fun_induction search terminators s generalizing text t u with
  | case1 s v hnext => simp at h
  | case2 s c v hnext t' w hcandidate =>
    obtain ⟨hresult, rfl⟩ := Prod.mk.inj h
    obtain ⟨-, ht⟩ := Prod.mk.inj hresult
    obtain rfl := Option.some.inj ht
    exact (append_stream_takeCandidate hcandidate).1.ne_nil (by simp)
  | case3 s c v hnext taken w hcandidate text' t' x hsearch ih =>
    obtain ⟨hresult, rfl⟩ := Prod.mk.inj h
    obtain ⟨rfl, rfl⟩ := Prod.mk.inj hresult
    exact ih hsearch

/-- A search that finds a terminator reads at least one character. -/
theorem remaining_readUntilStrings_lt {terminators : List (List Char)} {s u : Scanner}
    {text t : List Char} (h : s.readUntilStrings terminators = ((text, some t), u)) :
    u.remaining < s.remaining := by
  have hstream := congrArg List.length (stream_eq_search h)
  have hpos : 0 < t.length := List.length_pos_iff.2 (ne_nil_of_search h)
  simp only [Option.getD_some, List.length_append] at hstream
  simp only [remaining]
  omega

end TreeScript.Scanner
