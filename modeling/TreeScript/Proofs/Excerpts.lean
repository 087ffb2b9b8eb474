import TreeScript.Command.Excerpt
import TreeScript.Proofs.Nesting

/-!
# The lines of an excerpt

An excerpt is for the person who reads an error: it shows the line that the position of the error means, with
a mark below it.  The position counts the lines that a cursor sees, for which a lone carriage return ends a
line; the excerpt takes lines to end with line feeds only.  Up to the first lone carriage return the two count
the same lines.  The row that has it is no line that a cursor sees.

- `Text.unifiedLines`, `Text.unifiedLines_eq`: the lines that a cursor sees, chunk by chunk.
- `Command.getElem?_unifiedLines`: where the two kinds of lines agree.
- `Command.exists_excerpt_eq`: what stands around a line in an excerpt.
- `Command.Reported`, `Command.Shows`, `Command.shows_iff`: the lines that excerpts show.
-/

namespace TreeScript

namespace Text

/-! ### The lines that a cursor sees -/

/-- The lines of a text whose line ends are unified. -/
def unifiedLines (cs : List Char) : List (List Char) := ((unifyLineEnds cs).splitOn '\n').dropLast

variable {cs line : List Char} {lines : List (List Char)} {c : Char}

theorem splitOn_ended (h : ∀ line ∈ lines, '\n' ∉ line) : (ended lines).splitOn '\n' = lines ++ [[]] := by
  induction lines with
  | nil => rfl
  | cons line lines ih =>
    obtain ⟨hline, hlines⟩ := List.forall_mem_cons.1 h
    rw [ended_cons, List.splitOn_append_cons_self_of_not_mem hline, ih hlines, List.cons_append]

theorem count_ended (h : ∀ line ∈ lines, '\n' ∉ line) : (ended lines).count '\n' = lines.length := by
  induction lines with
  | nil => rfl
  | cons line lines ih =>
    obtain ⟨hline, hlines⟩ := List.forall_mem_cons.1 h
    rw [ended_cons, List.count_append, List.count_eq_zero_of_not_mem hline, List.count_cons_self, ih hlines,
      Nat.zero_add, List.length_cons]

/-- The last line feed is in front of no character. -/
theorem count_take_ended_lt {k : Nat} (h : ∀ line ∈ lines, '\n' ∉ line) (hk : k < (ended lines).length) :
    ((ended lines).take k).count '\n' < lines.length := by
  obtain rfl | ⟨front, last, rfl⟩ := List.eq_nil_or_concat' lines
  · cases hk
  · have hcount := count_ended h
    have htext : ended (front ++ [last]) = ended front ++ last ++ ['\n'] := by simp [ended]
    rw [htext] at hk hcount ⊢
    rw [List.length_append, List.length_singleton] at hk
    rw [List.count_append, List.count_singleton_self] at hcount
    rw [List.take_append_of_le_length (Nat.le_of_lt_succ hk), ← hcount]
    exact Nat.lt_succ_of_le ((List.take_sublist _ _).count_le _)

theorem mem_of_mem_splitOn {d : Char} (hline : line ∈ cs.splitOn d) (hc : c ∈ line) : c ∈ cs := by
  induction cs generalizing line with
  | nil =>
    rw [List.splitOn_nil, List.mem_singleton] at hline
    rwa [hline] at hc
  | cons b cs ih =>
    obtain ⟨first, others, hsplit⟩ := List.exists_cons_of_ne_nil (List.splitOn_ne_nil d cs)
    rw [List.splitOn_cons_eq_if_modifyHead] at hline
    split at hline
    · obtain rfl | hline := List.mem_cons.1 hline
      · cases hc
      · exact List.mem_cons_of_mem _ (ih hline hc)
    · rw [hsplit, List.modifyHead_cons] at hline
      obtain rfl | hline := List.mem_cons.1 hline
      · obtain rfl | hc := List.mem_cons.1 hc
        · exact List.mem_cons_self
        · exact List.mem_cons_of_mem _ (ih (by simp [hsplit]) hc)
      · exact List.mem_cons_of_mem _ (ih (by simp [hsplit, hline]) hc)

theorem mem_of_mem_dropEnd {d : Char} (h : c ∈ dropEnd d cs) : c ∈ cs := by
  rw [dropEnd] at h
  split at h
  · exact List.mem_of_mem_dropLast h
  · exact h

/-- No line in a line of the source goes on behind a line feed. -/
theorem not_mem_of_mem_innerLines {body : List Char} (hbody : '\n' ∉ body)
    (hline : line ∈ (dropEnd '\r' body).splitOn '\r') : '\n' ∉ line :=
  fun hmem => hbody (mem_of_mem_dropEnd (mem_of_mem_splitOn hline hmem))

/-- A cursor sees the lines in each line of the source, one after the other. -/
theorem unifyLineEnds_eq_ended (cs : List Char) :
    unifyLineEnds cs = ended ((splitLines (· = '\n') cs).flatMap innerLines) ∧
      ∀ line ∈ (splitLines (· = '\n') cs).flatMap innerLines, '\n' ∉ line := by
  induction hlines : splitLines (fun c => decide (c = '\n')) cs generalizing cs with
  | nil =>
    have hnil : cs = [] := by rw [← flatten_splitLines (fun c => decide (c = '\n')) cs, hlines]; rfl
    rw [hnil]
    exact ⟨rfl, by simp⟩
  | cons line lines ih =>
    obtain ⟨rest, rfl, hrest, hfirst⟩ := isFirstLine_of_splitLines hlines
    obtain ⟨htext, hfeeds⟩ := ih rest hrest.symm
    have hfeed : ∀ {xs : List Char}, (∀ x ∈ xs, decide (x = '\n') = false) → '\n' ∉ xs := by
      intro xs hxs hmem
      simpa using hxs '\n' hmem
    rw [List.flatMap_cons, List.forall_mem_append, ended, List.flatMap_append, ← ended, ← ended, ← htext]
    cases hfirst with
    | ended body e hline he hbody =>
      obtain rfl : e = '\n' := of_decide_eq_true he
      subst hline
      refine ⟨?_, fun inner hinner => ?_, hfeeds⟩
      · rw [List.append_assoc, List.singleton_append, ended_innerLines_append (hfeed hbody)]
      · rw [innerLines_append_lineFeed] at hinner
        exact not_mem_of_mem_innerLines (hfeed hbody) hinner
    | last hne hline hrest =>
      subst hrest
      refine ⟨?_, fun inner hinner => ?_, hfeeds⟩
      · rw [List.append_nil, ended_innerLines hne (hfeed hline), unifyLineEnds, List.append_nil]
      · rw [innerLines_of_not_mem (hfeed hline)] at hinner
        exact not_mem_of_mem_innerLines (hfeed hline) hinner

theorem unifiedLines_eq (cs : List Char) :
    unifiedLines cs = (splitLines (· = '\n') cs).flatMap innerLines := by
  obtain ⟨htext, hfeeds⟩ := unifyLineEnds_eq_ended cs
  rw [unifiedLines, htext, splitOn_ended hfeeds, List.dropLast_concat]

theorem not_mem_of_mem_unifiedLines (h : line ∈ unifiedLines cs) : '\r' ∉ line :=
  fun hmem => not_mem_unifyLineEnds cs (mem_of_mem_splitOn (List.mem_of_mem_dropLast h) hmem)

end Text

namespace Command

open Text

/-! ### Two kinds of lines -/

variable {source : String} {line column : Nat}

theorem withoutLineEnd_append_lineFeed (body : List Char) :
    withoutLineEnd (body ++ ['\n']) = dropEnd '\r' body := by
  obtain rfl | ⟨front, c, rfl⟩ := List.eq_nil_or_concat' body
  · rfl
  · by_cases hc : c = '\r'
    · subst hc
      simp [withoutLineEnd, dropEnd]
    · simp [withoutLineEnd, dropEnd, hc]

theorem withoutLineEnd_of_getLast? {cs : List Char} (h : cs.getLast? ≠ some '\n') :
    withoutLineEnd cs = cs := by
  obtain rfl | ⟨front, c, rfl⟩ := List.eq_nil_or_concat' cs
  · rfl
  · have hc : c ≠ '\n' := by simpa using h
    simp [withoutLineEnd, hc]

/-- A line of the source that has no other carriage return than the one of its end is a line for a cursor. -/
theorem innerLines_of_not_mem_withoutLineEnd {cs : List Char} (h : '\r' ∉ withoutLineEnd cs) :
    innerLines cs = [withoutLineEnd cs] := by
  by_cases hlast : cs.getLast? = some '\n'
  · obtain ⟨body, rfl⟩ := List.getLast?_eq_some_iff.1 hlast
    rw [withoutLineEnd_append_lineFeed] at h ⊢
    rw [innerLines_append_lineFeed, List.splitOn_eq_singleton h]
  · rw [withoutLineEnd_of_getLast? hlast] at h ⊢
    have hreturn : cs.getLast? ≠ some '\r' := fun heq => h (List.mem_of_getLast? heq)
    rw [innerLines, dropEnd.eq_def '\n', if_neg hlast, dropEnd, if_neg hreturn, List.splitOn_eq_singleton h]

theorem getElem?_flatMap_eq_map {α β : Type} {f : α → List β} {g : α → β} {xs : List α} {n i : Nat}
    (h : ∀ x ∈ xs.take n, f x = [g x]) (hi : i < n) : (xs.flatMap f)[i]? = (xs.map g)[i]? := by
  induction xs generalizing n i with
  | nil => rfl
  | cons x xs ih =>
    obtain ⟨m, rfl⟩ := Nat.exists_eq_succ_of_ne_zero (Nat.ne_zero_of_lt hi)
    obtain ⟨hx, hxs⟩ := List.forall_mem_cons.1 (List.take_succ_cons ▸ h)
    rw [List.flatMap_cons, hx, List.singleton_append, List.map_cons]
    cases i with
    | zero => rfl
    | succ i => exact ih hxs (Nat.lt_of_succ_lt_succ hi)

/-- In front of the first lone carriage return, the lines of the source are those that a cursor sees. -/
theorem getElem?_unifiedLines {n i : Nat} (h : ∀ row ∈ (sourceLines source).take n, '\r' ∉ row)
    (hi : i < n) : (unifiedLines source.toList)[i]? = (sourceLines source)[i]? := by
  rw [unifiedLines_eq, sourceLines]
  refine getElem?_flatMap_eq_map (fun cs hcs => innerLines_of_not_mem_withoutLineEnd (h _ ?_)) hi
  rw [sourceLines, ← List.map_take]
  exact List.mem_map_of_mem hcs

/-! ### The rows of an excerpt -/

/-- The width of the line numbers in the excerpt around a line. -/
def numberWidth (source : String) (line : Nat) : Nat :=
  (Nat.toDigits 10 (min (line + excerptReach) (sourceLines source).length)).length

/-- The number of rows above a line in the excerpt around it. -/
def rowsAbove (line : Nat) : Nat := line - max (line - excerptReach) 1 + 1

/-- The lines in the excerpt around a line, with their numbers. -/
def shownLines (source : String) (line : Nat) : List (List Char × Nat) :=
  (((sourceLines source).zipIdx 1).take (min (line + excerptReach) (sourceLines source).length)).drop
    (max (line - excerptReach) 1 - 1)

/-- The rows that an excerpt has for several lines, one of which it is about. -/
def rowsOf (width line column : Nat) (numbered : List (List Char × Nat)) : List (List Char) :=
  numbered.flatMap fun (text, number) =>
    if number = line then [numberedLine width number text, markLine width column text]
    else [numberedLine width number text]

/-- The row above and below an excerpt. -/
def separator (source : String) (line : Nat) : List Char :=
  List.replicate (numberWidth source line + 1) '-' ++ "|--".toList

theorem excerpt_eq (hpos : 0 < line) (hle : line ≤ (sourceLines source).length) (column : Nat) :
    excerpt source line column =
      (separator source line :: rowsOf (numberWidth source line) line column (shownLines source line) ++
        [separator source line]).map .ofList :=
  if_neg (by omega)

theorem excerpt_of_length_lt (h : (sourceLines source).length < line) (column : Nat) :
    excerpt source line column = [] :=
  if_pos (Or.inr h)

/-- Only the line that an excerpt is about has a mark. -/
theorem length_rowsOf {width : Nat} {numbered : List (List Char × Nat)}
    (h : ∀ x ∈ numbered, x.2 ≠ line) : (rowsOf width line column numbered).length = numbered.length := by
  rw [rowsOf, List.length_flatMap]
  induction numbered with
  | nil => rfl
  | cons x numbered ih =>
    obtain ⟨hx, hnumbered⟩ := List.forall_mem_cons.1 h
    rw [List.map_cons, List.sum_cons, ih hnumbered, List.length_cons, Nat.add_comm]
    simp [hx]

theorem rowsOf_around (width column : Nat) (above below : List (List Char × Nat)) (row : List Char) :
    rowsOf width line column (above ++ (row, line) :: below) =
      rowsOf width line column above ++ numberedLine width line row :: markLine width column row ::
        rowsOf width line column below := by
  simp [rowsOf]

/-- A part of several numbered things that has a given one of them. -/
theorem drop_take_zipIdx {α : Type} {front back : List α} {x : α} {first last : Nat}
    (hfirst : first ≤ front.length) (hlast : front.length < last) :
    (((front ++ x :: back).zipIdx 1).take last).drop first =
      (front.zipIdx 1).drop first ++ (x, front.length + 1) ::
        (back.zipIdx (front.length + 2)).take (last - (front.length + 1)) := by
  have hfront : (front.zipIdx 1).length = front.length := List.length_zipIdx
  have hrest : last - front.length = last - (front.length + 1) + 1 := by omega
  rw [List.zipIdx_append, Nat.add_comm 1, List.zipIdx_cons, List.take_append,
    List.take_of_length_le (hfront.trans_le (Nat.le_of_lt hlast)), hfront, hrest, List.take_succ_cons,
    List.drop_append_of_le_length (hfront.symm ▸ hfirst)]

theorem exists_append_of_getElem? {α : Type} {xs : List α} {x : α} {i : Nat} (h : xs[i]? = some x) :
    ∃ front back, xs = front ++ x :: back ∧ front.length = i := by
  obtain ⟨hlt, rfl⟩ := List.getElem?_eq_some_iff.1 h
  refine ⟨xs.take i, xs.drop (i + 1), ?_, List.length_take_of_le (Nat.le_of_lt hlt)⟩
  rw [← List.drop_eq_getElem_cons hlt, List.take_append_drop]

/-- The excerpt around a line of the source has the line, behind others above. -/
theorem exists_shownLines_eq {row : List Char} (hpos : 0 < line)
    (hrow : (sourceLines source)[line - 1]? = some row) :
    ∃ above below, shownLines source line = above ++ (row, line) :: below ∧
      above.length + 1 = rowsAbove line ∧ ∀ x ∈ above, x.2 ≠ line := by
  obtain ⟨front, back, hsource, hline⟩ := exists_append_of_getElem? hrow
  obtain rfl : line = front.length + 1 := by omega
  have hlength : (sourceLines source).length = front.length + 1 + back.length := by
    rw [hsource, List.length_append, List.length_cons]
    omega
  have hfirst : max (front.length + 1 - excerptReach) 1 - 1 ≤ front.length := by omega
  refine ⟨_, _, by rw [shownLines, hlength, hsource, drop_take_zipIdx hfirst (by omega)], ?_, ?_⟩
  · rw [List.length_drop, List.length_zipIdx, rowsAbove]
    omega
  · intro x hx
    have hlt := List.snd_lt_add_of_mem_zipIdx (List.mem_of_mem_drop hx)
    omega

/-- In the excerpt around a line of the source it stands with its number behind the rows above, and has the
mark below it. -/
theorem exists_excerpt_eq {row : List Char} (hpos : 0 < line)
    (hrow : (sourceLines source)[line - 1]? = some row) (column : Nat) :
    ∃ above below : List String, above.length = rowsAbove line ∧
      excerpt source line column =
        above ++ .ofList (numberedLine (numberWidth source line) line row) ::
          .ofList (markLine (numberWidth source line) column row) :: below := by
  obtain ⟨hlt, -⟩ := List.getElem?_eq_some_iff.1 hrow
  obtain ⟨above, below, hshown, habove, hothers⟩ := exists_shownLines_eq hpos hrow
  refine ⟨(separator source line :: rowsOf (numberWidth source line) line column above).map .ofList,
    (rowsOf (numberWidth source line) line column below ++ [separator source line]).map .ofList, ?_, ?_⟩
  · rw [List.length_map, List.length_cons, length_rowsOf hothers, habove]
  · rw [excerpt_eq hpos (by omega), hshown, rowsOf_around]
    simp

/-! ### The lines that are shown -/

/-- The places that a cursor over a source can report for one of its characters. -/
def Reported (source : String) (line column : Nat) : Prop :=
  ∃ k < (unifyLineEnds source.toList).length, ∃ offset,
    ((Cursor.ofBytes (encode source.toList)).skip k).position = ⟨line, column, offset⟩

/-- The excerpt around a place shows its line as a cursor sees it, with its number and the mark below it. -/
def Shows (source : String) (line column : Nat) : Prop :=
  ∃ text, (unifiedLines source.toList)[line - 1]? = some text ∧
    (excerpt source line column)[rowsAbove line]? =
      some (.ofList (numberedLine (numberWidth source line) line text)) ∧
    (excerpt source line column)[rowsAbove line + 1]? =
      some (.ofList (markLine (numberWidth source line) column text))

theorem line_after (p : Position) (cs : List Char) : (p.after cs).line = p.line + cs.count '\n' := by
  induction cs generalizing p with
  | nil => rfl
  | cons c cs ih =>
    rw [Position.after_cons, ih, Position.step, List.count_cons]
    by_cases hc : c = '\n'
    · simp [hc, Nat.add_comm, Nat.add_left_comm]
    · simp [hc]

/-- A line that is reported is one that a cursor sees. -/
theorem Reported.le_length (h : Reported source line column) :
    0 < line ∧ line ≤ (unifiedLines source.toList).length := by
  obtain ⟨k, hk, offset, hposition⟩ := h
  obtain ⟨htext, hfeeds⟩ := unifyLineEnds_eq_ended source.toList
  have hline := line_after .start ((unifyLineEnds source.toList).take k)
  rw [← Cursor.position_skip_encode, hposition] at hline
  have hline : line = 1 + ((unifyLineEnds source.toList).take k).count '\n' := hline
  rw [htext] at hk hline
  have hlt := count_take_ended_lt hfeeds hk
  rw [unifiedLines_eq]
  omega

/-- The line of the source is shown, so it has to be the line that a cursor sees. -/
theorem shows_iff_getElem?_eq (hpos : 0 < line) (hle : line ≤ (unifiedLines source.toList).length)
    (column : Nat) : Shows source line column ↔
      (unifiedLines source.toList)[line - 1]? = (sourceLines source)[line - 1]? := by
  constructor
  · rintro ⟨text, htext, hnumbered, -⟩
    obtain hlt | hlength := Nat.lt_or_ge (sourceLines source).length line
    · rw [excerpt_of_length_lt hlt] at hnumbered
      cases hnumbered
    · have hrow := List.getElem?_eq_getElem (l := sourceLines source) (i := line - 1) (by omega)
      obtain ⟨above, below, habove, hexcerpt⟩ := exists_excerpt_eq hpos hrow column
      rw [hexcerpt, ← habove, List.getElem?_append_right (Nat.le_refl _), Nat.sub_self,
        List.getElem?_cons_zero, Option.some.injEq, String.ofList_inj, numberedLine, numberedLine,
        List.append_cancel_left_eq] at hnumbered
      rw [htext, hrow, hnumbered]
  · intro heq
    have htext := List.getElem?_eq_getElem (l := unifiedLines source.toList) (i := line - 1) (by omega)
    obtain ⟨above, below, habove, hexcerpt⟩ := exists_excerpt_eq hpos (heq.symm.trans htext) column
    refine ⟨_, htext, ?_, ?_⟩
    · rw [hexcerpt, ← habove]
      simp
    · rw [hexcerpt, ← habove]
      simp

/-- **Excerpts show what is meant** up to the first lone carriage return of the source: of the lines up to
one that a cursor reports, all are shown as the cursor sees them exactly if there is no carriage return in
the rows of the source up to that line. -/
theorem shows_iff (h : Reported source line column) :
    (∀ l, 0 < l → l ≤ line → ∀ c, Shows source l c) ↔
      ∀ row ∈ (sourceLines source).take line, '\r' ∉ row := by
  obtain ⟨hpos, hle⟩ := h.le_length
  constructor
  · intro hshows row hrow
    obtain ⟨i, hi, rfl⟩ := List.mem_iff_getElem.1 hrow
    obtain ⟨hline, hlength⟩ := Nat.lt_min.1 (List.length_take ▸ hi)
    have heq := (shows_iff_getElem?_eq (Nat.succ_pos i) (Nat.le_trans hline hle) column).1
      (hshows (i + 1) (Nat.succ_pos i) hline column)
    rw [Nat.succ_sub_one, List.getElem?_eq_getElem hlength] at heq
    rw [List.getElem_take]
    exact not_mem_of_mem_unifiedLines (List.mem_of_getElem? heq)
  · intro hreturn l hl hlle c
    exact (shows_iff_getElem?_eq hl (Nat.le_trans hlle hle) c).2 (getElem?_unifiedLines hreturn (by omega))

theorem shows_iff_sample :
    let source := "a:\r\n\n\té; b"
    Reported source 3 5 ∧ (∀ row ∈ (sourceLines source).take 3, '\r' ∉ row) ∧ Shows source 3 5 := by
  intro source
  have hreported : Reported source 3 5 :=
    ⟨8, by with_unfolding_all decide, 9, by with_unfolding_all decide⟩
  have hreturn : ∀ row ∈ (sourceLines source).take 3, '\r' ∉ row := by with_unfolding_all decide
  exact ⟨hreported, hreturn, (shows_iff hreported).2 hreturn 3 (by decide) (by decide) 5⟩

/-- The second line of a source whose first line ends with a carriage return is not shown at all. -/
theorem exists_not_shown :
    ∃ source line column, Reported source line column ∧ ¬Shows source line column := by
  refine ⟨"a: 1;\rb: 2", 2, 1, ⟨6, by with_unfolding_all decide, 6, by with_unfolding_all decide⟩, ?_⟩
  rintro ⟨text, -, hnumbered, -⟩
  have hnone : excerpt "a: 1;\rb: 2" 2 1 = [] := by with_unfolding_all rfl
  rw [hnone] at hnumbered
  cases hnumbered

end Command

end TreeScript
