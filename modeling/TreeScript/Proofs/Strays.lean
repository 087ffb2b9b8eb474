import TreeScript.Command.Run
import TreeScript.Proofs.Appending
import TreeScript.Proofs.Sources

/-!
# Stray brackets

The key of a node ends at a colon or at a bracket.  In front of an opening bracket no text may stand.  In
front of a closing bracket that closes nothing any text may stand, and it is passed over together with the
bracket: what is read is a placeholder, which a document that is put into its canonical form leaves out.

- `read_placeholder`, `readWith_textBeforeBracket`: text in front of a bracket.
- `Denotes.append_stray`: a stray bracket between two documents, and any text in front of it.
- `Command.formatDocument_of_parseAll`, `Command.formatDocument_of_parseAll_stray`: the canonical form of a
  document, and of one with a stray bracket in it.
- `stray_passed_over`: what happens at either bracket, and what is left of it in the canonical form.
- `exists_stray_swallowing`: a stray bracket that takes more than blanks away.
-/

namespace TreeScript

open Text Grammar

namespace Node

variable {s : Scanner} {mode : ReadMode} {pad key rest : List Char}

/-- A closing bracket at the end of a key is read as a placeholder, with all that is in front of it. -/
theorem read_placeholder (mode : ReadMode) (hpad : AllBlank pad) (hkey : IsKey key)
    (hs : s.stream = pad ++ (key ++ ']' :: rest)) :
    ∃ t, read mode s = (.ok .placeholder, t) ∧ t.stream = rest :=
  readWith_placeholder hpad hkey (by simpa [Phrase.text] using hs)

/-- Text in front of an opening bracket is an error at its first character, and the bracket is left. -/
theorem readWith_textBeforeBracket
    {readNodes : (u : Scanner) → u.remaining < s.remaining → Except Error (List Node)}
    (hpad : AllBlank pad) (hkey : IsKey key) (hne : key ≠ [])
    (hs : s.stream = pad ++ (key ++ '[' :: rest)) :
    ∃ t, readWith mode s readNodes =
        (.error (.malformed (.textBeforeBracket (keyOf key)) s.skipBlank.position), t) ∧
      t.stream = '[' :: rest := by
  obtain ⟨u, hread, hu⟩ := readUntilAny_of_isKey hpad hkey (by decide) hs
  have htrim : trim key ≠ [] := fun h => hne ((trim_eq_nil_iff.1 h).eq_nil_of_flush hkey.1)
  refine ⟨u, ?_, hu⟩
  simp only [readWith, hread]
  split
  · next h => simp [hu] at h
  · next h => simp [hu] at h
  · next h => simp [hu] at h
  · rw [if_pos htrim]

end Node

/-- **A stray bracket between two documents** is a placeholder, whatever text without colons and brackets
stands in front of it. -/
theorem Grammar.Denotes.append_stray {as bs stray : List Char} {xs ys : List Node}
    (has : Denotes as xs) (hstray : ∀ c ∈ stray, c ∉ keyStops) (hbs : Denotes bs ys) :
    Denotes (as ++ (stray ++ ']' :: bs)) (xs ++ .placeholder :: ys) := by
  obtain ⟨d, hd, rfl, rfl⟩ := hbs
  have hkey : IsKey (stray.dropWhile isBlank) :=
    ⟨not_head?_dropWhile _ _, fun c hc => hstray c ((List.dropWhile_sublist _).mem hc)⟩
  refine has.append ⟨.next (stray.takeWhile isBlank) (.placeholder (stray.dropWhile isBlank)) d,
    ⟨forall_mem_takeWhile _ _, hkey, hd⟩, ?_, rfl⟩
  rw [Document.text, Phrase.text, ← List.append_assoc, ← List.append_assoc,
    List.takeWhile_append_dropWhile, List.append_assoc]
  rfl

/-- The canonical form of a document: its nodes without the placeholders, one after the other. -/
theorem Command.formatDocument_of_parseAll {files : Files} {path text : String} {nodes : List Node}
    (hfile : readFile files path = .ok text) (h : Node.parseAll text = .ok nodes) :
    formatDocument files path false =
      .ok (.done ((nodes.filter (!·.isPlaceholder)).map Node.written)) := by
  have hsource : Node.parseSource .recursive (.ofString text) = .ok nodes :=
    (Node.parseSource_of_not_damaged .recursive text.toList).trans h
  simp only [formatDocument, readDocument, hfile, blame, bind, Except.bind, pure, Except.pure,
    Bool.false_eq_true, if_false, hsource, Except.mapError]

/-- Of a stray bracket between two documents, and of the text in front of it, nothing is left in the canonical
form. -/
theorem Command.formatDocument_of_parseAll_stray {files : Files} {path a b : String} {stray : List Char}
    {x y : List Node} (hstray : ∀ c ∈ stray, c ∉ keyStops) (ha : Node.parseAll a = .ok x)
    (hb : Node.parseAll b = .ok y)
    (hfile : readFile files path = .ok (a ++ String.ofList stray ++ "]" ++ b)) :
    formatDocument files path false =
      .ok (.done (((x ++ y).filter (!·.isPlaceholder)).map Node.written)) := by
  rw [Node.parseAll_eq_ok_iff_lineFeeds] at ha hb
  have htext : (a ++ String.ofList stray ++ "]" ++ b).toList = a.toList ++ (stray ++ ']' :: b.toList) := by
    simp
  have hclosing : lineFeeds (stray ++ ']' :: b.toList) = lineFeeds stray ++ ']' :: lineFeeds b.toList := by
    rw [lineFeeds_append_of_head? (by simp), lineFeeds_cons_of_ne (by decide)]
  have hunified : ∀ c ∈ lineFeeds stray, c ∉ keyStops := by
    intro c hc
    obtain rfl | hc := mem_of_mem_lineFeeds hc
    · decide
    · exact hstray c hc
  obtain ⟨as, has, hmeet⟩ := ha.exists_lineFeeds_append (stray ++ ']' :: b.toList)
  have hall : Node.parseAll (a ++ String.ofList stray ++ "]" ++ b) = .ok (x ++ .placeholder :: y) := by
    rw [Node.parseAll_eq_ok_iff_lineFeeds, htext, hmeet, hclosing]
    exact has.append_stray hunified hb
  rw [formatDocument_of_parseAll hfile hall]
  simp [Node.isPlaceholder, Node.placeholder, Scalar.empty]

/-- A key and the blanks in front of it hold neither colons nor brackets. -/
theorem Grammar.not_mem_keyStops_append {pad key : List Char} (hpad : AllBlank pad) (hkey : IsKey key) :
    ∀ c ∈ pad ++ key, c ∉ keyStops := by
  intro c hc hstop
  rcases List.mem_append.1 hc with hc | hc
  · exact absurd (hpad c hc) (by simp [not_isBlank_of_mem_keyStops hstop])
  · exact hkey.2 c hc hstop

/-- **Text in front of a stray bracket is passed over.**  Where the key of a node ends at a closing bracket, a
placeholder is read, and all that is in front of the bracket goes with it: blanks only exactly if the key is
empty.  Where it ends at an opening bracket and is not empty, that is an error.  So in the canonical form of a
document neither a stray bracket nor the text in front of it is left. -/
theorem stray_passed_over {pad key : List Char} (hpad : AllBlank pad) (hkey : IsKey key) :
    (∀ (mode : ReadMode) (s : Scanner) (rest : List Char),
      (s.stream = pad ++ (key ++ ']' :: rest) →
        ∃ t, Node.read mode s = (.ok .placeholder, t) ∧ t.stream = rest ∧
          ((∃ gap, AllBlank gap ∧ s.stream = gap ++ ']' :: t.stream) ↔ key = [])) ∧
      (s.stream = pad ++ (key ++ '[' :: rest) → key ≠ [] →
        ∃ t, Node.read mode s =
            (.error (.malformed (.textBeforeBracket (Node.keyOf key)) s.skipBlank.position), t) ∧
          t.stream = '[' :: rest)) ∧
    ∀ (files : Files) (path a b : String) (x y : List Node),
      Node.parseAll a = .ok x → Node.parseAll b = .ok y →
      Command.readFile files path = .ok (a ++ String.ofList (pad ++ key) ++ "]" ++ b) →
      Command.formatDocument files path false =
        .ok (.done (((x ++ y).filter (!·.isPlaceholder)).map Node.written)) := by
  refine ⟨fun mode s rest => ⟨fun hs => ?_, fun hs hne => ?_⟩, ?_⟩
  · obtain ⟨t, hread, rfl⟩ := Node.read_placeholder mode hpad hkey hs
    refine ⟨t, hread, rfl, ⟨?_, ?_⟩⟩
    · rintro ⟨gap, hgap, hblank⟩
      rw [hs, ← List.append_assoc] at hblank
      obtain rfl := List.append_cancel_right hblank
      exact (allBlank_append.1 hgap).2.eq_nil_of_flush hkey.1
    · rintro rfl
      exact ⟨pad, hpad, hs⟩
  · exact Node.readWith_textBeforeBracket hpad hkey hne hs
  · intro files path a b x y ha hb hfile
    exact Command.formatDocument_of_parseAll_stray (not_mem_keyStops_append hpad hkey) ha hb hfile

theorem stray_passed_over_sample :
    (∃ t, Node.read .recursive (.ofString "\thp 12; ] x: 1;") = (.ok .placeholder, t) ∧
      t.stream = " x: 1;\n".toList) ∧
    (∃ t, Node.read .recursive (.ofString "\thp 12; [x: 1;]") =
      (.error (.malformed (.textBeforeBracket "hp 12;") ⟨1, 2, 1⟩), t)) ∧
    Command.formatDocument (fun _ => .ok "a: 1;\thp 12; ] x: 1;".toUTF8.toList) "f" false =
      .ok (.done ["a: 1;", "x: 1;"]) := by
  have hkey : IsKey "hp 12; ".toList := by decide
  have htab : AllBlank ['\t'] := allBlank_replicate_tab 1
  obtain ⟨hread, hformat⟩ := stray_passed_over htab hkey
  obtain ⟨t, hplaceholder, ht, -⟩ :=
    (hread .recursive (.ofString "\thp 12; ] x: 1;") " x: 1;\n".toList).1 (by decide)
  obtain ⟨u, hbefore, -⟩ :=
    (hread .recursive (.ofString "\thp 12; [x: 1;]") "x: 1;]\n".toList).2 (by decide) (by decide)
  refine ⟨⟨t, hplaceholder, ht⟩, ⟨u, hbefore⟩, ?_⟩
  exact hformat (fun _ => .ok "a: 1;\thp 12; ] x: 1;".toUTF8.toList) "f" "a: 1;" " x: 1;"
    [.leaf "a" (.integer 1)] [.leaf "x" (.integer 1)] (by with_unfolding_all rfl)
    (by with_unfolding_all rfl) (by with_unfolding_all rfl)

/-- **Not only blanks are passed over**: a stray bracket at which a placeholder is read, with other text in
front of it; and nothing of that text is left in the canonical form of the document. -/
theorem exists_stray_swallowing :
    (∃ (s t : Scanner) (key : List Char), s = .ofString "oops ] x: 1;" ∧ IsKey key ∧
      Node.read .recursive s = (.ok .placeholder, t) ∧ s.stream = key ++ ']' :: t.stream ∧
      ¬∃ gap, AllBlank gap ∧ s.stream = gap ++ ']' :: t.stream) ∧
    Command.formatDocument (fun _ => .ok "oops ] x: 1;".toUTF8.toList) "f" false =
      .ok (.done ["x: 1;"]) := by
  have hkey : IsKey "oops ".toList := by decide
  have hs : (Scanner.ofString "oops ] x: 1;").stream = [] ++ ("oops ".toList ++ ']' :: " x: 1;\n".toList) := by
    decide
  obtain ⟨t, hread, ht⟩ := Node.read_placeholder .recursive allBlank_nil hkey hs
  refine ⟨⟨_, t, "oops ".toList, rfl, hkey, hread, by rw [ht]; exact hs, ?_⟩, ?_⟩
  · rintro ⟨gap, hgap, hblank⟩
    rw [hs, ht] at hblank
    obtain rfl : "oops ".toList = gap := List.append_cancel_right hblank
    exact absurd (hgap 'o' (by decide)) (by decide)
  · have hparse : Node.parseAll "oops ] x: 1;" = .ok [.placeholder, .leaf "x" (.integer 1)] := by
      with_unfolding_all rfl
    exact Command.formatDocument_of_parseAll (by with_unfolding_all rfl) hparse

end TreeScript
