import TreeScript.Proofs.Recognition
import TreeScript.Proofs.Sections

/-!
# Both ways to read a composite node

The inside of a composite node can be read as nodes or be kept as one text.  Up to the colon behind the
key both readers do the same; so they fail together or not at all there, and leave the same scanner.
The text that is kept is trimmed, and blanks around a document do not matter: it reads as the nodes that
the other reader finds in the node.

- `Denotes`, `denotes_append_blank_iff`, `denotes_trim_iff`: blanks around a document.
- `readAll_eq_ok_iff`, `parseAll_eq_ok_iff_denotes`: the readers of documents, through `Denotes`.
- `read_of_bracket`, `readInside_cases`: a composite node up to its colon, in either mode.
- `read_flat_recursive`: both readers side by side.
-/

namespace TreeScript

open Text

namespace Grammar

/-- A text that is a document of some nodes. -/
def Denotes (cs : List Char) (nodes : List Node) : Prop :=
  ∃ d : Document, d.Legal ∧ d.text = cs ∧ d.nodes = nodes

variable {cs pad : List Char} {nodes : List Node}

/-! ### Blanks around a document -/

/-- A phrase ends with a character that is not blank. -/
theorem Phrase.exists_text_eq_concat (p : Phrase) :
    ∃ front c, p.text = front ++ [c] ∧ isBlank c = false := by
  cases p with
  | leaf key gap value =>
    exact ⟨key ++ ':' :: (gap ++ value), ';', by simp [Phrase.text], by decide⟩
  | composite body pad head inside => exact ⟨'[' :: body, ']', rfl, by decide⟩
  | placeholder key => exact ⟨key, ']', rfl, by decide⟩

/-- Blanks behind a document belong to it. -/
theorem Document.exists_append_blank (hpad : AllBlank pad) : ∀ {d : Document}, d.Legal →
    ∃ e : Document, e.Legal ∧ e.text = d.text ++ pad ∧ e.nodes = d.nodes
  | .done gap, hd => ⟨.done (gap ++ pad), allBlank_append.2 ⟨hd, hpad⟩, rfl, rfl⟩
  | .next gap first others, ⟨hgap, hfirst, hothers⟩ => by
    obtain ⟨e, he, htext, hnodes⟩ := Document.exists_append_blank hpad hothers
    refine ⟨.next gap first e, ⟨hgap, hfirst, he⟩, ?_, ?_⟩
    · simp [Document.text, htext]
    · rw [Document.nodes, Document.nodes, hnodes]

/-- Blanks at the end of a document are behind its last phrase, and can be taken away. -/
theorem Document.exists_of_append_blank (hpad : AllBlank pad) : ∀ {d : Document} {cs : List Char},
    d.Legal → d.text = cs ++ pad → ∃ e : Document, e.Legal ∧ e.text = cs ∧ e.nodes = d.nodes
  | .done gap, cs, hd, htext => by
    have hblank : AllBlank (cs ++ pad) := htext ▸ hd
    exact ⟨.done cs, (allBlank_append.1 hblank).1, rfl, rfl⟩
  | .next gap first others, cs, ⟨hgap, hfirst, hothers⟩, htext => by
    obtain ⟨front, c, hfront, hc⟩ := first.exists_text_eq_concat
    have hsplit : gap ++ front ++ [c] ++ others.text = cs ++ pad := by
      rw [← htext, Document.text, hfront]
      simp
    obtain ⟨more, rfl, hmore⟩ := exists_append_of_allBlank hc hpad hsplit
    obtain ⟨e, he, hetext, hnodes⟩ := Document.exists_of_append_blank hpad hothers hmore
    refine ⟨.next gap first e, ⟨hgap, hfirst, he⟩, ?_, ?_⟩
    · simp [Document.text, hetext, hfront]
    · rw [Document.nodes, Document.nodes, hnodes]

theorem denotes_append_blank_iff (hpad : AllBlank pad) :
    Denotes (cs ++ pad) nodes ↔ Denotes cs nodes := by
  constructor
  · rintro ⟨d, hd, htext, rfl⟩
    exact Document.exists_of_append_blank hpad hd htext
  · rintro ⟨d, hd, rfl, rfl⟩
    exact Document.exists_append_blank hpad hd

/-- Blanks in front of a document belong to it, and can be taken away. -/
theorem denotes_blank_append_iff (hpad : AllBlank pad) :
    Denotes (pad ++ cs) nodes ↔ Denotes cs nodes := by
  constructor
  · rintro ⟨d, hd, htext, rfl⟩
    cases d with
    | done gap =>
      have hblank : AllBlank (pad ++ cs) := htext ▸ hd
      exact ⟨.done cs, (allBlank_append.1 hblank).2, rfl, rfl⟩
    | next gap first others =>
      obtain ⟨hgap, hfirst, hothers⟩ := hd
      rcases List.append_eq_append_iff.1 htext with ⟨more, rfl, hmore⟩ | ⟨more, rfl, rfl⟩
      · -- what is left of the blanks would stand at the start of the phrase
        have hflush : Flush (more ++ cs) := hmore ▸ Phrase.flush_text_append hfirst _
        obtain rfl := (allBlank_append.1 hpad).2.eq_nil_of_flush
          (hflush.of_isPrefix (List.prefix_append more cs))
        exact ⟨.next [] first others, ⟨allBlank_nil, hfirst, hothers⟩, hmore, rfl⟩
      · exact ⟨.next more first others, ⟨(allBlank_append.1 hgap).2, hfirst, hothers⟩, rfl, rfl⟩
  · rintro ⟨d, hd, rfl, rfl⟩
    cases d with
    | done gap => exact ⟨.done (pad ++ gap), allBlank_append.2 ⟨hpad, hd⟩, rfl, rfl⟩
    | next gap first others =>
      obtain ⟨hgap, hfirst, hothers⟩ := hd
      refine ⟨.next (pad ++ gap) first others, ⟨allBlank_append.2 ⟨hpad, hgap⟩, hfirst, hothers⟩, ?_,
        rfl⟩
      simp [Document.text]

/-- **Blanks around a document do not matter.** -/
theorem denotes_trim_iff : Denotes (trim cs) nodes ↔ Denotes cs nodes := by
  obtain ⟨front, back, hfront, hback, hcs⟩ := exists_eq_append_trim cs
  conv_rhs => rw [hcs]
  rw [denotes_blank_append_iff hfront, denotes_append_blank_iff hback]

theorem denotes_endLine_iff : Denotes (endLine cs) nodes ↔ Denotes cs nodes := by
  obtain ⟨back, hback, hcs⟩ := endLine_eq_append cs
  rw [hcs, denotes_append_blank_iff hback]

theorem denotes_withoutLastLineEnd_iff :
    Denotes (Scanner.withoutLastLineEnd cs) nodes ↔ Denotes cs nodes := by
  rw [Scanner.withoutLastLineEnd]
  split
  · next hlast =>
    obtain ⟨front, rfl⟩ := List.getLast?_eq_some_iff.1 hlast
    rw [List.dropLast_concat, denotes_append_blank_iff allBlank_lineFeed]
  · rfl

end Grammar

namespace Node

open Grammar

variable {s : Scanner} {nodes : List Node}

/-! ### The readers of documents -/

theorem readAll_eq_ok_iff (hreturn : '\r' ∉ s.stream) :
    (readAll .recursive s).1 = .ok nodes ↔ Denotes s.stream nodes := by
  constructor
  · exact exists_document_of_readAll s hreturn
  · rintro ⟨d, hd, htext, rfl⟩
    exact Document.readAll_eq hd hreturn htext.symm

theorem parseAll_eq_ok_iff_denotes {text : String} :
    parseAll text = .ok nodes ↔ Denotes (unifyLineEnds text.toList) nodes :=
  readAll_eq_ok_iff (not_mem_unifyLineEnds _)

theorem mem_of_mem_withoutLastLineEnd {c : Char} {cs : List Char}
    (h : c ∈ Scanner.withoutLastLineEnd cs) : c ∈ cs := by
  rw [Scanner.withoutLastLineEnd] at h
  split at h
  · exact List.dropLast_subset cs h
  · exact h

theorem fst_readToEnd (s : Scanner) : s.readToEnd.1 = Scanner.withoutLastLineEnd s.stream := by
  have hall : s.stream.takeWhile (fun _ => true) = s.stream := List.takeWhile_eq_self_iff.2 (by simp)
  rw [Scanner.readToEnd, Scanner.drain, Scanner.takeWhile, hall]

/-- **The text that is kept reads as the nodes that are in it.** -/
theorem parseAll_readToEnd_eq_ok_iff (hreturn : '\r' ∉ s.stream) :
    parseAll (keyOf s.readToEnd.1) = .ok nodes ↔ (readAll .recursive s).1 = .ok nodes := by
  have hkept : '\r' ∉ trim (Scanner.withoutLastLineEnd s.stream) :=
    fun hmem => hreturn (mem_of_mem_withoutLastLineEnd (mem_of_mem_trim hmem))
  rw [parseAll_eq_ok_iff_denotes, readAll_eq_ok_iff hreturn, keyOf, String.toList_ofList,
    fst_readToEnd, unifyLineEnds_of_not_mem hkept, denotes_endLine_iff, denotes_trim_iff,
    denotes_withoutLastLineEnd_iff]

/-! ### Composite nodes -/

/-- At a bracket, a section is read next, in either mode. -/
theorem read_of_bracket (mode : ReadMode) (h : s.skipBlank.stream.head? = some '[') :
    read mode s =
      match s.skipBlank.findSection '[' ']' with
      | (.error e, t) => (.error e, t)
      | (.ok body, t) => (readInside mode body.scanner fun u _ => (readAll mode u).1, t) := by
  obtain ⟨cs, hcs⟩ := List.head?_eq_some_iff.1 h
  have hhead : s.skipBlank.readUntilAny ['[', ':', ']'] false = ([], s.skipBlank) :=
    Scanner.readUntil_of_stop hcs (by decide)
  rw [read]
  simp only [readWith, hhead]
  split
  · next hs => simp [hcs] at hs
  · next hs => simp [hcs] at hs
  · next hs => simp [hcs] at hs
  · have htrim : trim [] = [] := rfl
    simp only [htrim, ne_eq, not_true_eq_false, if_false]
    split
    · next hfind =>
      rw [hhead] at hfind
      rw [hfind]
    · next hfind =>
      rw [hhead] at hfind
      rw [hfind]

/-- The inside of a composite node: without a colon neither mode goes on, and behind it one keeps the
text that the other one reads. -/
theorem readInside_cases (s : Scanner) (flat recursive :
      (t : Scanner) → t.remaining ≤ s.remaining → Except Error (List Node)) :
    (':' ∉ s.stream ∧ ∃ key place,
      readInside .flat s flat = .error (.malformed (.keyUnclosed key) place) ∧
      readInside .recursive s recursive = .error (.malformed (.keyUnclosed key) place)) ∨
    ∃ front key body hbody, s.stream = front ++ ':' :: body.stream ∧
      readInside .flat s flat = .ok (leaf key (.text (keyOf body.readToEnd.1))) ∧
      readInside .recursive s recursive = (recursive body hbody).map (composite key) := by
  obtain ⟨pad, hpad, hs⟩ := s.stream_eq_skipBlank
  rcases hread : s.skipBlank.readUntilChar ':' false with ⟨head, u⟩
  have hskip : s.skipBlank.skipUntilChar ':' false = u := congrArg Prod.snd hread
  obtain ⟨hnone, hend⟩ | ⟨front, rest, -, hfront, hrest⟩ :=
    Scanner.skipUntilChar_cases ':' s.skipBlank
  · have haccept : u.accept ':' = (false, u.touch) := by
      rw [Scanner.accept, if_neg]
      rw [← hskip, hend]
      simp
    refine .inl ⟨?_, keyOf head, s.skipBlank.position, ?_, ?_⟩
    · rw [hs, List.mem_append, not_or]
      exact ⟨fun hmem => absurd (hpad _ hmem) (by decide), hnone⟩
    · simp only [readInside, hread, haccept]
    · simp only [readInside, hread, haccept]
  · obtain ⟨body, haccept, hbody⟩ := Scanner.accept_of_stream (hskip ▸ hrest)
    have hstream : s.stream = pad ++ front ++ ':' :: body.stream := by
      rw [hs, hfront, hbody, List.append_assoc]
    have hle : body.remaining ≤ s.remaining := by
      simp only [Scanner.remaining, hstream, List.length_append, List.length_cons]
      omega
    refine .inr ⟨pad ++ front, keyOf head, body, hle, hstream, ?_, ?_⟩
    · simp only [readInside, hread, haccept]
    · simp only [readInside, hread, haccept]

/-- The inside of a section, in both modes. -/
theorem readInside_flat_recursive (body : Scanner.Section) :
    (':' ∉ body.text → ∃ key place,
      (readInside .flat body.scanner fun u _ => (readAll .flat u).1) =
        .error (.malformed (.keyUnclosed key) place) ∧
      (readInside .recursive body.scanner fun u _ => (readAll .recursive u).1) =
        .error (.malformed (.keyUnclosed key) place)) ∧
    (':' ∈ body.text → ∃ key text,
      (readInside .flat body.scanner fun u _ => (readAll .flat u).1) =
        .ok (leaf key (.text text)) ∧
      ∀ node, (readInside .recursive body.scanner fun u _ => (readAll .recursive u).1) = .ok node ↔
        ∃ ns, parseAll text = .ok ns ∧ node = composite key ns) := by
  have hstream : body.scanner.stream = unifyLineEnds body.text := Scanner.stream_ofChars _ _
  have hcolon : ':' ∈ body.scanner.stream ↔ ':' ∈ body.text := by
    rw [hstream, mem_unifyLineEnds (by decide) (by decide)]
  obtain ⟨hnone, key, place, hflat, hrecursive⟩ |
      ⟨front, key, inside, -, hfront, hflat, hrecursive⟩ :=
    readInside_cases body.scanner (fun u _ => (readAll .flat u).1) fun u _ => (readAll .recursive u).1
  · exact ⟨fun _ => ⟨key, place, hflat, hrecursive⟩, fun hmem => absurd (hcolon.2 hmem) hnone⟩
  · have hreturn : '\r' ∉ inside.stream := by
      have hall : '\r' ∉ body.scanner.stream := hstream ▸ not_mem_unifyLineEnds body.text
      rw [hfront] at hall
      exact fun hmem => hall (by simp [hmem])
    refine ⟨fun hnone => absurd (hcolon.1 (hfront ▸ by simp)) hnone,
      fun _ => ⟨key, _, hflat, fun node => ?_⟩⟩
    rw [hrecursive, map_eq_ok_iff]
    simp only [parseAll_readToEnd_eq_ok_iff hreturn, eq_comm]

/-- **Both modes describe the same document.**  At a bracket they leave the same scanner.  If there is no
section, or no colon in it, both fail with the same error.  Otherwise one of them keeps a text, and the
other one reads a node exactly if that text is a document: the composite node of what is in it. -/
theorem read_flat_recursive (h : s.skipBlank.stream.head? = some '[') :
    (read .flat s).2 = (read .recursive s).2 ∧
    ((¬∃ skipped body rest, Cut '[' ']' s.skipBlank.stream skipped body rest) →
      ∃ place, (read .flat s).1 = .error (.malformed (.sectionUnclosed "]") place) ∧
        (read .recursive s).1 = .error (.malformed (.sectionUnclosed "]") place)) ∧
    (∀ skipped body rest, Cut '[' ']' s.skipBlank.stream skipped body rest →
      (':' ∉ body → ∃ key place,
        (read .flat s).1 = .error (.malformed (.keyUnclosed key) place) ∧
          (read .recursive s).1 = .error (.malformed (.keyUnclosed key) place)) ∧
      (':' ∈ body → ∃ key text, (read .flat s).1 = .ok (leaf key (.text text)) ∧
        ∀ node, (read .recursive s).1 = .ok node ↔
          ∃ ns, parseAll text = .ok ns ∧ node = composite key ns)) := by
  rw [read_of_bracket .flat h, read_of_bracket .recursive h]
  rcases hfind : s.skipBlank.findSection '[' ']' with ⟨_ | body, t⟩
  · next e =>
    have hbracket : '[' ∈ s.skipBlank.stream := List.mem_of_mem_head? h
    obtain ⟨-, ⟨hnone, -⟩ | ⟨-, place, rfl⟩⟩ := Scanner.findSection_eq_error hfind
    · exact absurd hbracket hnone
    · refine ⟨rfl, fun _ => ⟨place, rfl, rfl⟩, fun _ _ _ hcut => ?_⟩
      obtain ⟨_, _, hfound, -⟩ :=
        Scanner.findSection_of_depth? hcut.first (inside_iff_depth?.1 hcut.inside) hcut.text_eq
      rw [hfind] at hfound
      cases hfound
  · obtain ⟨skipped, hskipped, hdepth, hs⟩ := Scanner.depth?_of_findSection hfind
    have hcut : Cut '[' ']' s.skipBlank.stream skipped body.text t.stream :=
      ⟨hs, hskipped, inside_iff_depth?.2 hdepth⟩
    refine ⟨rfl, fun hnone => absurd ⟨_, _, _, hcut⟩ hnone, fun _ _ _ hcut' => ?_⟩
    obtain ⟨-, rfl, -⟩ := hcut.unique hcut'
    dsimp only
    exact readInside_flat_recursive body

theorem read_flat_recursive_sample :
    let s : Scanner := (Scanner.ofChars "k\r: a:1;\r\n\t] c".toList).unread " [".toList
    s.skipBlank.stream.head? = some '[' ∧
      Cut '[' ']' s.skipBlank.stream [] "k\n: a:1;\n\t".toList " c\n".toList ∧
      (read .flat s).1 = .ok (leaf "k" (.text "a:1;")) ∧
      parseAll "a:1;" = .ok [leaf "a" (.integer 1)] ∧
      (read .recursive s).1 = .ok (composite "k" [leaf "a" (.integer 1)]) ∧
      (read .recursive s).2.stream = " c\n".toList := by
  have hflat : (read .flat ((Scanner.ofChars "k\r: a:1;\r\n\t] c".toList).unread " [".toList)).1 =
      .ok (leaf "k" (.text "a:1;")) := rfl
  intro s
  have hhead : s.skipBlank.stream.head? = some '[' := by decide
  have hcut : Cut '[' ']' s.skipBlank.stream [] "k\n: a:1;\n\t".toList " c\n".toList :=
    ⟨by decide, by decide, inside_iff_depth?.2 (by decide)⟩
  have hleaf : (Phrase.leaf ['a'] [] ['1']).Legal :=
    ⟨⟨by simp [isBlank, blankRanges], by simp [keyStops]⟩, allBlank_nil,
      by simp [isBlank, blankRanges], by decide⟩
  have hnodes : parseAll "a:1;" = .ok [leaf "a" (.integer 1)] :=
    parseAll_eq_ok_iff_denotes.2
      ⟨.next [] (.leaf ['a'] [] ['1']) (.done ['\n']), ⟨allBlank_nil, hleaf, allBlank_lineFeed⟩,
        by decide, rfl⟩
  obtain ⟨hsame, -, hcases⟩ := read_flat_recursive hhead
  obtain ⟨key, text, hkept, hiff⟩ := (hcases _ _ _ hcut).2 (by decide)
  obtain ⟨rfl, hscalar⟩ := leaf.inj (Except.ok.inj (hflat.symm.trans hkept))
  obtain rfl := Scalar.text.inj hscalar
  refine ⟨hhead, hcut, hflat, hnodes, (hiff _).2 ⟨_, hnodes, rfl⟩, ?_⟩
  rw [← hsame]
  decide

end Node

end TreeScript
