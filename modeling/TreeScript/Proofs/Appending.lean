import TreeScript.Proofs.Modes

/-!
# Documents behind documents

A reader of documents does not look beyond the end of a node: a semicolon or a bracket ends it, and the
bracket is found by counting.  So a document that is put behind another one, on a line of its own, adds its
nodes to those of the other one.

- `Document.denotes_append`, `Denotes.append`: the grammar, phrase by phrase.
- `Denotes.exists_lineFeeds_append`: the line ends where a document and another text meet.
- `parseAll_eq_ok_iff_lineFeeds`: a text as a document, whether or not its last line is ended.
- `parseAll_append`: the nodes of both texts.
-/

namespace TreeScript

open Text

namespace Grammar

variable {as bs : List Char} {xs ys : List Node}

/-- Behind a document another one goes on, phrase by phrase. -/
theorem Document.denotes_append (hbs : Denotes bs ys) : ∀ {d : Document}, d.Legal →
    Denotes (d.text ++ bs) (d.nodes ++ ys)
  | .done _, hpad => (denotes_blank_append_iff hpad).2 hbs
  | .next pad first others, ⟨hpad, hfirst, hothers⟩ => by
    obtain ⟨e, he, htext, hnodes⟩ := Document.denotes_append hbs hothers
    refine ⟨.next pad first e, ⟨hpad, hfirst, he⟩, ?_, ?_⟩
    · simp [Document.text, htext]
    · simp [Document.nodes, hnodes]

/-- **Two documents, one behind the other, are a document** of the nodes of both. -/
theorem Denotes.append (has : Denotes as xs) (hbs : Denotes bs ys) :
    Denotes (as ++ bs) (xs ++ ys) := by
  obtain ⟨d, hd, rfl, rfl⟩ := has
  exact Document.denotes_append hbs hd

/-- Where a document and another text meet, at most a line end of the document goes into one of the text. -/
theorem Denotes.exists_lineFeeds_append (has : Denotes (lineFeeds as) xs) (bs : List Char) :
    ∃ cs, Denotes cs xs ∧ lineFeeds (as ++ bs) = cs ++ lineFeeds bs := by
  obtain happend | ⟨cs, ds, hcs, hds, happend⟩ := lineFeeds_append_cases as bs
  · exact ⟨_, has, happend⟩
  · rw [hcs, denotes_append_blank_iff allBlank_lineFeed] at has
    exact ⟨cs, has, by rw [happend, hds]⟩

end Grammar

namespace Node

open Grammar

variable {x y : List Node}

/-- A text is read as the nodes of a document, whether or not its last line is ended. -/
theorem parseAll_eq_ok_iff_lineFeeds {text : String} {nodes : List Node} :
    parseAll text = .ok nodes ↔ Denotes (lineFeeds text.toList) nodes := by
  rw [parseAll_eq_ok_iff_denotes, unifyLineEnds_eq, denotes_endLine_iff]

/-- **Appending documents appends their nodes**: two texts that are accepted, with a line end between them,
are accepted as the nodes of the first one and then those of the second one. -/
theorem parseAll_append {a b : String} (ha : parseAll a = .ok x) (hb : parseAll b = .ok y) :
    parseAll (a ++ "\n" ++ b) = .ok (x ++ y) := by
  rw [parseAll_eq_ok_iff_lineFeeds] at ha hb
  obtain ⟨as, has, hmeet⟩ := ha.exists_lineFeeds_append ('\n' :: b.toList)
  have htext : (a ++ "\n" ++ b).toList = a.toList ++ '\n' :: b.toList := by simp
  rw [parseAll_eq_ok_iff_lineFeeds, htext, hmeet, lineFeeds_cons_of_ne (by decide)]
  exact has.append ((denotes_blank_append_iff allBlank_lineFeed).2 hb)

theorem parseAll_append_sample :
    parseAll "[k: a: [1];\r]\t\r" = .ok [composite "k" [leaf "a" (.text "[1]")]] ∧
      parseAll "\nx:2;y]" = .ok [leaf "x" (.integer 2), placeholder] ∧
      parseAll "[k: a: [1];\r]\t\r\n\nx:2;y]" =
        .ok [composite "k" [leaf "a" (.text "[1]")], leaf "x" (.integer 2), placeholder] := by
  have hfirst : parseAll "[k: a: [1];\r]\t\r" = .ok [composite "k" [leaf "a" (.text "[1]")]] := by
    with_unfolding_all rfl
  have hsecond : parseAll "\nx:2;y]" = .ok [leaf "x" (.integer 2), placeholder] := by
    with_unfolding_all rfl
  have htext : "[k: a: [1];\r]\t\r" ++ "\n" ++ "\nx:2;y]" = "[k: a: [1];\r]\t\r\n\nx:2;y]" := by
    with_unfolding_all rfl
  have happend := parseAll_append hfirst hsecond
  rw [htext] at happend
  exact ⟨hfirst, hsecond, happend⟩

end Node

end TreeScript
