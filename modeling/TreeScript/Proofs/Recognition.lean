import TreeScript.Proofs.Grammar

/-!
# The reader recognises the grammar

The reader of nodes and the grammar agree: the reader accepts the text of a legal derivation tree
with what the tree denotes, and what it accepts has a legal tree.

One node is treated for any way to read the nodes of a section, so that the recursion of the reader
stays out of the case analysis; `readAll_eq` then closes the recursion.

- `readLeaf_sound`, `readInside_sound`, `readWith_sound`: a success, taken apart.
- `readWith_leaf`, `readWith_placeholder`, `readWith_composite`: one success for each shape.
- `Document.readAll_eq`, `exists_document_of_readAll`: both directions for whole documents.
- `parseAll_eq_ok_iff`: the reader, the grammar and its unambiguity in one statement.
-/

namespace TreeScript

open Text Grammar

theorem map_eq_ok_iff {ε α β : Type} {f : α → β} {x : Except ε α} {b : β} :
    x.map f = .ok b ↔ ∃ a, x = .ok a ∧ f a = b := by
  cases x <;> simp [Except.map]

namespace Node

variable {s t : Scanner}

/-! ### A success, taken apart -/

theorem readLeaf_sound {key : List Char} {start : Position} {node : Node}
    (h : readLeaf key start s = (.ok node, t)) :
    ∃ gap value, AllBlank gap ∧ Flush value ∧ ';' ∉ value ∧
      s.stream = gap ++ (value ++ ';' :: t.stream) ∧
      node = leafOfText (keyOf key) (String.ofList (trimEnd value)) := by
  obtain ⟨gap, hgap, hs⟩ := s.stream_eq_skipBlank
  have hsplit := s.skipBlank.stream_eq_readUntil (· = ';')
  have hflush := s.flush_skipBlank
  simp only [readLeaf, Scanner.readUntilChar] at h
  split at h
  · next u haccept =>
    obtain ⟨hnode, rfl⟩ := Prod.mk.inj h
    rw [Scanner.stream_of_accept haccept] at hsplit
    refine ⟨gap, _, hgap, hflush.of_isPrefix ⟨_, hsplit.symm⟩, ?_, ?_, (Except.ok.inj hnode).symm⟩
    · intro hmem
      simpa using Scanner.not_stop_of_mem_readUntil hmem
    · rw [hs, hsplit]
  · simp at h

theorem readInside_sound {node : Node}
    {readNodes : (t : Scanner) → t.remaining ≤ s.remaining → Except Error (List Node)}
    (h : readInside .recursive s readNodes = .ok node) :
    ∃ pad head body hbody nodes, AllBlank pad ∧ Flush head ∧ ':' ∉ head ∧
      s.stream = pad ++ (head ++ ':' :: body.stream) ∧ readNodes body hbody = .ok nodes ∧
      node = composite (keyOf head) nodes := by
  obtain ⟨pad, hpad, hs⟩ := s.stream_eq_skipBlank
  have hsplit := s.skipBlank.stream_eq_readUntil (· = ':')
  have hflush := s.flush_skipBlank
  simp only [readInside, Scanner.readUntilChar] at h
  split at h
  · simp at h
  · next u haccept =>
    rw [Scanner.stream_of_accept haccept] at hsplit
    obtain ⟨nodes, hnodes, rfl⟩ := map_eq_ok_iff.1 h
    refine ⟨pad, _, _, _, nodes, hpad, hflush.of_isPrefix ⟨_, hsplit.symm⟩, ?_, ?_, hnodes, rfl⟩
    · intro hmem
      simpa using Scanner.not_stop_of_mem_readUntil hmem
    · rw [hs, hsplit, haccept]

/-- The shapes of a node that was read, given how the nodes of a section are read. -/
inductive WasRead (s t : Scanner)
    (readNodes : (u : Scanner) → u.remaining < s.remaining → Except Error (List Node)) :
    Node → Prop where
  | leaf {pad key gap value : List Char} (hpad : AllBlank pad) (hkey : IsKey key)
      (hgap : AllBlank gap) (hflush : Flush value) (hvalue : ';' ∉ value)
      (hs : s.stream = pad ++ ((Phrase.leaf key gap value).text ++ t.stream)) :
      WasRead s t readNodes (leafOfText (keyOf key) (String.ofList (trimEnd value)))
  | placeholder {pad key : List Char} (hpad : AllBlank pad) (hkey : IsKey key)
      (hs : s.stream = pad ++ ((Phrase.placeholder key).text ++ t.stream)) :
      WasRead s t readNodes .placeholder
  | composite {pad : List Char} {body : Scanner.Section} {gap head : List Char} {u : Scanner}
      {hu : u.remaining < s.remaining} {nodes : List Node} (hpad : AllBlank pad)
      (hbody : Balanced '[' ']' body.text) (hgap : AllBlank gap) (hflush : Flush head)
      (hhead : ':' ∉ head) (hs : s.stream = pad ++ '[' :: (body.text ++ ']' :: t.stream))
      (hinside : body.scanner.stream = gap ++ (head ++ ':' :: u.stream))
      (hnodes : readNodes u hu = .ok nodes) :
      WasRead s t readNodes (composite (keyOf head) nodes)

theorem readWith_sound {node : Node}
    {readNodes : (u : Scanner) → u.remaining < s.remaining → Except Error (List Node)}
    (h : readWith .recursive s readNodes = (.ok node, t)) : WasRead s t readNodes node := by
  obtain ⟨pad, hpad, hs⟩ := s.stream_eq_skipBlank
  have hsplit : s.skipBlank.stream = (s.skipBlank.readUntilAny ['[', ':', ']'] false).1 ++
      (s.skipBlank.readUntilAny ['[', ':', ']'] false).2.stream :=
    s.skipBlank.stream_eq_readUntil _
  have hkey : IsKey (s.skipBlank.readUntilAny ['[', ':', ']'] false).1 := by
    refine ⟨s.flush_skipBlank.of_isPrefix ⟨_, hsplit.symm⟩, fun c hc => ?_⟩
    have := Scanner.not_stop_of_mem_readUntil hc
    simpa [keyStops] using this
  rw [hsplit] at hs
  -- the reader looks at the first of the characters that end a key
  simp only [readWith] at h
  split at h
  · simp at h
  · next cs hcs =>
    obtain ⟨hnode, rfl⟩ := Prod.mk.inj h
    obtain rfl := Except.ok.inj hnode
    refine .placeholder hpad hkey ?_
    rw [Scanner.stream_advance, hcs]
    rw [hcs] at hs
    rw [hs, Phrase.text, List.append_assoc]
    rfl
  · next cs hcs =>
    obtain ⟨gap, value, hgap, hflush, hvalue, hstream, rfl⟩ := readLeaf_sound h
    refine .leaf hpad hkey hgap hflush hvalue ?_
    rw [Scanner.stream_advance, hcs, List.drop_one, List.tail_cons] at hstream
    rw [hcs, hstream] at hs
    rw [hs]
    simp [Phrase.text]
  · next c cs hclosing hcolon hcs =>
    split at h
    · simp at h
    · next htrim =>
      split at h
      · simp at h
      · next body u hsection =>
        obtain ⟨hnode, rfl⟩ := Prod.mk.inj h
        obtain rfl : c = '[' := by
          have := Scanner.stop_of_head?_readUntil hcs
          simp only [List.mem_cons, List.not_mem_nil, or_false, decide_eq_true_eq] at this
          rcases this with rfl | rfl | rfl
          · rfl
          · exact absurd rfl hcolon
          · exact absurd rfl hclosing
        -- only blanks may stand in front of a bracket, and the key does not start with one
        have hlead : (s.skipBlank.readUntilAny ['[', ':', ']'] false).1 = [] :=
          (trim_eq_nil_iff.1 (not_not.1 htrim)).eq_nil_of_flush hkey.1
        obtain ⟨skipped, hskipped, hbody, hstream⟩ :=
          Scanner.findSection_sound (by decide) hsection
        obtain rfl : skipped = [] := by
          cases skipped with
          | nil => rfl
          | cons d ds =>
            obtain ⟨rfl, -⟩ := List.cons.inj (hcs.symm.trans hstream)
            simp at hskipped
        obtain ⟨gap, head, v, hv, nodes, hgap, hflush, hhead, hinside, hnodes, rfl⟩ :=
          readInside_sound hnode
        refine .composite hpad hbody hgap hflush hhead ?_ hinside hnodes
        rw [hs, hlead, hstream]
        rfl

/-! ### One success for each shape -/

theorem readLeaf_complete (key : List Char) (start : Position) {gap value rest : List Char}
    (hs : s.stream = gap ++ (value ++ ';' :: rest)) (hgap : AllBlank gap) (hflush : Flush value)
    (hvalue : ';' ∉ value) :
    ∃ t, readLeaf key start s =
      (.ok (leafOfText (keyOf key) (String.ofList (trimEnd value))), t) ∧ t.stream = rest := by
  have hskip := Scanner.skipBlank_of_stream hs hgap (flush_append_semicolon hflush rest)
  obtain ⟨u, hread, hu⟩ := Scanner.readUntil_of_stream (· = ';') hskip
    (fun c hc => by simpa using fun h : c = ';' => hvalue (h ▸ hc)) (by simp)
  obtain ⟨t, haccept, ht⟩ := Scanner.accept_of_stream hu
  exact ⟨t, by simp only [readLeaf, Scanner.readUntilChar, hread, haccept], ht⟩

theorem readInside_complete {gap head rest : List Char}
    (readNodes : (t : Scanner) → t.remaining ≤ s.remaining → Except Error (List Node))
    (hs : s.stream = gap ++ (head ++ ':' :: rest)) (hgap : AllBlank gap) (hflush : Flush head)
    (hhead : ':' ∉ head) :
    ∃ body hbody, body.stream = rest ∧ readInside .recursive s readNodes =
      (readNodes body hbody).map (composite (keyOf head)) := by
  have hskip := Scanner.skipBlank_of_stream hs hgap (flush_append_colon hflush rest)
  obtain ⟨u, hread, hu⟩ := Scanner.readUntil_of_stream (· = ':') hskip
    (fun c hc => by simpa using fun h : c = ':' => hhead (h ▸ hc)) (by simp)
  obtain ⟨t, haccept, ht⟩ := Scanner.accept_of_stream hu
  have hle : t.remaining ≤ s.remaining := by
    simp only [Scanner.remaining, ht, hs, List.length_append, List.length_cons]
    omega
  refine ⟨t, hle, ht, ?_⟩
  simp only [readInside, Scanner.readUntilChar, hread, haccept]

/-- The key of a node is read up to the character that decides what the node is. -/
theorem readUntilAny_of_isKey {pad key rest : List Char} {stop : Char} (hpad : AllBlank pad)
    (hkey : IsKey key) (hstop : stop ∈ keyStops) (hs : s.stream = pad ++ (key ++ stop :: rest)) :
    ∃ t, s.skipBlank.readUntilAny ['[', ':', ']'] false = (key, t) ∧ t.stream = stop :: rest := by
  have hflush : Flush (key ++ stop :: rest) :=
    hkey.1.append (flush_cons.2 (not_isBlank_of_mem_keyStops hstop))
  refine Scanner.readUntil_of_stream _ (Scanner.skipBlank_of_stream hs hpad hflush) ?_ ?_
  · intro c hc
    simpa [keyStops] using hkey.2 c hc
  · intro c hc
    obtain rfl : stop = c := by simpa using hc
    simpa [keyStops] using hstop

section

variable {readNodes : (u : Scanner) → u.remaining < s.remaining → Except Error (List Node)}
  {pad rest : List Char} {mode : ReadMode}

theorem readWith_leaf {key gap value : List Char} (hpad : AllBlank pad)
    (hp : (Phrase.leaf key gap value).Legal)
    (hs : s.stream = pad ++ ((Phrase.leaf key gap value).text ++ rest)) :
    ∃ t, readWith mode s readNodes = (.ok (Phrase.leaf key gap value).node, t) ∧
      t.stream = rest := by
  obtain ⟨hkey, hgap, hflush, hvalue⟩ := hp
  have hcolon : s.stream = pad ++ (key ++ ':' :: (gap ++ (value ++ ';' :: rest))) := by
    simpa [Phrase.text] using hs
  obtain ⟨u, hread, hu⟩ := readUntilAny_of_isKey hpad hkey (by decide) hcolon
  have htail : (u.advance 1).stream = gap ++ (value ++ ';' :: rest) := by
    rw [Scanner.stream_advance, hu]
    rfl
  obtain ⟨t, hleaf, ht⟩ := readLeaf_complete key s.skipBlank.position
    htail hgap hflush hvalue
  refine ⟨t, ?_, ht⟩
  simp only [readWith, hread]
  split
  · next h => simp [hu] at h
  · next h => simp [hu] at h
  · exact hleaf
  · next hcolon h =>
    rw [hu] at h
    exact absurd (List.cons.inj h).1.symm hcolon

theorem readWith_placeholder {key : List Char} (hpad : AllBlank pad) (hkey : IsKey key)
    (hs : s.stream = pad ++ ((Phrase.placeholder key).text ++ rest)) :
    ∃ t, readWith mode s readNodes = (.ok .placeholder, t) ∧ t.stream = rest := by
  have hclosing : s.stream = pad ++ (key ++ ']' :: rest) := by
    simpa [Phrase.text] using hs
  obtain ⟨u, hread, hu⟩ := readUntilAny_of_isKey hpad hkey (by decide) hclosing
  refine ⟨u.advance 1, ?_, by rw [Scanner.stream_advance, hu]; rfl⟩
  simp only [readWith, hread]
  split
  · next h => simp [hu] at h
  · rfl
  · next h => simp [hu] at h
  · next hclosing _ h =>
    rw [hu] at h
    exact absurd (List.cons.inj h).1.symm hclosing

variable (readNodes mode) in
/-- A balanced section is read by a scanner of its own. -/
theorem readWith_section {body : List Char} (hpad : AllBlank pad) (hbody : Balanced '[' ']' body)
    (hs : s.stream = pad ++ '[' :: (body ++ ']' :: rest)) :
    ∃ (origin : Position) (t : Scanner) (hlt : ∀ v : Scanner,
        v.remaining ≤ (Scanner.Section.scanner ⟨body, origin⟩).remaining →
          v.remaining < s.remaining),
      readWith mode s readNodes = (readInside mode (Scanner.Section.scanner ⟨body, origin⟩)
        fun v h => readNodes v (hlt v h), t) ∧ t.stream = rest := by
  obtain ⟨u, hread, hu⟩ := readUntilAny_of_isKey hpad isKey_nil (by decide) hs
  obtain ⟨origin, t, hsection, ht⟩ := Scanner.findSection_complete (by decide)
    List.not_mem_nil hbody hu
  -- whatever the reader of the section's nodes is given is shorter than the whole text
  have hlt : ∀ v : Scanner, v.remaining ≤ (Scanner.Section.scanner ⟨body, origin⟩).remaining →
      v.remaining < s.remaining := by
    intro v hv
    have h₁ := Scanner.remaining_scanner_lt hsection
    have h₂ : u.remaining ≤ s.remaining := by
      simp [Scanner.remaining, hu, hs]
    omega
  refine ⟨origin, t, hlt, ?_, ht⟩
  simp only [readWith, hread]
  split
  · next h => simp [hu] at h
  · next h => simp [hu] at h
  · next h => simp [hu] at h
  · have htrim : trim [] = [] := rfl
    simp only [htrim, ne_eq, not_true_eq_false, if_false]
    split
    · next h =>
      rw [hread, hsection] at h
      simp at h
    · next h =>
      rw [hread, hsection] at h
      obtain ⟨hsec, rfl⟩ := Prod.mk.inj h
      obtain rfl := Except.ok.inj hsec
      rfl

end

/-! ### Whole documents -/

/-- The reader of documents: a node, and the rest of the document behind it. -/
theorem readAll_eq (mode : ReadMode) (s : Scanner) :
    readAll mode s =
      if s.skipBlank.stream = [] then (.ok [], s.skipBlank)
      else
        match readWith mode s fun t _ => (readAll mode t).1 with
        | (.error e, t) => (.error e, t)
        | (.ok node, t) => ((readAll mode t).1.map (node :: ·), (readAll mode t).2) := by
  rw [readAll]
  simp only [List.isEmpty_iff]
  split
  · rfl
  · split <;> simp_all

end Node

namespace Grammar

/-- **Soundness**: whatever the reader accepts is the text of a legal tree, with its denotation. -/
theorem exists_document_of_readAll (s : Scanner) (hcr : '\r' ∉ s.stream) {nodes : List Node}
    (h : (Node.readAll .recursive s).1 = .ok nodes) :
    ∃ d : Document, d.Legal ∧ d.text = s.stream ∧ d.nodes = nodes := by
  -- both the scanner of a section and the one behind a node have less to read
  induction hn : s.remaining using Nat.strong_induction_on generalizing s nodes with
  | _ n ih =>
    subst hn
    rw [Node.readAll_eq] at h
    split at h
    · next hend =>
      obtain ⟨pad, hpad, hs⟩ := s.stream_eq_skipBlank
      refine ⟨.done pad, hpad, ?_, Except.ok.inj h⟩
      rw [hs, hend, List.append_nil]
      rfl
    · split at h
      · simp at h
      · next node t hread =>
        obtain ⟨others, hothers, rfl⟩ := map_eq_ok_iff.1 h
        have hlt := Node.remaining_readWith_lt hread
        cases Node.readWith_sound hread with
        | leaf hpad hkey hgap hflush hvalue hs =>
          obtain ⟨d, hd, htext, rfl⟩ := ih _ hlt t (by simp_all) hothers rfl
          refine ⟨.next _ (.leaf _ _ _) d, ⟨hpad, ⟨hkey, hgap, hflush, hvalue⟩, hd⟩, ?_, rfl⟩
          rw [hs, ← htext]
          rfl
        | placeholder hpad hkey hs =>
          obtain ⟨d, hd, htext, rfl⟩ := ih _ hlt t (by simp_all) hothers rfl
          refine ⟨.next _ (.placeholder _) d, ⟨hpad, hkey, hd⟩, ?_, rfl⟩
          rw [hs, ← htext]
          rfl
        | @composite _ body _ _ u hu _ hpad hbody hgap hflush hhead hs hinside hnodes =>
          obtain ⟨d, hd, htext, rfl⟩ := ih _ hlt t (by simp_all) hothers rfl
          -- the induction hypothesis is used twice: behind the section, and inside it
          rw [Scanner.stream_scanner _ (by simp_all)] at hinside
          have hcr' : '\r' ∉ endLine body.text := not_mem_endLine (by simp_all) (by decide)
          obtain ⟨e, he, hetext, rfl⟩ := ih _ hu u (by simp_all) hnodes rfl
          rw [← hetext] at hinside
          refine ⟨.next _ (.composite body.text _ _ e) d,
            ⟨hpad, ⟨hbody, hgap, hflush, hhead, he, hinside⟩, hd⟩, ?_, rfl⟩
          rw [hs, ← htext]
          simp [Document.text, Phrase.text]

mutual

/-- The reader accepts a phrase wherever it stands. -/
theorem Phrase.readWith_eq : ∀ {p : Phrase} {s : Scanner} {pad rest : List Char}, p.Legal →
    AllBlank pad → '\r' ∉ s.stream → s.stream = pad ++ (p.text ++ rest) →
    ∃ t, Node.read .recursive s = (.ok p.node, t) ∧ t.stream = rest
  | .leaf _ _ _, _, _, _, hp, hpad, _, hs => Node.readWith_leaf hpad hp hs
  | .placeholder _, _, _, _, hp, hpad, _, hs => Node.readWith_placeholder hpad hp hs
  | .composite body gap head inside, s, pad, rest, hp, hpad, hcr, hs => by
    obtain ⟨hbody, hgap, hflush, hhead, hinside, htext⟩ := hp
    obtain ⟨origin, t, hlt, hread, ht⟩ := Node.readWith_section
      (fun u _ => (Node.readAll .recursive u).1) .recursive hpad hbody
      (by simpa [Phrase.text] using hs)
    have hcr' : '\r' ∉ body := by simp_all [Phrase.text]
    obtain ⟨u, hu, hustream, hreadInside⟩ := Node.readInside_complete
      (fun v _ => (Node.readAll .recursive v).1)
      ((Scanner.stream_scanner ⟨body, origin⟩ hcr').trans htext) hgap hflush hhead
    have hcr'' : '\r' ∉ u.stream := by
      have := not_mem_endLine hcr' (by decide : '\r' ≠ '\n')
      rw [htext] at this
      simp_all
    refine ⟨t, ?_, ht⟩
    rw [Node.read, hread, hreadInside, Document.readAll_eq hinside hcr'' hustream]
    rfl

/-- **Completeness**: the reader accepts the text of a legal tree, with its denotation. -/
theorem Document.readAll_eq : ∀ {d : Document} {s : Scanner}, d.Legal → '\r' ∉ s.stream →
    s.stream = d.text → (Node.readAll .recursive s).1 = .ok d.nodes
  | .done pad, s, hd, _, hs => by
    have hpad : s.stream = pad ++ [] := by
      rw [hs, List.append_nil]
      rfl
    have hend : s.skipBlank.stream = [] := Scanner.skipBlank_of_stream hpad hd flush_nil
    rw [Node.readAll_eq, if_pos hend]
    rfl
  | .next pad first others, s, hd, hcr, hs => by
    obtain ⟨hpad, hfirst, hothers⟩ := hd
    have hskip := Scanner.skipBlank_of_stream hs hpad (Phrase.flush_text_append hfirst _)
    have hmore : s.skipBlank.stream ≠ [] := by
      simp [hskip, first.text_ne_nil]
    obtain ⟨t, hread, ht⟩ := Phrase.readWith_eq hfirst hpad hcr hs
    rw [Node.read] at hread
    rw [Node.readAll_eq, if_neg hmore, hread]
    simp only [Document.readAll_eq hothers (by simp_all [Document.text]) ht]
    rfl

end

end Grammar

namespace Node

theorem stream_ofString (text : String) :
    (Scanner.ofString text).stream = unifyLineEnds text.toList := rfl

theorem parseAll_of_document {text : String} {d : Document} (hd : d.Legal)
    (htext : d.text = unifyLineEnds text.toList) : parseAll text = .ok d.nodes := by
  have hcr : '\r' ∉ (Scanner.ofString text).stream := not_mem_unifyLineEnds _
  exact Document.readAll_eq hd hcr (by rw [stream_ofString, htext])

theorem exists_document_of_parseAll {text : String} {nodes : List Node}
    (h : parseAll text = .ok nodes) :
    ∃ d : Document, d.Legal ∧ d.text = unifyLineEnds text.toList ∧ d.nodes = nodes :=
  exists_document_of_readAll (Scanner.ofString text) (not_mem_unifyLineEnds _) h

/-- **The reader recognises an unambiguous grammar**: a text is read as some nodes exactly if it is
the text of a legal derivation tree that denotes them, and then it has no other tree. -/
theorem parseAll_eq_ok_iff (text : String) (nodes : List Node) :
    parseAll text = .ok nodes ↔
      ∃ d : Document, d.Legal ∧ d.text = unifyLineEnds text.toList ∧ d.nodes = nodes ∧
        ∀ e : Document, e.Legal → e.text = unifyLineEnds text.toList → e = d := by
  constructor
  · intro h
    obtain ⟨d, hd, htext, hnodes⟩ := exists_document_of_parseAll h
    exact ⟨d, hd, htext, hnodes, fun e he hetext => Document.ext_text he hd (hetext.trans htext.symm)⟩
  · rintro ⟨d, hd, htext, rfl, -⟩
    exact parseAll_of_document hd htext

end Node

end TreeScript
