import TreeScript.Proofs.Layout

/-!
# Printing and reading trees

Two kinds of trees are read back from what is printed: those that are well-formed by their keys and
scalars, and those that were read from some document, if every decimal number in them is finite and
the brackets in their keys and values are balanced where it matters.  That finite decimal numbers read
back is what the shortest digits are for; it is assumed of the numbers that occur.

- `Node.WellFormed`, `parseAll_render_of_wellFormed`: trees that were made.
- `everywhere_readAt`: what is known of a tree that was read.
- `parseAll_document_of_parseAll`: trees that were read; `exists_not_parseAll_document` shows that
  the condition on brackets is needed.
-/

namespace TreeScript

open Text Grammar

/-! ### Trees that were made -/

/-- A scalar that has no characters with a meaning in documents, and that is of the type that its
written form has.  Balanced brackets have no meaning. -/
def Scalar.WellFormed : Scalar → Prop
  | .text t => trim t.toList = t.toList ∧ ';' ∉ t.toList ∧ '\r' ∉ t.toList ∧
      Scalar.infer t = .text t ∧ Balanced '[' ']' t.toList
  | .integer _ => True
  | .decimal x => Number.isFinite x = true
  | .boolean _ => True

theorem Number.IsNumeral.balanced {cs : List Char} (h : Number.IsNumeral cs) :
    Balanced '[' ']' cs :=
  balanced_of_not_mem (h.not_mem (by decide)) (h.not_mem (by decide))

theorem Scalar.WellFormed.balanced {scalar : Scalar} (h : scalar.WellFormed) :
    Balanced '[' ']' scalar.written.toList := by
  cases scalar with
  | text t => exact h.2.2.2.2
  | integer n => exact (Number.isNumeral_toString n.toInt).balanced
  | decimal x =>
    rw [Scalar.written, Scalar.toList_decimalText]
    exact (Number.isDecimal_render h).isNumeral.balanced
  | boolean b =>
    cases b with
    | true => exact balanced_of_not_mem (by decide) (by decide)
    | false => exact balanced_of_not_mem (by decide) (by decide)

namespace Node

/-- A property of the decimal number of a leaf. -/
def DecimalAt (P : Float → Prop) : Node → Prop
  | leaf _ (.decimal x) => P x
  | _ => True

/-- Whether a float is read back from its text, if it is a finite number. -/
def FiniteReadsBack (x : Float) : Prop := Number.isFinite x = true → Number.ReadsBack x

/-- Whether the key and the scalar of a node have no characters with a meaning in documents, and its
children are in the strict order of their keys. -/
def WellFormedAt : Node → Prop
  | leaf key scalar => LegibleKey key ∧ (∀ c ∈ key.toList, c ∉ keyStops) ∧ scalar.WellFormed
  | branch key children => LegibleKey key ∧ (∀ c ∈ key.toList, c ∉ keyStops) ∧
      KeyedList.StrictlyOrdered children.items

/-- A tree whose nodes are all well-formed. -/
def WellFormed (n : Node) : Prop := n.Everywhere WellFormedAt

/-- Whether the brackets of a node's key and of its scalar are balanced. -/
def BalancedAt : Node → Prop
  | leaf key scalar => Balanced '[' ']' key.toList ∧ Balanced '[' ']' scalar.written.toList
  | branch key _ => Balanced '[' ']' key.toList

theorem WellFormed.balancedAt {n : Node} (h : n.WellFormed) : n.Everywhere BalancedAt := by
  have hbalanced : ∀ key : String, (∀ c ∈ key.toList, c ∉ keyStops) →
      Balanced '[' ']' key.toList := fun key hkey =>
    balanced_of_not_mem (fun hmem => hkey _ hmem (by decide))
      (fun hmem => hkey _ hmem (by decide))
  refine h.imp fun m hm => ?_
  cases m with
  | leaf key scalar => exact ⟨hbalanced key hm.2.1, hm.2.2.balanced⟩
  | branch key children => exact hbalanced key hm.2.1

theorem balanced_tabs (indent : Nat) : Balanced '[' ']' (List.replicate indent '\t') :=
  balanced_of_not_mem (by simp [List.mem_replicate]) (by simp [List.mem_replicate])

theorem balanced_inside {indent : Nat} {key : String} {children : List Node}
    (hkey : Balanced '[' ']' key.toList)
    (h : ∀ n ∈ children, Balanced '[' ']' (typeset (indent + 1) n.lines)) :
    Balanced '[' ']' (inside indent key children) := by
  have hcolon : Balanced '[' ']' [':', '\n'] :=
    balanced_of_not_mem (by decide) (by decide)
  have hlines : Balanced '[' ']' (typeset (indent + 1) (linesOfAll children)) := by
    induction children with
    | nil => exact balanced_of_not_mem (by simp [linesOfAll]) (by simp [linesOfAll])
    | cons n ns ih =>
      rw [linesOfAll, typeset_append]
      exact (h n (by simp)).append (ih fun m hm => h m (by simp [hm]))
  rw [inside]
  exact hkey.append
    (hcolon.append (hlines.append (balanced_tabs indent)))

/-- The lines of a node, taken together, are balanced if its keys and scalars are. -/
theorem balanced_lines {n : Node} (h : n.Everywhere BalancedAt) (indent : Nat) :
    Balanced '[' ']' (typeset indent n.lines) := by
  have hend : Balanced '[' ']' ['\n'] := balanced_of_not_mem (by decide) (by decide)
  rw [text_phrase]
  refine (balanced_tabs indent).append (Balanced.append ?_ hend)
  induction n using inductionOn generalizing indent with
  | leaf key scalar =>
    obtain ⟨hkey, hscalar⟩ := everywhere_leaf.1 h
    have hcolon : Balanced '[' ']' [':', ' '] :=
      balanced_of_not_mem (by decide) (by decide)
    have hsemicolon : Balanced '[' ']' [';'] :=
      balanced_of_not_mem (by decide) (by decide)
    exact hkey.append
      (hcolon.append (hscalar.append hsemicolon))
  | branch key children room ih =>
    obtain ⟨hkey, hchildren⟩ := everywhere_branch.1 h
    refine (balanced_inside hkey fun m hm => ?_).enclose
    rw [text_phrase]
    exact (balanced_tabs _).append
      ((ih m hm (hchildren m hm) (indent + 1)).append hend)

theorem legible_of_wellFormed {n : Node} (h : n.WellFormed)
    (hdecimals : n.Everywhere (DecimalAt FiniteReadsBack)) : n.Everywhere LegibleAt := by
  induction n using inductionOn with
  | leaf key scalar =>
    obtain ⟨hkey, hstops, hscalar⟩ := everywhere_leaf.1 h
    refine everywhere_leaf.2 ⟨hkey, hstops, ?_⟩
    cases scalar with
    | text t => exact ⟨hscalar.1, hscalar.2.1, hscalar.2.2.1, hscalar.2.2.2.1⟩
    | integer n => exact Scalar.legible_integer n
    | decimal x => exact Scalar.legible_decimal hscalar (everywhere_leaf.1 hdecimals hscalar)
    | boolean b => exact Scalar.legible_boolean b
  | branch key children room ih =>
    obtain ⟨⟨hkey, hstops, hordered⟩, hchildren⟩ := everywhere_branch.1 h
    obtain ⟨-, hdecimals⟩ := everywhere_branch.1 hdecimals
    -- what is left is that the brackets inside are balanced, which keys and scalars decide
    refine everywhere_branch.2 ⟨⟨hkey, fun hcolon => hstops _ hcolon (by decide), hordered, ?_⟩,
      fun m hm => ih m hm (hchildren m hm) (hdecimals m hm)⟩
    obtain ⟨hbalanced, hbelow⟩ := everywhere_branch.1 (WellFormed.balancedAt h)
    exact balanced_inside hbalanced fun m hm => balanced_lines (hbelow m hm) 1

/-- **Well-formed trees are read back**: what is read from printed well-formed trees, at any
indentation, is what they hold, truth values as words. -/
theorem parseAll_render_of_wellFormed {ns : List Node} (h : ∀ n ∈ ns, n.WellFormed)
    (hdecimals : ∀ n ∈ ns, n.Everywhere (DecimalAt FiniteReadsBack)) (indent : Nat) :
    ∃ ms, parseAll (String.join (ns.map (·.render indent ++ "\n"))) = .ok ms ∧
      ms.map content = ns.map (contentWith Scalar.asRead) :=
  parseAll_render (fun n hn => legible_of_wellFormed (h n hn) (hdecimals n hn)) indent

/-- A float for examples, whose text is `2.5`. -/
theorem readsBack_sample : Number.isFinite 2.5 = true ∧ Number.ReadsBack 2.5 := by with_unfolding_all decide

theorem parseAll_render_of_wellFormed_sample :
    ∃ ms, parseAll (String.join ([branch "pump" ⟨[leaf "label" (.text "[a] b"),
        leaf "on" (.boolean true), leaf "rate" (.decimal 2.5)], 4⟩].map (·.render 1 ++ "\n"))) =
          .ok ms ∧
      ms.map content = [branch "pump" ⟨[leaf "label" (.text "[a] b"),
        leaf "on" (.boolean true), leaf "rate" (.decimal 2.5)], 4⟩].map
          (contentWith Scalar.asRead) := by
  have hkeys : ["pump", "label", "on", "rate"].all (fun key => decide (LegibleKey key) &&
      key.toList.all (· ∉ keyStops)) = true := by decide
  have hkey : ∀ key ∈ ["pump", "label", "on", "rate"], LegibleKey key ∧
      ∀ c ∈ key.toList, c ∉ keyStops := fun key h => by
    simpa using List.all_eq_true.1 hkeys key h
  have hlabel : (Scalar.text "[a] b").WellFormed :=
    ⟨by decide, by decide, by decide, rfl, (balanced_iff_depth? (by decide)).2 (by decide)⟩
  have hrate : (Scalar.decimal 2.5).WellFormed := readsBack_sample.1
  have hreads : FiniteReadsBack 2.5 := fun _ => readsBack_sample.2
  refine parseAll_render_of_wellFormed (List.forall_mem_singleton.2 ?_)
    (List.forall_mem_singleton.2 ?_) 1
  · refine everywhere_branch.2 ⟨⟨(hkey _ (by simp)).1, (hkey _ (by simp)).2, ?_⟩, ?_⟩
    · simp only [KeyedList.StrictlyOrdered, Keyed.key]
      decide
    · simp only [List.forall_mem_cons, everywhere_leaf]
      exact ⟨⟨(hkey _ (by simp)).1, (hkey _ (by simp)).2, hlabel⟩,
        ⟨(hkey _ (by simp)).1, (hkey _ (by simp)).2, trivial⟩,
        ⟨(hkey _ (by simp)).1, (hkey _ (by simp)).2, hrate⟩, by simp⟩
  · refine everywhere_branch.2 ⟨trivial, ?_⟩
    simp only [List.forall_mem_cons, everywhere_leaf]
    exact ⟨trivial, trivial, hreads, by simp⟩

end Node

/-! ### Trees that were read -/

namespace Scalar

/-- What is known of a scalar that was read: it was inferred from a value of a leaf. -/
def WasInferred (scalar : Scalar) : Prop :=
  ∃ value, trim value = value ∧ ';' ∉ value ∧ '\r' ∉ value ∧ scalar = infer (String.ofList value)

/-- What is inferred to be a text is the text as it was written. -/
theorem eq_of_infer_eq_text {written t : String} (h : infer written = .text t) : t = written := by
  simp only [infer] at h
  split at h
  · simp at h
  · simp at h
  · exact (Scalar.text.inj h).symm

theorem infer_ne_boolean {written : String} {b : Bool} : infer written ≠ .boolean b := by
  simp only [infer]
  split <;> simp

/-- A scalar that was read is read again from what is written, if it is no infinite number. -/
theorem WasInferred.legible {scalar : Scalar} (h : scalar.WasInferred)
    (hdecimal : ∀ x, scalar = .decimal x → Number.isFinite x = true ∧ Number.ReadsBack x) :
    scalar.Legible := by
  obtain ⟨value, htrim, hsemicolon, hreturn, hinfer⟩ := h
  cases scalar with
  | text t =>
    obtain rfl := eq_of_infer_eq_text hinfer.symm
    refine ⟨?_, ?_, ?_, hinfer.symm⟩
    · rw [written, String.toList_ofList, htrim]
    · rwa [written, String.toList_ofList]
    · rwa [written, String.toList_ofList]
  | integer n => exact legible_integer n
  | decimal x => exact legible_decimal (hdecimal x rfl).1 (hdecimal x rfl).2
  | boolean b => exact absurd hinfer.symm infer_ne_boolean

theorem WasInferred.asRead_eq {scalar : Scalar} (h : scalar.WasInferred) :
    scalar.asRead = scalar := by
  obtain ⟨value, -, -, -, hinfer⟩ := h
  cases scalar with
  | boolean b => exact absurd hinfer.symm infer_ne_boolean
  | _ => rfl

end Scalar

namespace Node

/-- What is known of a node that was read, apart from the nodes below it. -/
def ReadAt : Node → Prop
  | leaf key scalar => LegibleKey key ∧ (∀ c ∈ key.toList, c ∉ keyStops) ∧ scalar.WasInferred
  | branch key children =>
    LegibleKey key ∧ ':' ∉ key.toList ∧ KeyedList.StrictlyOrdered children.items

theorem legibleKey_keyOf {cs : List Char} (h : '\r' ∉ cs) : LegibleKey (keyOf cs) where
  trim_eq := by rw [keyOf, String.toList_ofList, trim_trim]
  carriageReturn := by
    rw [keyOf, String.toList_ofList]
    exact fun hmem => h (mem_of_mem_trim hmem)

theorem not_mem_keyStops_of_mem_keyOf {cs : List Char} (h : IsKey cs) :
    ∀ c ∈ (keyOf cs).toList, c ∉ keyStops := by
  rw [keyOf, String.toList_ofList]
  exact fun c hc => h.2 c (mem_of_mem_trim hc)

end Node

namespace Grammar

open Node

mutual

/-- What a legal phrase denotes could have been read. -/
theorem Phrase.everywhere_readAt : ∀ {p : Phrase}, p.Legal → '\r' ∉ p.text →
    p.node.Everywhere ReadAt
  | .leaf key gap value, hp, hreturn => by
    obtain ⟨hkey, -, hflush, hsemicolon⟩ := hp
    simp only [Phrase.text, List.mem_append, List.mem_cons, not_or] at hreturn
    have hsub : ∀ c ∈ trimEnd value, c ∈ value := fun c hc => (trimEnd_isPrefix value).mem hc
    exact everywhere_leaf.2 ⟨legibleKey_keyOf hreturn.1, not_mem_keyStops_of_mem_keyOf hkey,
      trimEnd value, trim_trimEnd_of_flush hflush, fun h => hsemicolon (hsub _ h),
      fun h => hreturn.2.2.2.1 (hsub _ h), rfl⟩
  | .placeholder key, _, _ => by
    exact everywhere_leaf.2 ⟨⟨rfl, by decide⟩, by simp, [], rfl, by decide, by decide, rfl⟩
  | .composite body pad head inside, hp, hreturn => by
    obtain ⟨-, -, -, hcolon, hinside, hbody⟩ := hp
    -- the inside of a section has no carriage returns either, with its last line ended
    have hreturn' : '\r' ∉ pad ++ (head ++ ':' :: inside.text) := by
      rw [← hbody]
      exact not_mem_endLine (by simp_all [Phrase.text]) (by decide)
    simp only [List.mem_append, List.mem_cons, not_or] at hreturn'
    have hall := Document.everywhere_readAt hinside hreturn'.2.2.2
    refine everywhere_branch.2 ⟨⟨legibleKey_keyOf hreturn'.2.1, ?_, ?_⟩, fun n hn => ?_⟩
    · rw [keyOf, String.toList_ofList]
      exact fun hmem => hcolon (mem_of_mem_trim hmem)
    · have hempty : KeyedList.StrictlyOrdered (KeyedList.empty : KeyedList Node).items := .nil
      exact KeyedList.strictlyOrdered_replaceAll hempty inside.nodes
    · have hmem : n ∈ (KeyedList.empty.replaceAll inside.nodes).items := hn
      rcases KeyedList.mem_of_mem_replaceAll hmem with hn | hn
      · exact hall n hn
      · exact absurd hn List.not_mem_nil

/-- What a legal document denotes could have been read. -/
theorem Document.everywhere_readAt : ∀ {d : Document}, d.Legal → '\r' ∉ d.text →
    ∀ n ∈ d.nodes, n.Everywhere ReadAt
  | .done _, _, _, _, h => absurd h List.not_mem_nil
  | .next pad first others, hd, hreturn, n, hn => by
    obtain ⟨-, hfirst, hothers⟩ := hd
    simp only [Document.text, List.mem_append, not_or] at hreturn
    rcases List.mem_cons.1 hn with rfl | hn
    · exact Phrase.everywhere_readAt hfirst hreturn.2.1
    · exact Document.everywhere_readAt hothers hreturn.2.2 n hn

end

end Grammar

namespace Node

/-- Whether the canonical text of a composite node is one section, so that its brackets are those
that the reader takes for them. -/
def IsSection (n : Node) : Prop :=
  n.isComposite = true → ∃ body, n.written.toList = '[' :: (body ++ [']']) ∧ Balanced '[' ']' body

theorem toList_written (n : Node) : n.written.toList = (phrase 0 n).text := by
  have h : (n.written ++ "\n").toList = typeset 0 n.lines := toList_render n 0
  have hend : ("\n" : String).toList = ['\n'] := rfl
  rw [text_phrase, String.toList_append, hend, List.replicate_zero, List.nil_append] at h
  exact List.append_cancel_right h

theorem balanced_inside_of_isSection {key : String} {children : List Node} {room : Nat}
    (h : (branch key ⟨children, room⟩).IsSection) : Balanced '[' ']' (inside 0 key children) := by
  obtain ⟨body, htext, hbody⟩ := h rfl
  rw [toList_written, phrase, Phrase.text] at htext
  rwa [List.append_cancel_right (List.cons.inj htext).2]

/-- Only a key or a value whose brackets are not balanced can take a section apart. -/
theorem everywhere_isSection {n : Node} (h : n.Everywhere BalancedAt) : n.Everywhere IsSection := by
  induction n using inductionOn with
  | leaf key scalar => exact everywhere_leaf.2 fun hcomposite => absurd hcomposite Bool.false_ne_true
  | branch key children room ih =>
    obtain ⟨hkey, hchildren⟩ := everywhere_branch.1 h
    refine everywhere_branch.2 ⟨fun _ => ⟨inside 0 key children, toList_written _, ?_⟩,
      fun m hm => ih m hm (hchildren m hm)⟩
    exact balanced_inside hkey fun m hm => balanced_lines (hchildren m hm) 1

theorem legible_of_readAt {n : Node} (h : n.Everywhere ReadAt)
    (hfinite : n.Everywhere (DecimalAt fun x => Number.isFinite x = true))
    (hsection : n.Everywhere IsSection)
    (hdecimals : n.Everywhere (DecimalAt FiniteReadsBack)) : n.Everywhere LegibleAt := by
  induction n using inductionOn with
  | leaf key scalar =>
    obtain ⟨hkey, hstops, hscalar⟩ := everywhere_leaf.1 h
    refine everywhere_leaf.2 ⟨hkey, hstops, hscalar.legible ?_⟩
    rintro x rfl
    have hx := everywhere_leaf.1 hfinite
    exact ⟨hx, everywhere_leaf.1 hdecimals hx⟩
  | branch key children room ih =>
    obtain ⟨⟨hkey, hcolon, hordered⟩, hchildren⟩ := everywhere_branch.1 h
    obtain ⟨-, hfinite⟩ := everywhere_branch.1 hfinite
    obtain ⟨hbody, hsection⟩ := everywhere_branch.1 hsection
    obtain ⟨-, hdecimals⟩ := everywhere_branch.1 hdecimals
    exact everywhere_branch.2
      ⟨⟨hkey, hcolon, hordered, balanced_inside_of_isSection hbody⟩, fun m hm =>
        ih m hm (hchildren m hm) (hfinite m hm) (hsection m hm) (hdecimals m hm)⟩

theorem contentWith_asRead_of_readAt {n : Node} (h : n.Everywhere ReadAt) :
    n.contentWith Scalar.asRead = n.content := by
  induction n using inductionOn with
  | leaf key scalar =>
    obtain ⟨-, -, hscalar⟩ := everywhere_leaf.1 h
    rw [content, contentWith_leaf, contentWith_leaf, hscalar.asRead_eq]
    rfl
  | branch key children room ih =>
    obtain ⟨-, hchildren⟩ := everywhere_branch.1 h
    rw [content, contentWith_branch, contentWith_branch,
      List.map_congr_left fun m hm => ih m hm (hchildren m hm)]
    rfl

/-- **Canonical documents are faithful**: what was read from a document is read again from its
canonical form, if no number overflowed and each composite node is printed as one section. -/
theorem parseAll_document_of_parseAll {text : String} {ns : List Node}
    (h : parseAll text = .ok ns)
    (hfinite : ∀ n ∈ ns, n.Everywhere (DecimalAt fun x => Number.isFinite x = true))
    (hsection : ∀ n ∈ ns, n.Everywhere IsSection)
    (hdecimals : ∀ n ∈ ns, n.Everywhere (DecimalAt FiniteReadsBack)) :
    ∃ ms, parseAll (document ns) = .ok ms ∧ ms.map content = ns.map content := by
  obtain ⟨d, hd, htext, rfl⟩ := exists_document_of_parseAll h
  have hread : ∀ n ∈ d.nodes, n.Everywhere ReadAt :=
    Document.everywhere_readAt hd (htext ▸ not_mem_unifyLineEnds _)
  obtain ⟨ms, hms, hcontent⟩ := parseAll_render (fun n hn =>
    legible_of_readAt (hread n hn) (hfinite n hn) (hsection n hn) (hdecimals n hn)) 0
  refine ⟨ms, hms, hcontent.trans ?_⟩
  exact List.map_congr_left fun n hn => contentWith_asRead_of_readAt (hread n hn)

theorem parseAll_document_of_parseAll_sample :
    ∃ ms, parseAll (document [branch "k" ⟨[leaf "a" (.text "[x]"), leaf "b" (.decimal 2.5)], 16⟩]) =
        .ok ms ∧
      ms.map content =
        [branch "k" ⟨[leaf "a" (.text "[x]"), leaf "b" (.decimal 2.5)], 16⟩].map content := by
  have hread : parseAll "[k: b: 2.5; a: [x];]" =
      .ok [branch "k" ⟨[leaf "a" (.text "[x]"), leaf "b" (.decimal 2.5)], 16⟩] := by
    with_unfolding_all rfl
  have hfinite : (Scalar.decimal 2.5).WellFormed := readsBack_sample.1
  have hreads : FiniteReadsBack 2.5 := fun _ => readsBack_sample.2
  have hbalanced : ∀ cs ∈ ["k".toList, "a".toList, "[x]".toList, "b".toList], Balanced '[' ']' cs := by
    simp only [balanced_iff_depth? (by decide : '[' ≠ ']')]
    decide
  refine parseAll_document_of_parseAll hread (List.forall_mem_singleton.2 ?_)
    (List.forall_mem_singleton.2 (everywhere_isSection ?_)) (List.forall_mem_singleton.2 ?_)
  · refine everywhere_branch.2 ⟨trivial, ?_⟩
    simp only [List.forall_mem_cons, everywhere_leaf]
    exact ⟨trivial, hfinite, by simp⟩
  · refine everywhere_branch.2 ⟨hbalanced _ (by simp), ?_⟩
    simp only [List.forall_mem_cons, everywhere_leaf]
    exact ⟨⟨hbalanced _ (by simp), hbalanced _ (by simp [Scalar.written])⟩,
      ⟨hbalanced _ (by simp), hfinite.balanced⟩, by simp⟩
  · refine everywhere_branch.2 ⟨trivial, ?_⟩
    simp only [List.forall_mem_cons, everywhere_leaf]
    exact ⟨trivial, hreads, by simp⟩

/-- Children in the order of their keys can take the brackets of a section apart. -/
theorem exists_not_parseAll_document :
    ¬ ∀ text ns, parseAll text = .ok ns →
      ∃ ms, parseAll (document ns) = .ok ms ∧ ms.map content = ns.map content := by
  have hrejected : (match parseAll "[k: b: [; a: ];]" with
      | .ok ns => (parseAll (document ns)).isOk
      | .error _ => true) = false := by with_unfolding_all rfl
  intro h
  cases hparse : parseAll "[k: b: [; a: ];]" with
  | error e => simp [hparse] at hrejected
  | ok ns =>
    obtain ⟨ms, hms, -⟩ := h _ _ hparse
    rw [hparse] at hrejected
    simp [hms, Except.isOk, Except.toBool] at hrejected

end Node

end TreeScript
