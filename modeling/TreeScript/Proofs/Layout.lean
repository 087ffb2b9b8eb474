import TreeScript.Proofs.Content
import TreeScript.Proofs.Numerals
import TreeScript.Proofs.Recognition

/-!
# Printed trees in the grammar

A printed tree is a document of the grammar.  Its derivation tree is computed from the tree that was
printed; it is legal if the tree is legible, which is to say that no key and no scalar holds a
character that ends it, and that the printed children of each composite node are balanced.

- `Scalar.Legible`, `Node.LegibleAt`: what the reader needs to find a scalar or a node again.
- `Node.typeset`: lines behind tabs, as characters; `toList_render` puts the printer in this form.
- `Node.phrase`, `Node.tree`: the derivation tree of what is printed, with `text_tree`,
  `legal_tree` and `contentWith_nodes_tree`.
-/

namespace TreeScript

open Text Grammar

/-! ### Scalars -/

namespace Scalar

/-- A scalar as it is read again: a truth value is written as a word. -/
def asRead : Scalar → Scalar
  | boolean b => text (if b then "true" else "false")
  | scalar => scalar

/-- A scalar whose written form fits into a leaf and stands for the scalar. -/
structure Legible (scalar : Scalar) : Prop where
  trim_eq : trim scalar.written.toList = scalar.written.toList
  semicolon : ';' ∉ scalar.written.toList
  carriageReturn : '\r' ∉ scalar.written.toList
  infer_eq : infer scalar.written = scalar.asRead

theorem legible_integer (n : Int64) : (integer n).Legible where
  trim_eq := (Number.isNumeral_toString _).trim_eq
  semicolon := (Number.isNumeral_toString _).not_mem (by decide)
  carriageReturn := (Number.isNumeral_toString _).not_mem (by decide)
  infer_eq := infer_integer n

theorem legible_decimal {x : Float} (hx : Number.isFinite x = true) (h : Number.ReadsBack x) :
    (decimal x).Legible where
  trim_eq := by
    rw [written, toList_decimalText]
    exact (Number.isDecimal_render hx).isNumeral.trim_eq
  semicolon := by
    rw [written, toList_decimalText]
    exact (Number.isDecimal_render hx).isNumeral.not_mem (by decide)
  carriageReturn := by
    rw [written, toList_decimalText]
    exact (Number.isDecimal_render hx).isNumeral.not_mem (by decide)
  infer_eq := infer_decimalText hx h

theorem legible_boolean (b : Bool) : (boolean b).Legible := by
  cases b with
  | true => exact ⟨by decide, by decide, by decide, rfl⟩
  | false => exact ⟨by decide, by decide, by decide, rfl⟩

end Scalar

namespace Node

/-! ### Lines behind tabs -/

/-- Lines behind a number of tabs, each with a line end. -/
def typeset (indent : Nat) (ls : List String) : List Char :=
  ls.flatMap fun line => List.replicate indent '\t' ++ (line.toList ++ ['\n'])

@[simp] theorem typeset_nil (indent : Nat) : typeset indent [] = [] := rfl

@[simp] theorem typeset_cons (indent : Nat) (line : String) (ls : List String) :
    typeset indent (line :: ls) =
      List.replicate indent '\t' ++ (line.toList ++ '\n' :: typeset indent ls) := by
  simp [typeset]

@[simp] theorem typeset_append (indent : Nat) (ls ms : List String) :
    typeset indent (ls ++ ms) = typeset indent ls ++ typeset indent ms :=
  List.flatMap_append

/-- One tab in front of each line is one step of indentation. -/
theorem typeset_tab (indent : Nat) (ls : List String) :
    typeset indent (ls.map ("\t" ++ ·)) = typeset (indent + 1) ls := by
  induction ls with
  | nil => rfl
  | cons line ls ih =>
    have htab : ("\t" : String).toList = ['\t'] := rfl
    rw [List.map_cons, typeset_cons, typeset_cons, ih, String.toList_append, htab,
      List.replicate_succ']
    simp

theorem toList_tabs (indent : Nat) : (tabs indent).toList = List.replicate indent '\t' := by
  simp [tabs]

theorem toList_unlines {ls : List String} (h : ls ≠ []) :
    ("\n".intercalate ls ++ "\n").toList = ls.flatMap fun line => line.toList ++ ['\n'] := by
  have hend : ("\n" : String).toList = ['\n'] := rfl
  induction ls with
  | nil => exact absurd rfl h
  | cons line ls ih =>
    by_cases hls : ls = []
    · simp [hls, hend]
    · rw [String.intercalate_cons_of_ne_nil hls, String.append_assoc, String.toList_append, ih hls,
        String.toList_append, hend, List.flatMap_cons]

/-- A printed node with a line end is its lines behind tabs. -/
theorem toList_render (n : Node) (indent : Nat) :
    (n.render indent ++ "\n").toList = typeset indent n.lines := by
  rw [render, toList_unlines (by simpa using n.lines_ne_nil), List.flatMap_map, typeset]
  simp [toList_tabs]

/-- Printed nodes, each with a line end, are the lines of all of them behind tabs. -/
theorem toList_join_render (ns : List Node) (indent : Nat) :
    (String.join (ns.map (·.render indent ++ "\n"))).toList = typeset indent (linesOfAll ns) := by
  rw [String.toList_join, List.flatMap_map, linesOfAll_eq]
  induction ns with
  | nil => rfl
  | cons n ns ih => rw [List.flatMap_cons, List.flatMap_cons, typeset_append, ih, toList_render]

/-! ### The derivation tree of a printed tree -/

/-- What stands between the brackets of a printed composite node. -/
def inside (indent : Nat) (key : String) (children : List Node) : List Char :=
  key.toList ++ ':' :: '\n' ::
    (typeset (indent + 1) (linesOfAll children) ++ List.replicate indent '\t')

/-- The blanks in front of the closing bracket, as the reader of the section sees them. -/
def closing (indent : Nat) : List Char :=
  if indent = 0 then [] else List.replicate indent '\t' ++ ['\n']

mutual

/-- How a printed node is derived. -/
def phrase (indent : Nat) : Node → Phrase
  | leaf key scalar => .leaf key.toList [' '] scalar.written.toList
  | branch key ⟨children, _⟩ =>
    .composite (inside indent key children) [] key.toList
      (tree (indent + 1) ['\n'] (closing indent) children)

/-- How printed nodes are derived, with blanks in front of them and behind them. -/
def tree (indent : Nat) (lead tail : List Char) : List Node → Document
  | [] => .done (lead ++ tail)
  | n :: ns => .next (lead ++ List.replicate indent '\t') (phrase indent n) (tree indent ['\n'] tail ns)

end

theorem text_phrase (indent : Nat) (n : Node) :
    typeset indent n.lines = List.replicate indent '\t' ++ ((phrase indent n).text ++ ['\n']) := by
  cases n with
  | leaf key scalar =>
    have hcolon : (": " : String).toList = [':', ' '] := rfl
    have hend : (";" : String).toList = [';'] := rfl
    simp [lines, phrase, Phrase.text, hcolon, hend]
  | branch key children =>
    have hopen : ("[" : String).toList = ['['] := rfl
    have hcolon : (":" : String).toList = [':'] := rfl
    have hclose : ("]" : String).toList = [']'] := rfl
    simp [lines, phrase, Phrase.text, inside, typeset_tab, hopen, hcolon, hclose]

theorem text_tree (indent : Nat) (lead tail : List Char) (ns : List Node) :
    (tree indent lead tail ns).text = lead ++ (typeset indent (linesOfAll ns) ++ tail) := by
  induction ns generalizing lead with
  | nil => rfl
  | cons n ns ih =>
    rw [tree, Document.text, ih, linesOfAll, typeset_append, text_phrase]
    simp

/-- Lines end their last line. -/
theorem typeset_eq_nil_or_append (indent : Nat) (ls : List String) :
    typeset indent ls = [] ∨ ∃ front, typeset indent ls = front ++ ['\n'] := by
  rcases List.eq_nil_or_concat ls with rfl | ⟨front, line, rfl⟩
  · exact Or.inl rfl
  · exact Or.inr ⟨typeset indent front ++ (List.replicate indent '\t' ++ line.toList), by simp⟩

theorem endLine_typeset (indent : Nat) (ls : List String) :
    endLine (typeset indent ls) = typeset indent ls := by
  rcases typeset_eq_nil_or_append indent ls with h | ⟨front, h⟩
  · rw [h]
    rfl
  · rw [h, endLine_append_lineFeed]

/-- The reader of a section sees what stands between the brackets with its last line ended. -/
theorem endLine_inside (indent : Nat) (key : String) (children : List Node) :
    endLine (inside indent key children) =
      key.toList ++ ':' :: (tree (indent + 1) ['\n'] (closing indent) children).text := by
  rw [text_tree, inside]
  cases indent with
  | zero =>
    -- the text ends with a line already: the last one of the children, or the one of the key
    obtain ⟨front, hfront⟩ : ∃ front, '\n' :: typeset 1 (linesOfAll children) = front ++ ['\n'] := by
      rcases typeset_eq_nil_or_append 1 (linesOfAll children) with h | ⟨front, h⟩
      · exact ⟨[], by rw [h]; rfl⟩
      · exact ⟨'\n' :: front, by rw [h]; rfl⟩
    have hinside : key.toList ++ ':' :: '\n' :: (typeset 1 (linesOfAll children) ++
        List.replicate 0 '\t') = (key.toList ++ ':' :: front) ++ ['\n'] := by
      simp [hfront]
    rw [Nat.zero_add, hinside, endLine_append_lineFeed]
    simp [closing, hfront]
  | succ indent =>
    -- behind the last line there are tabs, which end no line
    have hinside : key.toList ++ ':' :: '\n' :: (typeset (indent + 1 + 1) (linesOfAll children) ++
        List.replicate (indent + 1) '\t') = (key.toList ++ ':' :: '\n' ::
          (typeset (indent + 1 + 1) (linesOfAll children) ++ List.replicate indent '\t')) ++
            ['\t'] := by
      simp [List.replicate_succ']
    rw [hinside, endLine_concat (by decide)]
    simp [closing, List.replicate_succ']

theorem nodes_tree (indent : Nat) (lead tail : List Char) (ns : List Node) :
    (tree indent lead tail ns).nodes = ns.map fun n => (phrase indent n).node := by
  induction ns generalizing lead with
  | nil => rfl
  | cons n ns ih => rw [tree, Document.nodes, ih, List.map_cons]

/-! ### Legible trees -/

/-- A key without outer blanks and carriage returns. -/
structure LegibleKey (key : String) : Prop where
  trim_eq : trim key.toList = key.toList
  carriageReturn : '\r' ∉ key.toList

instance (key : String) : Decidable (LegibleKey key) :=
  decidable_of_iff (trim key.toList = key.toList ∧ '\r' ∉ key.toList)
    ⟨fun h => ⟨h.1, h.2⟩, fun h => ⟨h.trim_eq, h.carriageReturn⟩⟩

/-- What the reader needs to find a node again, apart from the nodes below it.  The key of a composite
node may have brackets, as long as what stands between those of the node is balanced. -/
def LegibleAt : Node → Prop
  | leaf key scalar => LegibleKey key ∧ (∀ c ∈ key.toList, c ∉ keyStops) ∧ scalar.Legible
  | branch key children => LegibleKey key ∧ ':' ∉ key.toList ∧
      KeyedList.StrictlyOrdered children.items ∧ Balanced '[' ']' (inside 0 key children.items)

theorem LegibleKey.flush {key : String} (h : LegibleKey key) : Flush key.toList :=
  (trim_eq_self_iff.1 h.trim_eq).1

theorem LegibleKey.keyOf_eq {key : String} (h : LegibleKey key) : keyOf key.toList = key := by
  rw [keyOf, h.trim_eq, String.ofList_toList]

/-- Tabs and line ends are no delimiters. -/
theorem delimiters_typeset (indent : Nat) (ls : List String) :
    delimiters '[' ']' (typeset indent ls) = ls.flatMap fun line => delimiters '[' ']' line.toList := by
  have htabs : delimiters '[' ']' (List.replicate indent '\t') = [] :=
    delimiters_of_not_mem (by simp [List.mem_replicate]) (by simp [List.mem_replicate])
  have hend : delimiters '[' ']' ['\n'] = [] := rfl
  induction ls with
  | nil => rfl
  | cons line ls ih =>
    rw [typeset_cons, List.append_cons, delimiters_append, delimiters_append, delimiters_append,
      htabs, hend, ih, List.flatMap_cons]
    simp

/-- The indentation of a composite node does not matter for the balance of its inside. -/
theorem balanced_inside_iff (indent : Nat) (key : String) (children : List Node) :
    Balanced '[' ']' (inside indent key children) ↔ Balanced '[' ']' (inside 0 key children) := by
  have hinside : ∀ i, delimiters '[' ']' (inside i key children) =
      delimiters '[' ']' key.toList ++
        (linesOfAll children).flatMap fun line => delimiters '[' ']' line.toList := by
    intro i
    have htabs : delimiters '[' ']' (List.replicate i '\t') = [] :=
      delimiters_of_not_mem (by simp [List.mem_replicate]) (by simp [List.mem_replicate])
    have hcolon : delimiters '[' ']' [':', '\n'] = [] := rfl
    have hsplit : inside i key children = key.toList ++ ([':', '\n'] ++
        (typeset (i + 1) (linesOfAll children) ++ List.replicate i '\t')) := rfl
    rw [hsplit, delimiters_append, delimiters_append, delimiters_append, delimiters_typeset, htabs,
      hcolon]
    simp
  exact balanced_congr (by rw [hinside, hinside])

theorem legal_tree_of_forall {indent : Nat} {lead tail : List Char} {ns : List Node}
    (hlead : AllBlank lead) (htail : AllBlank tail) (h : ∀ n ∈ ns, (phrase indent n).Legal) :
    (tree indent lead tail ns).Legal := by
  induction ns generalizing lead with
  | nil => exact allBlank_append.2 ⟨hlead, htail⟩
  | cons n ns ih =>
    exact ⟨allBlank_append.2 ⟨hlead, allBlank_replicate_tab indent⟩, h n (by simp),
      ih allBlank_lineFeed fun m hm => h m (by simp [hm])⟩

theorem allBlank_closing (indent : Nat) : AllBlank (closing indent) := by
  rw [closing]
  split
  · exact allBlank_nil
  · exact allBlank_append.2 ⟨allBlank_replicate_tab indent, allBlank_lineFeed⟩

/-- The derivation tree of a legible node is legal. -/
theorem legal_phrase {n : Node} (h : n.Everywhere LegibleAt) (indent : Nat) :
    (phrase indent n).Legal := by
  induction n using inductionOn generalizing indent with
  | leaf key scalar =>
    obtain ⟨hkey, hstops, hscalar⟩ := everywhere_leaf.1 h
    exact ⟨⟨hkey.flush, hstops⟩, allBlank_space, (trim_eq_self_iff.1 hscalar.trim_eq).1, hscalar.semicolon⟩
  | branch key children room ih =>
    obtain ⟨⟨hkey, hcolon, -, hbalanced⟩, hchildren⟩ := everywhere_branch.1 h
    refine ⟨(balanced_inside_iff indent key children).2 hbalanced, allBlank_nil, hkey.flush, hcolon,
      ?_, endLine_inside indent key children⟩
    exact legal_tree_of_forall allBlank_lineFeed (allBlank_closing indent)
      fun m hm => ih m hm (hchildren m hm) (indent + 1)

theorem legal_tree {ns : List Node} (h : ∀ n ∈ ns, n.Everywhere LegibleAt) {lead tail : List Char}
    (hlead : AllBlank lead) (htail : AllBlank tail) (indent : Nat) :
    (tree indent lead tail ns).Legal :=
  legal_tree_of_forall hlead htail fun n hn => legal_phrase (h n hn) indent

/-- The derivation tree of a legible node denotes what the node holds. -/
theorem content_node_phrase {n : Node} (h : n.Everywhere LegibleAt) (indent : Nat) :
    (phrase indent n).node.content = n.contentWith Scalar.asRead := by
  induction n using inductionOn generalizing indent with
  | leaf key scalar =>
    obtain ⟨hkey, -, hscalar⟩ := everywhere_leaf.1 h
    rw [phrase, Phrase.node, leafOfText, hkey.keyOf_eq, (trim_eq_self_iff.1 hscalar.trim_eq).2,
      String.ofList_toList, hscalar.infer_eq, content, contentWith_leaf, contentWith_leaf]
    rfl
  | branch key children room ih =>
    obtain ⟨⟨hkey, -, hordered, -⟩, hchildren⟩ := everywhere_branch.1 h
    have hcontent : (children.map fun m => (phrase (indent + 1) m).node).map (contentWith id) =
        children.map (contentWith Scalar.asRead) := by
      rw [List.map_map]
      exact List.map_congr_left fun m hm => ih m hm (hchildren m hm) (indent + 1)
    -- the children come in the order of their keys, so replacing by key leaves them as they are
    rw [phrase, Phrase.node, nodes_tree, hkey.keyOf_eq, content,
      contentWith_composite id key (strictlyOrdered_of_map_content hcontent hordered), hcontent,
      contentWith_branch]

theorem carriageReturn_not_mem_lines {n : Node} (h : n.Everywhere LegibleAt) :
    ∀ line ∈ n.lines, '\r' ∉ line.toList := by
  induction n using inductionOn with
  | leaf key scalar =>
    obtain ⟨hkey, -, hscalar⟩ := everywhere_leaf.1 h
    intro line hline
    obtain rfl : line = key ++ ": " ++ scalar.written ++ ";" := by simpa [lines] using hline
    have := hkey.carriageReturn
    have := hscalar.carriageReturn
    simp_all
  | branch key children room ih =>
    obtain ⟨⟨hkey, -⟩, hchildren⟩ := everywhere_branch.1 h
    have := hkey.carriageReturn
    intro line hline
    simp only [lines, linesOfAll_eq, List.cons_append, List.mem_cons, List.mem_append, List.mem_map,
      List.mem_flatMap, List.not_mem_nil, or_false] at hline
    rcases hline with rfl | ⟨inner, ⟨m, hm, hinner⟩, rfl⟩ | rfl
    · simp_all
    · have := ih m hm (hchildren m hm) inner hinner
      simp_all
    · decide

theorem carriageReturn_not_mem_typeset {ns : List Node} (h : ∀ n ∈ ns, n.Everywhere LegibleAt)
    (indent : Nat) : '\r' ∉ typeset indent (linesOfAll ns) := by
  intro hmem
  obtain ⟨line, hline, hmem⟩ := List.mem_flatMap.1 hmem
  rw [linesOfAll_eq] at hline
  obtain ⟨n, hn, hline⟩ := List.mem_flatMap.1 hline
  have := carriageReturn_not_mem_lines (h n hn) line hline
  simp_all [List.mem_replicate]

/-- **Printed trees are read back**: what is read from printed legible trees holds what they hold. -/
theorem parseAll_render {ns : List Node} (h : ∀ n ∈ ns, n.Everywhere LegibleAt) (indent : Nat) :
    ∃ ms, parseAll (String.join (ns.map (·.render indent ++ "\n"))) = .ok ms ∧
      ms.map content = ns.map (contentWith Scalar.asRead) := by
  have htext : (tree indent [] [] ns).text =
      unifyLineEnds (String.join (ns.map (·.render indent ++ "\n"))).toList := by
    rw [toList_join_render, unifyLineEnds_of_not_mem (carriageReturn_not_mem_typeset h indent),
      endLine_typeset, text_tree, List.nil_append, List.append_nil]
  refine ⟨_, parseAll_of_document (legal_tree h allBlank_nil allBlank_nil indent) htext, ?_⟩
  rw [nodes_tree, List.map_map]
  exact List.map_congr_left fun n hn => content_node_phrase (h n hn) indent

end Node

end TreeScript
