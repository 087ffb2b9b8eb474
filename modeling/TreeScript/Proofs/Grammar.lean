import TreeScript.Node.Reader
import TreeScript.Proofs.Brackets

/-!
# The grammar of documents

A document is a sequence of nodes with blanks around them.  A node is a leaf `key: value;`, a
bracketed section `[body]` whose body is a key, a colon and a document, or a key in front of a stray
closing bracket, which stands for a placeholder.

The grammar is stated through derivation trees: a tree has a text, a denotation, and side
conditions that make it legal.

- `Phrase`, `Document`: derivation trees, with `text`, `Legal` and `node`, `nodes`.
- `Document.ext_text`: a text has at most one legal tree, because what is next in it is always
  determined by its first key stop.
-/

namespace TreeScript

namespace Grammar

open Text

mutual

/-- A node as it stands in a text. -/
inductive Phrase where
  /-- `key: value;` with the blanks behind the colon. -/
  | leaf (key gap value : List Char)
  /-- `[body]`, where the body is blanks, a key up to a colon, and the nodes behind it. -/
  | composite (body pad head : List Char) (inside : Document)
  /-- A closing bracket that closes nothing, and what stands in front of it. -/
  | placeholder (key : List Char)

/-- Nodes one after the other, with the blanks in front of each and behind the last one. -/
inductive Document where
  | done (pad : List Char)
  | next (pad : List Char) (first : Phrase) (others : Document)

end

/-- The characters that end the key of a node. -/
def keyStops : List Char := ['[', ':', ']']

/-- The text in front of the character that decides what a node is. -/
def IsKey (key : List Char) : Prop := Flush key ∧ ∀ c ∈ key, c ∉ keyStops

instance (key : List Char) : Decidable (IsKey key) :=
  decidable_of_iff (key.head?.all (!isBlank ·) = true ∧ key.all (fun c => decide (c ∉ keyStops)) = true)
    (by simp [IsKey, Flush, Option.all_eq_true])

theorem isKey_nil : IsKey [] := by
  simp [IsKey]

/-- The characters of a node. -/
def Phrase.text : Phrase → List Char
  | .leaf key gap value => key ++ ':' :: (gap ++ (value ++ [';']))
  | .composite body _ _ _ => '[' :: (body ++ [']'])
  | .placeholder key => key ++ [']']

/-- The characters of a document. -/
def Document.text : Document → List Char
  | .done pad => pad
  | .next pad first others => pad ++ (first.text ++ others.text)

mutual

/-- The side conditions of a node.  The body of a section is read with its last line ended. -/
def Phrase.Legal : Phrase → Prop
  | .leaf key gap value => IsKey key ∧ AllBlank gap ∧ Flush value ∧ ';' ∉ value
  | .composite body pad head inside =>
    Balanced '[' ']' body ∧ AllBlank pad ∧ Flush head ∧ ':' ∉ head ∧ inside.Legal ∧
      endLine body = pad ++ (head ++ ':' :: inside.text)
  | .placeholder key => IsKey key

/-- The side conditions of a document. -/
def Document.Legal : Document → Prop
  | .done pad => AllBlank pad
  | .next pad first others => AllBlank pad ∧ first.Legal ∧ others.Legal

end

mutual

/-- The node that a phrase denotes. -/
def Phrase.node : Phrase → Node
  | .leaf key _ value => .leafOfText (Node.keyOf key) (String.ofList (trimEnd value))
  | .composite _ _ head inside => .composite (Node.keyOf head) inside.nodes
  | .placeholder _ => .placeholder

/-- The nodes that a document denotes. -/
def Document.nodes : Document → List Node
  | .done _ => []
  | .next _ first others => first.node :: others.nodes

end

/-! ### One tree for each text -/

/-- The text in front of the character that decides what a phrase is. -/
def Phrase.lead : Phrase → List Char
  | .leaf key _ _ => key
  | .composite _ _ _ _ => []
  | .placeholder key => key

/-- The character that decides what a phrase is. -/
def Phrase.stop : Phrase → Char
  | .leaf _ _ _ => ':'
  | .composite _ _ _ _ => '['
  | .placeholder _ => ']'

/-- What stands behind the character that decides what a phrase is. -/
def Phrase.tail : Phrase → List Char
  | .leaf _ gap value => gap ++ (value ++ [';'])
  | .composite body _ _ _ => body ++ [']']
  | .placeholder _ => []

theorem Phrase.text_eq (p : Phrase) : p.text = p.lead ++ p.stop :: p.tail := by
  cases p <;> rfl

theorem Phrase.isKey_lead {p : Phrase} (hp : p.Legal) : IsKey p.lead := by
  cases p with
  | leaf key gap value => exact hp.1
  | composite body pad head inside => exact isKey_nil
  | placeholder key => exact hp

theorem Phrase.stop_mem (p : Phrase) : p.stop ∈ keyStops := by
  cases p <;> simp [Phrase.stop, keyStops]

theorem not_isBlank_of_mem_keyStops {c : Char} (h : c ∈ keyStops) : isBlank c = false := by
  have hall : keyStops.all (fun c => !isBlank c) = true := by decide
  simpa using List.all_eq_true.1 hall c h

/-- A phrase starts with a character that is not blank. -/
theorem Phrase.flush_text_append {p : Phrase} (hp : p.Legal) (rest : List Char) :
    Flush (p.text ++ rest) := by
  rw [p.text_eq, List.append_assoc]
  exact (Phrase.isKey_lead hp).1.append (flush_cons.2 (not_isBlank_of_mem_keyStops p.stop_mem))

theorem Phrase.text_ne_nil (p : Phrase) : p.text ≠ [] := by
  simp [p.text_eq]

/-- What a phrase is, the text in front of the character that decides it and the text behind it are
determined by the text. -/
theorem Phrase.lead_stop_tail_inj {p q : Phrase} {as bs : List Char} (hp : p.Legal)
    (hq : q.Legal) (h : p.text ++ as = q.text ++ bs) :
    p.lead = q.lead ∧ p.stop = q.stop ∧ p.tail ++ as = q.tail ++ bs := by
  rw [p.text_eq, q.text_eq, List.append_assoc, List.append_assoc] at h
  obtain ⟨hlead, htail⟩ := append_inj_of_stop (p := fun c => !decide (c ∈ keyStops)) h
    (by simpa using (Phrase.isKey_lead hp).2) (by simpa using p.stop_mem)
    (by simpa using (Phrase.isKey_lead hq).2) (by simpa using q.stop_mem)
  exact ⟨hlead, List.cons.inj htail⟩

theorem flush_append_semicolon {value : List Char} (h : Flush value) (rest : List Char) :
    Flush (value ++ ';' :: rest) :=
  h.append (flush_cons.2 (by decide))

theorem flush_append_colon {head : List Char} (h : Flush head) (rest : List Char) :
    Flush (head ++ ':' :: rest) :=
  h.append (flush_cons.2 (by decide))

mutual

/-- The phrase at the start of a text is determined by the text. -/
theorem Phrase.ext_text : ∀ {p q : Phrase} {as bs : List Char}, p.Legal → q.Legal →
    p.text ++ as = q.text ++ bs → p = q ∧ as = bs
  | .leaf key gap value, q, as, bs, hp, hq, h => by
    obtain ⟨hlead, hstop, htail⟩ := Phrase.lead_stop_tail_inj hp hq h
    cases q with
    | leaf key' gap' value' =>
      obtain rfl : key = key' := hlead
      simp only [Phrase.tail, List.append_assoc, List.cons_append, List.nil_append] at htail
      obtain ⟨rfl, hvalue⟩ := append_inj_of_stop (p := isBlank) htail
        hp.2.1 (flush_append_semicolon hp.2.2.1 _) hq.2.1 (flush_append_semicolon hq.2.2.1 _)
      obtain ⟨rfl, rfl⟩ := append_cons_inj_of_not_mem hp.2.2.2 hq.2.2.2 hvalue
      exact ⟨rfl, rfl⟩
    | composite => simp [Phrase.stop] at hstop
    | placeholder => simp [Phrase.stop] at hstop
  | .composite body pad head inside, q, as, bs, hp, hq, h => by
    obtain ⟨-, hstop, htail⟩ := Phrase.lead_stop_tail_inj hp hq h
    cases q with
    | leaf => simp [Phrase.stop] at hstop
    | composite body' pad' head' inside' =>
      obtain ⟨hbal, hpad, hflush, hhead, hinside, hbody⟩ := hp
      obtain ⟨hbal', hpad', hflush', hhead', hinside', hbody'⟩ := hq
      simp only [Phrase.tail, List.append_assoc, List.cons_append, List.nil_append] at htail
      -- the section ends where its brackets are balanced; its inside is cut at the first colon
      obtain ⟨rfl, rfl⟩ := Scanner.balanced_append_inj (by decide) hbal hbal' htail
      obtain ⟨rfl, hcolon⟩ := append_inj_of_stop (p := isBlank) (hbody.symm.trans hbody')
        hpad (flush_append_colon hflush _) hpad' (flush_append_colon hflush' _)
      obtain ⟨rfl, htext⟩ := append_cons_inj_of_not_mem hhead hhead' hcolon
      obtain rfl := Document.ext_text hinside hinside' htext
      exact ⟨rfl, rfl⟩
    | placeholder => simp [Phrase.stop] at hstop
  | .placeholder key, q, as, bs, hp, hq, h => by
    obtain ⟨hlead, hstop, htail⟩ := Phrase.lead_stop_tail_inj hp hq h
    cases q with
    | leaf => simp [Phrase.stop] at hstop
    | composite => simp [Phrase.stop] at hstop
    | placeholder key' =>
      obtain rfl : key = key' := hlead
      exact ⟨rfl, htail⟩

/-- **Unambiguity**: a text has at most one legal tree. -/
theorem Document.ext_text : ∀ {d e : Document}, d.Legal → e.Legal → d.text = e.text → d = e
  | .done pad, .done pad', _, _, h => congrArg Document.done h
  | .done pad, .next pad' first' others', hd, he, h => by
    have hsplit : pad ++ [] = pad' ++ (first'.text ++ others'.text) := by
      rw [List.append_nil]
      exact h
    obtain ⟨-, hnil⟩ := append_inj_of_stop (p := isBlank) hsplit hd (by simp) he.1
      (Phrase.flush_text_append he.2.1 _)
    exact absurd (List.append_eq_nil_iff.1 hnil.symm).1 first'.text_ne_nil
  | .next pad first others, .done pad', hd, he, h => by
    have hsplit : pad ++ (first.text ++ others.text) = pad' ++ [] := by
      rw [List.append_nil]
      exact h
    obtain ⟨-, hnil⟩ := append_inj_of_stop (p := isBlank) hsplit hd.1
      (Phrase.flush_text_append hd.2.1 _) he (by simp)
    exact absurd (List.append_eq_nil_iff.1 hnil).1 first.text_ne_nil
  | .next pad first others, .next pad' first' others', hd, he, h => by
    obtain ⟨rfl, hrest⟩ := append_inj_of_stop (p := isBlank) h hd.1
      (Phrase.flush_text_append hd.2.1 _) he.1 (Phrase.flush_text_append he.2.1 _)
    obtain ⟨rfl, htext⟩ := Phrase.ext_text hd.2.1 he.2.1 hrest
    obtain rfl := Document.ext_text hd.2.2 he.2.2 htext
    rfl

end

end Grammar

end TreeScript
