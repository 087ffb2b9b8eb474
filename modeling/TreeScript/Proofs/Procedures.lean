import TreeScript.Proofs.Clauses
import TreeScript.Proofs.RoundTrip

/-!
# Procedures as they are written

A procedure is written as a name, metadata in front of the items, and the items with any blanks between
them.  What is read from such a text is described item by item: the parameters, statements and
variables of the procedure are those of its clauses, in their order.

- `Draft`, `Draft.text`, `Draft.Legal`: procedures as they are written.
- `Clause.parameter?`, `Clause.declared?`, `Clause.statement?`: what a clause brings in.
- `Procedure.Built`, `Procedure.Built.addItem`: what a procedure is made of, clause by clause.
- `readItems_of_stream`, `parse_draft`: the clauses of a text, and the whole text, are read back.
-/

namespace TreeScript

open Text Grammar

/-! ### What a clause brings in -/

namespace Clause

/-- The parameter that a clause declares. -/
def parameter? : Clause → Option String
  | parameter name => some name
  | _ => none

/-- The variable that a clause declares, with what it starts with. -/
def declared? : Clause → Option Node
  | parameter name => some (.leaf name .empty)
  | declaration d name => some (.leaf name d.zero.toScalar)
  | assignment d name _ => some (.leaf name d.zero.toScalar)
  | _ => none

/-- The statement that a clause adds.  A call to a native function that is not on offer adds none. -/
def statement? {α : Type} (natives : Registry α) : Clause → Option Statement
  | assignment d name value => some (.assign name ⟨value, d⟩)
  | typedCall d native values =>
    if natives.contains native then some (.call native (values.map (⟨·, d⟩))) else none
  | untypedCall native arguments =>
    if natives.contains native then some (.call native (arguments.map (Argument.typed none))) else none
  | _ => none

end Clause

/-! ### Declarations -/

theorem eraseDups_concat {α : Type} [DecidableEq α] (as : List α) (b : α) :
    (as ++ [b]).eraseDups = if b ∈ as.eraseDups then as.eraseDups else as.eraseDups ++ [b] := by
  rw [List.eraseDups_append]
  by_cases h : b ∈ as
  · simp [List.removeAll, h]
  · simp [List.removeAll, h, List.eraseDups_cons]

/-- Which variables a procedure has after several declarations: each name has what its first
declaration gives it. -/
structure FirstOfEach (declarations declared : List Node) (locals : Scope) : Prop where
  keys : declared.map Node.key = (declarations.map Node.key).eraseDups
  first : ∀ n ∈ declared, declarations.find? (·.key == n.key) = some n
  perm : locals.items.Perm declared
  ordered : KeyedList.StrictlyOrdered locals.items

namespace FirstOfEach

variable {declarations declared : List Node} {locals : Scope}

theorem empty {room : Nat} : FirstOfEach [] [] ⟨[], room⟩ where
  keys := rfl
  first := fun _ h => absurd h List.not_mem_nil
  perm := .refl _
  ordered := .nil

theorem contains_iff (h : FirstOfEach declarations declared locals) (name : String) :
    locals.contains name = true ↔ name ∈ declared.map Node.key := by
  rw [KeyedList.contains, List.any_eq_true, List.mem_map]
  constructor
  · rintro ⟨n, hn, hname⟩
    exact ⟨n, h.perm.mem_iff.1 hn, KeyedList.hasKey_iff.1 hname⟩
  · rintro ⟨n, hn, hname⟩
    exact ⟨n, h.perm.mem_iff.2 hn, KeyedList.hasKey_iff.2 hname⟩

/-- Another declaration of a declared name changes nothing. -/
theorem again (h : FirstOfEach declarations declared locals) (entry : Node)
    (hentry : locals.contains entry.key = true) :
    FirstOfEach (declarations ++ [entry]) declared locals where
  keys := by
    have hmem : entry.key ∈ (declarations.map Node.key).eraseDups := by
      rw [← h.keys]
      exact (h.contains_iff entry.key).1 hentry
    rw [List.map_append, List.map_singleton, eraseDups_concat, if_pos hmem, h.keys]
  first := by
    intro n hn
    rw [List.find?_append, h.first n hn]
    rfl
  perm := h.perm
  ordered := h.ordered

/-- The first declaration of a name puts a variable in. -/
theorem fresh (h : FirstOfEach declarations declared locals) (entry : Node)
    (hentry : locals.contains entry.key = false) :
    FirstOfEach (declarations ++ [entry]) (declared ++ [entry]) (locals.insert entry) where
  keys := by
    have hmem : entry.key ∉ (declarations.map Node.key).eraseDups := by
      rw [← h.keys, ← h.contains_iff, hentry]
      exact Bool.false_ne_true
    rw [List.map_append, List.map_append, List.map_singleton, eraseDups_concat, if_neg hmem, h.keys]
  first := by
    intro n hn
    rw [List.find?_append]
    rcases List.mem_append.1 hn with hn | hn
    · rw [h.first n hn]
      rfl
    · -- no earlier declaration has the name, or there would be a variable of that name
      obtain rfl := List.mem_singleton.1 hn
      have hnone : declarations.find? (fun m => m.key == n.key) = none := by
        rw [List.find?_eq_none]
        intro m hm hkey
        have hmem : n.key ∈ declared.map Node.key := by
          rw [h.keys, List.mem_eraseDups, ← eq_of_beq hkey]
          exact List.mem_map_of_mem hm
        rw [(h.contains_iff n.key).2 hmem] at hentry
        exact Bool.false_ne_true hentry.symm
      simp [hnone]
  perm := ((locals.perm_insert entry).trans (h.perm.cons entry)).trans
    (List.perm_append_singleton entry declared).symm
  ordered := by
    refine h.ordered.insert fun n hn => ?_
    have hany : locals.items.any (KeyedList.hasKey (Keyed.key entry)) = false := hentry
    simpa using List.any_eq_false.1 hany n hn

end FirstOfEach

namespace Procedure

/-- **What a procedure is made of**: the parameters, statements and variables that its clauses bring
in, in their order. -/
structure Built {α : Type} (natives : Registry α) (name : String) (engine : Engine)
    (cs : List Clause) (p : Procedure) : Prop where
  name_eq : p.name = name
  engine_eq : p.engine = engine
  parameters_eq : p.parameters = (cs.filterMap Clause.parameter?).eraseDups
  statements_eq : p.statements = cs.filterMap (Clause.statement? natives)
  firstOfEach : FirstOfEach (cs.filterMap Clause.declared?) p.declared p.locals

section

variable {α : Type} {natives : Registry α} {name : String} {engine : Engine} {cs : List Clause}
  {p : Procedure}

theorem built_blank (metadata : Option Node) :
    (blank name metadata engine).Built natives name engine [] where
  name_eq := rfl
  engine_eq := rfl
  parameters_eq := rfl
  statements_eq := rfl
  firstOfEach := .empty

theorem firstOfEach_declare {declarations : List Node}
    (h : FirstOfEach declarations p.declared p.locals) (k : Keyword) (target : String) :
    FirstOfEach (declarations ++ [.leaf target k.initial]) (p.declare k target).declared
      (p.declare k target).locals := by
  cases hcontains : p.locals.contains target with
  | true =>
    have hdeclared : (p.declare k target).declared = p.declared := by simp [declare, hcontains]
    have hlocals : (p.declare k target).locals = p.locals := by simp [declare, hcontains]
    rw [hdeclared, hlocals]
    exact h.again (.leaf target k.initial) hcontains
  | false =>
    have hdeclared : (p.declare k target).declared = p.declared ++ [.leaf target k.initial] := by
      simp [declare, hcontains]
    have hlocals : (p.declare k target).locals = p.locals.insert (.leaf target k.initial) := by
      simp [declare, hcontains]
    rw [hdeclared, hlocals]
    exact h.fresh (.leaf target k.initial) hcontains

theorem initial_ofDomain (d : Domain) : (Keyword.ofDomain d).initial = d.zero.toScalar := by
  rw [Keyword.initial, Keyword.domain?_ofDomain]

theorem firstOfEach_declare_ofDomain {declarations : List Node}
    (h : FirstOfEach declarations p.declared p.locals) (d : Domain) (target : String) :
    FirstOfEach (declarations ++ [.leaf target d.zero.toScalar])
      (p.declare (.ofDomain d) target).declared (p.declare (.ofDomain d) target).locals := by
  rw [← initial_ofDomain]
  exact firstOfEach_declare h (.ofDomain d) target

theorem parameters_declare (k : Keyword) (target : String) {names : List String}
    (h : p.parameters = names.eraseDups) :
    (p.declare k target).parameters =
      (names ++ if k = .param then [target] else []).eraseDups := by
  -- only `param` declares parameters, and only if there is none of that name
  by_cases hk : k = .param
  · rw [if_pos hk, eraseDups_concat, ← h]
    by_cases hmem : target ∈ p.parameters
    · simp [declare, hmem]
    · simp [declare, hmem, hk]
  · simp [declare, hk, h]

/-- A call adds a statement if there is such a native function, and nothing else if there is not. -/
theorem Built.addCall (h : p.Built natives name engine cs) (hengine : engine.strictNatives = false)
    {c : Clause} (native : String) (arguments : List TypedExpr) (position : Position)
    (hparameter : c.parameter? = none) (hdeclared : c.declared? = none)
    (hstatement : c.statement? natives =
      if natives.contains native then some (.call native arguments) else none) :
    ∃ q, p.addItem natives (.call native arguments position) = .ok q ∧ q.metadata = p.metadata ∧
      q.Built natives name engine (cs ++ [c]) := by
  have hparameters : p.parameters = ((cs ++ [c]).filterMap Clause.parameter?).eraseDups := by
    simpa [hparameter] using h.parameters_eq
  have hvariables : FirstOfEach ((cs ++ [c]).filterMap Clause.declared?) p.declared p.locals := by
    simpa [hdeclared] using h.firstOfEach
  by_cases hnative : natives.contains native = true
  · refine ⟨p.addStatement (.call native arguments), by simp [Procedure.addItem, hnative], rfl,
      h.name_eq, h.engine_eq, hparameters, ?_, hvariables⟩
    simp [addStatement, hstatement, hnative, h.statements_eq]
  · refine ⟨p, by simp [Procedure.addItem, hnative, h.engine_eq, hengine], rfl,
      h.name_eq, h.engine_eq, hparameters, ?_, hvariables⟩
    simpa [hstatement, hnative] using h.statements_eq

/-- One clause more, one item more. -/
theorem Built.addItem (h : p.Built natives name engine cs) (hengine : engine.strictNatives = false)
    (c : Clause) (position : Position) :
    ∃ q, p.addItem natives (c.item position) = .ok q ∧ q.metadata = p.metadata ∧
      q.Built natives name engine (cs ++ [c]) := by
  cases c with
  | parameter target =>
    refine ⟨p.declare .param target, rfl, rfl, h.name_eq, h.engine_eq, ?_, ?_, ?_⟩
    · rw [parameters_declare .param target h.parameters_eq, List.filterMap_append]
      rfl
    · rw [List.filterMap_append, ← h.statements_eq]
      exact (List.append_nil _).symm
    · rw [List.filterMap_append]
      exact firstOfEach_declare h.firstOfEach .param target
  | declaration d target =>
    refine ⟨p.declare (.ofDomain d) target, rfl, rfl, h.name_eq, h.engine_eq, ?_, ?_, ?_⟩
    · rw [parameters_declare _ target h.parameters_eq, List.filterMap_append]
      cases d <;> rfl
    · rw [List.filterMap_append, ← h.statements_eq]
      exact (List.append_nil _).symm
    · rw [List.filterMap_append]
      exact firstOfEach_declare_ofDomain h.firstOfEach d target
  | assignment d target value =>
    refine ⟨(p.declare (.ofDomain d) target).addStatement (.assign target ⟨value, d⟩), rfl, rfl,
      h.name_eq, h.engine_eq, ?_, ?_, ?_⟩
    · refine (parameters_declare (.ofDomain d) target h.parameters_eq).trans ?_
      rw [List.filterMap_append]
      cases d <;> rfl
    · rw [List.filterMap_append, ← h.statements_eq]
      rfl
    · rw [List.filterMap_append]
      exact firstOfEach_declare_ofDomain h.firstOfEach d target
  | typedCall d native values => exact h.addCall hengine native _ position rfl rfl rfl
  | untypedCall native arguments => exact h.addCall hengine native _ position rfl rfl rfl

end

end Procedure

/-! ### Several clauses -/

/-- A clause with the blanks in front of it, and what stands behind it. -/
structure Entry where
  gap : List Char
  clause : Clause
  ending : List Char

namespace Entry

/-- The characters of an entry. -/
def text (e : Entry) : List Char := e.gap ++ (e.clause.text ++ e.ending)

/-- The side conditions of an entry. -/
structure Legal (e : Entry) : Prop where
  gap : AllBlank e.gap
  clause : e.clause.Legal
  ending : e.clause.IsEnd e.ending

end Entry

/-- In front of entries only the blanks of the first one are skipped. -/
theorem trimStart_entries_cons {e : Entry} (he : e.Legal) (es : List Entry) (pad : List Char) :
    trimStart ((e :: es).flatMap Entry.text ++ pad) =
      e.clause.text ++ (e.ending ++ (es.flatMap Entry.text ++ pad)) := by
  obtain ⟨d, ds, hds, hblank, -⟩ := Clause.exists_cons he.clause
  have htext : (e :: es).flatMap Entry.text ++ pad =
      e.gap ++ (e.clause.text ++ (e.ending ++ (es.flatMap Entry.text ++ pad))) := by
    simp [Entry.text]
  rw [htext, trimStart_append_of_allBlank he.gap, trimStart_eq_self_iff, hds]
  exact flush_cons.2 hblank

/-- Behind entries and blanks the next character is the first one of a clause, or there is none. -/
theorem head?_trimStart_entries {entries : List Entry} (h : ∀ e ∈ entries, e.Legal)
    {pad : List Char} (hpad : AllBlank pad) :
    ∀ c ∈ (trimStart (entries.flatMap Entry.text ++ pad)).head?, c ∉ ['[', ']', ':', ';'] := by
  intro c hc
  cases entries with
  | nil =>
    have hnil : trimStart pad = [] := List.dropWhile_eq_nil_iff.2 hpad
    rw [List.flatMap_nil, List.nil_append, hnil] at hc
    exact absurd hc (by simp)
  | cons e es =>
    obtain ⟨d, ds, hds, -, hd⟩ := Clause.exists_cons (h e (by simp)).clause
    rw [trimStart_entries_cons (h e (by simp)), hds] at hc
    obtain rfl : d = c := by simpa using hc
    exact hd

namespace Procedure

variable {α : Type} {natives : Registry α} {name : String} {engine : Engine}

theorem readItems_eq (natives : Registry α) (p : Procedure) (s : Scanner) :
    readItems natives p s =
      if s.skipBlank.stream = [] then .ok p
      else
        match Item.read s.skipBlank with
        | (.error e, _) => .error e
        | (.ok item, t) =>
          match p.addItem natives item with
          | .error e => .error e
          | .ok p => readItems natives p t := by
  rw [readItems]
  simp only [List.isEmpty_iff]
  split
  · rfl
  · split
    · next h => simp only [h]
    · next item t h => exact h ▸ rfl

/-- **The clauses of a text are read back**: each one adds what it stands for. -/
theorem readItems_of_stream (hengine : engine.strictNatives = false) {entries : List Entry}
    (hentries : ∀ e ∈ entries, e.Legal) {pad : List Char} (hpad : AllBlank pad) {cs : List Clause}
    {p : Procedure} (hp : p.Built natives name engine cs) {s : Scanner}
    (hs : s.skipBlank.stream = trimStart (entries.flatMap Entry.text ++ pad)) :
    ∃ q, readItems natives p s = .ok q ∧ q.metadata = p.metadata ∧
      q.Built natives name engine (cs ++ entries.map Entry.clause) := by
  induction entries generalizing cs p s with
  | nil =>
    have hnil : trimStart ([] ++ pad) = [] := List.dropWhile_eq_nil_iff.2 hpad
    refine ⟨p, ?_, rfl, by simpa using hp⟩
    rw [readItems_eq, if_pos (hs.trans hnil)]
  | cons e es ih =>
    have he : e.Legal := hentries e (by simp)
    have hes : ∀ e ∈ es, e.Legal := fun e he => hentries e (by simp [he])
    obtain ⟨d, ds, hds, -⟩ := Clause.exists_cons he.clause
    have hstream := hs.trans (trimStart_entries_cons he es pad)
    -- a semicolon behind a call would be taken for its own
    have hrest : (trimStart (es.flatMap Entry.text ++ pad)).head? ≠ some ';' := fun h =>
      head?_trimStart_entries hes hpad _ h (by decide)
    obtain ⟨position, t, hread, ht⟩ := Clause.read_item he.clause he.ending hrest hstream
    -- the clause adds what it stands for, and the others are read from behind it
    obtain ⟨q, hadd, hmetadata, hq⟩ := hp.addItem hengine e.clause position
    obtain ⟨r, hitems, hr, hbuilt⟩ := ih hes hq ht
    refine ⟨r, ?_, hr.trans hmetadata, by simpa using hbuilt⟩
    rw [readItems_eq, if_neg (by simp [hstream, hds]), hread]
    simp only [hadd, hitems]

end Procedure

/-! ### Drafts -/

/-- A procedure as it is written: its name, metadata behind blanks, entries, and blanks in front of
the closing bracket. -/
structure Draft where
  name : String
  metadata : Option (List Char × Node)
  entries : List Entry
  pad : List Char

namespace Draft

/-- The characters of the metadata, with the blanks in front of it. -/
def metadataText : Option (List Char × Node) → List Char
  | none => []
  | some (gap, m) => gap ++ m.written.toList

/-- What stands between the brackets of a procedure. -/
def body (f : Draft) : List Char :=
  f.name.toList ++ ':' :: (metadataText f.metadata ++ (f.entries.flatMap Entry.text ++ f.pad))

/-- The characters of a procedure. -/
def text (f : Draft) : List Char := '[' :: (f.body ++ [']'])

/-- The side conditions of a procedure as it is written. -/
structure Legal (f : Draft) : Prop where
  trim_eq : trim f.name.toList = f.name.toList
  char : ∀ c ∈ f.name.toList, c ∉ keyStops
  metadata : ∀ q ∈ f.metadata, AllBlank q.1 ∧ q.2.isComposite = true ∧ q.2.WellFormed
  entries : ∀ e ∈ f.entries, e.Legal
  pad : AllBlank f.pad

/-- Whether the decimal numbers in the metadata are read back, where they are finite. -/
def DecimalsReadBack (f : Draft) : Prop :=
  ∀ q ∈ f.metadata, q.2.Everywhere (Node.DecimalAt Node.FiniteReadsBack)

end Draft

/-! ### Line ends in a draft -/

/-- An entry as a reader sees it. -/
def Entry.unified (e : Entry) : Entry := ⟨lineFeeds e.gap, e.clause, lineFeeds e.ending⟩

theorem Entry.Legal.unified {e : Entry} (h : e.Legal) : e.unified.Legal where
  gap := h.gap.lineFeeds
  clause := h.clause
  ending := h.ending.lineFeeds

/-- The line ends of an entry are in the blanks around its clause. -/
theorem Entry.lineFeeds_text_append {e : Entry} (h : e.Legal) (rest : List Char) :
    lineFeeds (e.text ++ rest) = e.unified.text ++ lineFeeds rest := by
  obtain ⟨d, ds, hds, hblank, -⟩ := Clause.exists_cons h.clause
  have hfeed : (e.clause.text ++ (e.ending ++ rest)).head? ≠ some '\n' := by
    rw [hds]
    intro heq
    obtain rfl : d = '\n' := by simpa using heq
    exact absurd hblank (by decide)
  -- what is behind the clause ends with a semicolon, so no pair of line ends is taken apart
  have hending : lineFeeds (e.ending ++ rest) = lineFeeds e.ending ++ lineFeeds rest := by
    rcases h.ending.isCallEnd with hnil | ⟨pad, -, hpad⟩
    · rw [hnil]
      rfl
    · have hsemicolon : ∀ cs : List Char, lineFeeds (';' :: cs) = ';' :: lineFeeds cs :=
        lineFeeds_cons_of_ne (by decide)
      rw [hpad, List.append_assoc, List.singleton_append, lineFeeds_append_of_head? (by simp),
        lineFeeds_append_of_head? (by simp), hsemicolon, hsemicolon, lineFeeds, List.append_assoc,
        List.singleton_append]
  have hsplit : e.text ++ rest = e.gap ++ (e.clause.text ++ (e.ending ++ rest)) := by
    simp [Entry.text]
  rw [hsplit, lineFeeds_append_of_head? hfeed,
    lineFeeds_append_of_not_mem (Clause.carriageReturn_not_mem_text h.clause), hending]
  simp [Entry.text, Entry.unified]

theorem lineFeeds_entries_append {entries : List Entry} (h : ∀ e ∈ entries, e.Legal)
    (rest : List Char) :
    lineFeeds (entries.flatMap Entry.text ++ rest) =
      (entries.map Entry.unified).flatMap Entry.text ++ lineFeeds rest := by
  induction entries with
  | nil => rfl
  | cons e es ih =>
    rw [List.flatMap_cons, List.append_assoc, Entry.lineFeeds_text_append (h e (by simp)),
      ih fun e he => h e (by simp [he]), List.map_cons, List.flatMap_cons, List.append_assoc]

/-! ### Brackets in a draft -/

theorem Text.AllBlank.balanced {cs : List Char} (h : AllBlank cs) : Balanced '[' ']' cs :=
  balanced_of_not_mem (fun hmem => absurd (h _ hmem) (by decide))
    (fun hmem => absurd (h _ hmem) (by decide))

theorem Entry.Legal.balanced {e : Entry} (h : e.Legal) : Balanced '[' ']' e.text := by
  have hending : Balanced '[' ']' e.ending := by
    rcases h.ending.isCallEnd with hnil | ⟨pad, hpad, hsemicolon⟩
    · rw [hnil]
      exact allBlank_nil.balanced
    · have hend : Balanced '[' ']' [';'] :=
        balanced_of_not_mem (by decide) (by decide)
      rw [hsemicolon]
      exact hpad.balanced.append hend
  exact h.gap.balanced.append
    ((Clause.balanced_text h.clause).append hending)

theorem balanced_entries {entries : List Entry} (h : ∀ e ∈ entries, e.Legal) :
    Balanced '[' ']' (entries.flatMap Entry.text) := by
  induction entries with
  | nil => exact allBlank_nil.balanced
  | cons e es ih =>
    exact (h e (by simp)).balanced.append (ih fun d hd => h d (by simp [hd]))

theorem Node.carriageReturn_not_mem_written {n : Node} (h : n.Everywhere Node.LegibleAt) :
    '\r' ∉ n.written.toList := by
  have hlines : '\r' ∉ Node.typeset 0 (Node.linesOfAll [n]) :=
    Node.carriageReturn_not_mem_typeset (by simpa using h) 0
  rw [Node.linesOfAll, Node.linesOfAll, List.append_nil, Node.text_phrase] at hlines
  rw [Node.toList_written]
  exact fun hmem => hlines (by simp [hmem])

/-- A composite node is written as one section. -/
theorem Node.WellFormed.exists_section {n : Node} (h : n.WellFormed) (hn : n.isComposite = true) :
    ∃ body, n.written.toList = '[' :: (body ++ [']']) ∧ Balanced '[' ']' body :=
  (Node.everywhere_isSection h.balancedAt).self hn

namespace Draft

variable {f : Draft}

/-- A draft as a reader sees it. -/
def unified (f : Draft) : Draft where
  name := String.ofList (lineFeeds f.name.toList)
  metadata := f.metadata.map fun q => (lineFeeds q.1, q.2)
  entries := f.entries.map Entry.unified
  pad := lineFeeds f.pad

theorem Legal.unified (h : f.Legal) : f.unified.Legal where
  trim_eq := by
    rw [Draft.unified, String.toList_ofList]
    exact trim_lineFeeds h.trim_eq
  char := by
    intro c hc
    rw [Draft.unified, String.toList_ofList] at hc
    rcases mem_of_mem_lineFeeds hc with rfl | hc
    · decide
    · exact h.char c hc
  metadata := by
    intro q hq
    obtain ⟨r, hr, rfl⟩ := Option.map_eq_some_iff.1 hq
    obtain ⟨hgap, hcomposite, hnode⟩ := h.metadata r hr
    exact ⟨hgap.lineFeeds, hcomposite, hnode⟩
  entries := by
    intro e he
    obtain ⟨d, hd, rfl⟩ := List.mem_map.1 he
    exact (h.entries d hd).unified
  pad := h.pad.lineFeeds

/-- The metadata of a legal draft is found again by the reader of nodes. -/
theorem Legal.legible (h : f.Legal) (hdecimals : f.DecimalsReadBack) :
    ∀ q ∈ f.metadata, q.2.Everywhere Node.LegibleAt := fun q hq =>
  Node.legible_of_wellFormed (h.metadata q hq).2.2 (hdecimals q hq)

theorem lineFeeds_metadataText_append (h : f.Legal) (hdecimals : f.DecimalsReadBack)
    (rest : List Char) :
    lineFeeds (metadataText f.metadata ++ rest) =
      metadataText f.unified.metadata ++ lineFeeds rest := by
  cases hmetadata : f.metadata with
  | none => simp [unified, hmetadata, metadataText]
  | some q =>
    obtain ⟨-, hcomposite, hnode⟩ := h.metadata q hmetadata
    have hreturn := Node.carriageReturn_not_mem_written (h.legible hdecimals q hmetadata)
    obtain ⟨body, htext, -⟩ := hnode.exists_section hcomposite
    have hfeed : (q.2.written.toList ++ rest).head? ≠ some '\n' := by simp [htext]
    rw [metadataText, List.append_assoc, lineFeeds_append_of_head? hfeed,
      lineFeeds_append_of_not_mem hreturn]
    simp [unified, hmetadata, metadataText]

/-- A reader sees a draft with its line ends unified. -/
theorem lineFeeds_text (h : f.Legal) (hdecimals : f.DecimalsReadBack) :
    lineFeeds f.text = f.unified.text := by
  have hcolon : ∀ cs : List Char, lineFeeds (':' :: cs) = ':' :: lineFeeds cs :=
    lineFeeds_cons_of_ne (by decide)
  have hend : lineFeeds (f.pad ++ [']']) = lineFeeds f.pad ++ [']'] :=
    lineFeeds_append_of_head? (by decide) f.pad
  have hsplit : f.text = '[' :: (f.name.toList ++ ':' :: (metadataText f.metadata ++
      (f.entries.flatMap Entry.text ++ (f.pad ++ [']'])))) := by
    simp [text, body]
  rw [hsplit, lineFeeds_cons_of_ne (by decide), lineFeeds_append_of_head? (by simp), hcolon,
    lineFeeds_metadataText_append h hdecimals, lineFeeds_entries_append h.entries, hend]
  simp [text, body, unified]

/-- The brackets in a draft belong together in pairs. -/
theorem Legal.balanced_body (h : f.Legal) : Balanced '[' ']' f.body := by
  have hname : Balanced '[' ']' (f.name.toList ++ [':']) := by
    have hopen : '[' ∉ f.name.toList := fun hmem => h.char _ hmem (by decide)
    have hclose : ']' ∉ f.name.toList := fun hmem => h.char _ hmem (by decide)
    exact balanced_of_not_mem (by simp [hopen]) (by simp [hclose])
  have hmetadata : Balanced '[' ']' (metadataText f.metadata) := by
    cases hq : f.metadata with
    | none => exact allBlank_nil.balanced
    | some q =>
      obtain ⟨hgap, hcomposite, hnode⟩ := h.metadata q hq
      obtain ⟨body, htext, hbody⟩ := hnode.exists_section hcomposite
      rw [metadataText, htext]
      exact hgap.balanced.append hbody.enclose
  rw [body, List.append_cons]
  exact hname.append
    (hmetadata.append ((balanced_entries h.entries).append h.pad.balanced))

end Draft

/-! ### Reading a draft -/

namespace Procedure

variable {α : Type} {engine : Engine}

/-- The metadata is read back, if there is any, up to the first entry. -/
theorem readMetadata_of_stream {f : Draft} (h : f.Legal) (hdecimals : f.DecimalsReadBack)
    {pad : List Char} (hpad : AllBlank pad) {s : Scanner} (hreturn : '\r' ∉ s.stream)
    (hs : s.stream = Draft.metadataText f.metadata ++ (f.entries.flatMap Entry.text ++ pad)) :
    ∃ metadata t, readMetadata s = (.ok metadata, t) ∧
      metadata.map Node.content = f.metadata.map (fun q => q.2.contentWith Scalar.asRead) ∧
      t.skipBlank.stream = trimStart (f.entries.flatMap Entry.text ++ pad) := by
  cases hmetadata : f.metadata with
  | none =>
    -- a clause does not start with a bracket
    have hskip : s.skipBlank.stream = trimStart (f.entries.flatMap Entry.text ++ pad) := by
      rw [Scanner.stream_skipBlank, hs, hmetadata]
      rfl
    have hhead : s.skipBlank.stream.head? ≠ some '[' := by
      rw [hskip]
      exact fun heq => head?_trimStart_entries h.entries hpad _ heq (by decide)
    refine ⟨none, s.skipBlank, by rw [readMetadata, if_neg hhead], rfl, ?_⟩
    rw [Scanner.stream_skipBlank, hskip]
    exact trimStart_eq_self_iff.2 (flush_trimStart _)
  | some q =>
    obtain ⟨hgap, hcomposite, hnode⟩ := h.metadata q hmetadata
    have hlegible := h.legible hdecimals q hmetadata
    obtain ⟨body, htext, -⟩ := hnode.exists_section hcomposite
    have hsplit : s.stream =
        q.1 ++ (q.2.written.toList ++ (f.entries.flatMap Entry.text ++ pad)) := by
      rw [hs, hmetadata, Draft.metadataText, List.append_assoc]
    have hskip : s.skipBlank.stream =
        q.2.written.toList ++ (f.entries.flatMap Entry.text ++ pad) := by
      refine Scanner.skipBlank_of_stream hsplit hgap ?_
      rw [htext]
      exact flush_cons.2 (by decide)
    have hreturn' : '\r' ∉ s.skipBlank.stream := by
      rw [Scanner.stream_skipBlank]
      exact fun hmem => hreturn ((List.dropWhile_sublist _).mem hmem)
    -- the metadata is a phrase of the grammar of documents, with the entries behind it
    obtain ⟨t, hread, ht⟩ := Phrase.readWith_eq (Node.legal_phrase hlegible 0) allBlank_nil hreturn'
      (by rw [hskip, Node.toList_written]; rfl)
    refine ⟨some (Node.phrase 0 q.2).node, t, ?_, ?_, ?_⟩
    · rw [readMetadata, if_pos (by simp [hskip, htext]), hread]
      rfl
    · rw [Option.map_some, Option.map_some, Node.content_node_phrase hlegible 0]
    · rw [Scanner.stream_skipBlank, ht]
      rfl

/-- What stands between the brackets of a draft is read back. -/
theorem readInside_of_stream (natives : Registry α) (hengine : engine.strictNatives = false)
    {f : Draft} (h : f.Legal) (hdecimals : f.DecimalsReadBack) {s : Scanner}
    (hreturn : '\r' ∉ s.stream) (hs : s.stream = endLine f.body) :
    ∃ p, readInside natives engine s = .ok p ∧
      p.metadata.map Node.content = f.metadata.map (fun q => q.2.contentWith Scalar.asRead) ∧
      p.Built natives f.name engine (f.entries.map Entry.clause) := by
  -- the blanks behind the entries are those of the draft, and maybe the end of the last line
  obtain ⟨tail, htail, hbody⟩ := endLine_eq_append f.body
  have hpad : AllBlank (f.pad ++ tail) := allBlank_append.2 ⟨h.pad, htail⟩
  obtain ⟨rest, hrest⟩ : ∃ rest, Draft.metadataText f.metadata ++
      (f.entries.flatMap Entry.text ++ (f.pad ++ tail)) = rest := ⟨_, rfl⟩
  have hsplit : s.stream = f.name.toList ++ ':' :: rest := by
    rw [hs, hbody, Draft.body, ← hrest]
    simp
  have hskip : s.skipBlank.stream = f.name.toList ++ ':' :: rest := by
    rw [Scanner.stream_skipBlank, hsplit]
    exact trimStart_eq_self_iff.2
      ((trim_eq_self_iff.1 h.trim_eq).1.append (flush_cons.2 (by decide)))
  have hcolon : ∀ c ∈ f.name.toList, decide (c = ':') = false := by
    rintro c hc
    have hne : c ≠ ':' := by
      rintro rfl
      exact h.char _ hc (by decide)
    simpa using hne
  -- the name, the colon, the metadata and the entries are read one behind the other
  obtain ⟨t, hread, ht⟩ := Scanner.readUntil_of_stream (fun c => decide (c = ':')) hskip hcolon
    (by simp)
  obtain ⟨u, haccept, hu⟩ := Scanner.accept_of_stream ht
  have hreturn' : '\r' ∉ u.stream := by
    intro hmem
    rw [hu] at hmem
    exact hreturn (by simp [hsplit, hmem])
  obtain ⟨metadata, v, hmetadata, hcontent, hv⟩ :=
    readMetadata_of_stream h hdecimals hpad hreturn' (hu.trans hrest.symm)
  have hblank : (blank f.name metadata engine).Built natives f.name engine [] :=
    built_blank metadata
  obtain ⟨p, hitems, hp, hbuilt⟩ := readItems_of_stream hengine h.entries hpad hblank hv
  have hname : Node.keyOf f.name.toList = f.name := by
    rw [Node.keyOf, h.trim_eq, String.ofList_toList]
  refine ⟨p, ?_, by rw [hp, ← hcontent]; rfl, hbuilt⟩
  simp only [readInside, Scanner.readUntilChar, hread, haccept, hmetadata, hname, hitems]

theorem parse_of_findSection {natives : Registry α} {text : String} {body : Scanner.Section}
    {t : Scanner} (h : (Scanner.ofString text).findSection '[' ']' = (.ok body, t)) :
    parse natives engine text = readInside natives engine body.scanner := by
  simp only [parse, read, h]
  rfl

/-- **Procedures are read back**: what is read from a procedure as it is written has its name, with its
line ends unified, what the metadata holds, and what the clauses bring in. -/
theorem parse_draft (natives : Registry α) (hengine : engine.strictNatives = false)
    {f : Draft} (h : f.Legal) (hdecimals : f.DecimalsReadBack) :
    ∃ p, parse natives engine (String.ofList f.text) = .ok p ∧
      p.metadata.map Node.content = f.metadata.map (fun q => q.2.contentWith Scalar.asRead) ∧
      p.Built natives (String.ofList (lineFeeds f.name.toList)) engine
        (f.entries.map Entry.clause) := by
  -- line ends are unified for the whole text first, so the section is that of a draft without
  -- carriage returns
  have hstream : (Scanner.ofString (String.ofList f.text)).stream =
      [] ++ '[' :: (f.unified.body ++ [']', '\n']) := by
    rw [Node.stream_ofString, String.toList_ofList, unifyLineEnds_eq,
      Draft.lineFeeds_text h hdecimals, Draft.text, ← List.cons_append,
      endLine_concat (by decide)]
    rfl
  have hreturn : '\r' ∉ f.unified.body := by
    have hall : '\r' ∉ f.unified.text := by
      rw [← Draft.lineFeeds_text h hdecimals]
      exact not_mem_lineFeeds f.text
    exact fun hmem => hall (by simp [Draft.text, hmem])
  obtain ⟨origin, t, hfind, -⟩ :=
    Scanner.findSection_complete (by decide) List.not_mem_nil h.unified.balanced_body hstream
  have hbody := Scanner.stream_scanner ⟨f.unified.body, origin⟩ hreturn
  have hdecimals' : f.unified.DecimalsReadBack := by
    intro q hq
    obtain ⟨r, hr, rfl⟩ := Option.map_eq_some_iff.1 hq
    exact hdecimals r hr
  obtain ⟨p, hread, hmetadata, hbuilt⟩ := readInside_of_stream natives hengine h.unified hdecimals'
    (by rw [hbody]; exact not_mem_endLine hreturn (by decide)) hbody
  refine ⟨p, ?_, ?_, ?_⟩
  · rw [parse_of_findSection hfind, hread]
  · rw [hmetadata, Draft.unified, Option.map_map]
    rfl
  · have hclauses : f.unified.entries.map Entry.clause = f.entries.map Entry.clause := by
      rw [Draft.unified, List.map_map]
      rfl
    rwa [hclauses] at hbuilt

/-- A procedure with metadata, a parameter, an assignment and a call. -/
def scaleDraft : Draft where
  name := "scale"
  metadata := some ([' '], .branch "meta" ⟨[.leaf "level" (.integer 3)], 4⟩)
  entries := [⟨['\n'], .parameter "x", []⟩,
    ⟨['\n'], .assignment .integer "y" (.binary .plus (.literal "x") (.literal "1")), []⟩,
    ⟨['\n'], .untypedCall "print" [⟨some .integer, .literal "y"⟩, ⟨none, .literal "x"⟩], [';']⟩]
  pad := ['\n']

theorem parse_draft_sample :
    ∃ p, parse (Registry.empty.register "print" ()) {} (String.ofList scaleDraft.text) = .ok p ∧
      p.metadata.map Node.content =
        scaleDraft.metadata.map (fun q => q.2.contentWith Scalar.asRead) ∧
      p.Built (Registry.empty.register "print" ()) (String.ofList (lineFeeds scaleDraft.name.toList))
        {} (scaleDraft.entries.map Entry.clause) := by
  have hvalue : ∀ text, Expr.IsToken text → '[' ∉ text.toList → IsValue (.literal text) :=
    fun text htoken hbracket => ⟨Or.inl htoken, hbracket⟩
  have hx : IsValue (.literal "x") := hvalue "x" (by decide) (by decide)
  have hy : IsValue (.literal "y") := hvalue "y" (by decide) (by decide)
  have hone : IsValue (.literal "1") := hvalue "1" (by decide) (by decide)
  have hsum : IsValue (.binary .plus (.literal "x") (.literal "1")) :=
    ⟨⟨hx.printable, hone.printable⟩, by decide⟩
  have hkeys : ["meta", "level", "scale"].all (fun key => decide (Node.LegibleKey key) &&
      key.toList.all (· ∉ keyStops)) = true := by decide
  have hkey : ∀ key ∈ ["meta", "level", "scale"], Node.LegibleKey key ∧
      ∀ c ∈ key.toList, c ∉ keyStops := fun key h => by
    simpa using List.all_eq_true.1 hkeys key h
  have hmeta : Node.WellFormed (.branch "meta" ⟨[.leaf "level" (.integer 3)], 4⟩) := by
    refine Node.everywhere_branch.2 ⟨⟨(hkey _ (by simp)).1, (hkey _ (by simp)).2, ?_⟩,
      List.forall_mem_singleton.2 (Node.everywhere_leaf.2
        ⟨(hkey _ (by simp)).1, (hkey _ (by simp)).2, trivial⟩)⟩
    exact List.pairwise_singleton _ _
  refine parse_draft _ rfl ⟨by decide, (hkey "scale" (by simp)).2, ?_, ?_, allBlank_lineFeed⟩ ?_
  · intro q hq
    obtain rfl := Option.some.inj hq
    exact ⟨allBlank_space, rfl, hmeta⟩
  · refine List.forall_mem_cons.2 ⟨⟨allBlank_lineFeed, ?_, rfl⟩, List.forall_mem_cons.2
      ⟨⟨allBlank_lineFeed, ?_, rfl⟩, List.forall_mem_singleton.2 ⟨allBlank_lineFeed, ?_, Or.inr ⟨[], allBlank_nil, rfl⟩⟩⟩⟩
    · show IsName "x"
      decide
    · exact ⟨by decide, hsum⟩
    · exact ⟨by decide, by decide, List.forall_mem_cons.2 ⟨hy, List.forall_mem_singleton.2 hx⟩⟩
  · intro q hq
    obtain rfl := Option.some.inj hq
    exact Node.everywhere_branch.2
      ⟨trivial, List.forall_mem_singleton.2 (Node.everywhere_leaf.2 trivial)⟩

/-- The line ends in a name are not kept. -/
theorem exists_name_ne : ¬ ∀ f : Draft, f.Legal → f.DecimalsReadBack →
    ∃ p, parse (Registry.empty : Registry Unit) {} (String.ofList f.text) = .ok p ∧
      p.name = f.name := by
  intro h
  have hchars : "a\rb".toList.all (· ∉ keyStops) = true := by decide
  obtain ⟨p, hparse, hname⟩ := h ⟨"a\rb", none, [], []⟩
    ⟨by decide, by simpa using hchars, by simp, by simp, allBlank_nil⟩ (by simp [Draft.DecimalsReadBack])
  have hread : (match parse (Registry.empty : Registry Unit) {}
      (String.ofList (Draft.mk "a\rb" none [] []).text) with
      | .ok p => p.name == "a\nb"
      | .error _ => false) = true := by
    with_unfolding_all rfl
  rw [hparse] at hread
  exact absurd ((eq_of_beq hread).symm.trans hname) (by decide)

end Procedure

end TreeScript
