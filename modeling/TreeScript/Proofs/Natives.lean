import TreeScript.Procedure.Reader
import TreeScript.Proofs.Maps
import TreeScript.Proofs.Recognition

/-!
# The native functions on offer

How a procedure is read does not depend on the native functions that are on offer.  Its text has an
outline: a name, metadata and items, up to the first item that cannot be read.  Only when the items are
added does it matter which of them call a native function that is not on offer; an engine that is not
strict leaves those out, and a strict one refuses the first of them.

- `Outline`, `Procedure.outline`, `parse_eq_build`: reading a procedure, in two stages.
- `Procedure.restrict`, `build_restrict`: fewer native functions, fewer calls.
- `Outline.build_strict_iff`: a strict engine, and one that is not.
- `parse_eq_map_restrict`: both for the procedure of a text.
-/

namespace TreeScript

/-! ### Outlines -/

/-- What the text of a procedure says, whatever native functions there are. -/
structure Outline where
  name : String
  metadata : Option Node
  /-- The items up to the first one that cannot be read. -/
  items : List Item
  /-- Why that one cannot be read. -/
  failure : Option Error

namespace Outline

/-- The procedure that an outline makes. -/
def build {α : Type} (natives : Registry α) (engine : Engine) (o : Outline) :
    Except Error Procedure := do
  let p ← o.items.foldlM (Procedure.addItem natives) (.blank o.name o.metadata engine)
  match o.failure with
  | none => .ok p
  | some e => .error e

end Outline

namespace Procedure

/-- The items of a text up to the first one that cannot be read, and why that one cannot. -/
def outlineItems (s : Scanner) : List Item × Option Error :=
  if s.skipBlank.stream.isEmpty then ([], none)
  else
    match _h : Item.read s.skipBlank with
    | (.error e, _) => ([], some e)
    | (.ok item, t) => (item :: (outlineItems t).1, (outlineItems t).2)
termination_by s.remaining
decreasing_by
  all_goals
    have h₁ := s.remaining_skipBlank_le
    have h₂ := Item.remaining_read_lt _h
    omega

/-- The outline of the inside of a procedure. -/
def outlineInside (s : Scanner) : Except Error Outline :=
  let (name, t) := s.skipBlank.readUntilChar ':' false
  let name := Node.keyOf name
  match t.accept ':' with
  | (false, _) => .error (.malformed (.functionNameUnclosed name) s.skipBlank.position)
  | (true, u) =>
    match readMetadata u with
    | (.error e, _) => .error e
    | (.ok metadata, v) => .ok ⟨name, metadata, (outlineItems v).1, (outlineItems v).2⟩

/-- The outline of the first procedure of a text. -/
def outline (text : String) : Except Error Outline :=
  ((Scanner.ofString text).findSection '[' ']').1.bind fun body => outlineInside body.scanner

variable {α β : Type} {natives : Registry α} {larger : Registry β} {engine : Engine}

/-- Items can be added behind the last one, as well as each when it is read. -/
theorem readItems_eq_outlineItems (p : Procedure) (s : Scanner) :
    readItems natives p s = (do
      let q ← (outlineItems s).1.foldlM (addItem natives) p
      match (outlineItems s).2 with
      | none => .ok q
      | some e => .error e) := by
  fun_induction readItems natives p s with
  | case1 p s hend =>
    rw [outlineItems, if_pos hend]
    rfl
  | case2 p s hmore e t hitem =>
    rw [outlineItems, if_neg hmore, hitem]
    rfl
  | case3 p s hmore item t hitem e hadd =>
    rw [outlineItems, if_neg hmore, hitem]
    show _ = ((item :: (outlineItems t).1).foldlM (addItem natives) p >>= _)
    rw [List.foldlM_cons, hadd]
    rfl
  | case4 p s hmore item t hitem q hadd ih =>
    rw [outlineItems, if_neg hmore, hitem, ih]
    show _ = ((item :: (outlineItems t).1).foldlM (addItem natives) p >>= _)
    rw [List.foldlM_cons, hadd]
    rfl

theorem readInside_eq_build (s : Scanner) :
    readInside natives engine s = (outlineInside s).bind (Outline.build natives engine) := by
  simp only [readInside, outlineInside]
  rcases (s.skipBlank.readUntilChar ':' false).2.accept ':' with ⟨found, u⟩
  cases found with
  | false => rfl
  | true =>
    rcases hmetadata : readMetadata u with ⟨metadata, v⟩
    cases metadata with
    | error e => simp [hmetadata, Except.bind]
    | ok metadata =>
      simp only [hmetadata]
      exact readItems_eq_outlineItems _ _

theorem fst_read (s : Scanner) :
    (read natives engine s).1 =
      (s.findSection '[' ']').1.bind fun body => readInside natives engine body.scanner := rfl

/-- A procedure is read in two stages, and the first one knows nothing of native functions. -/
theorem parse_eq_build (text : String) :
    parse natives engine text = (outline text).bind (Outline.build natives engine) := by
  rw [parse, fst_read, outline]
  simp only [readInside_eq_build]
  exact (bind_assoc (((Scanner.ofString text).findSection '[' ']').1) _ _).symm

/-! ### Fewer native functions -/

end Procedure

namespace Registry

variable {α : Type}

/-- Whether a statement can be carried out: what it calls is on offer. -/
def offers (natives : Registry α) : Statement → Bool
  | .assign _ _ => true
  | .call native _ => natives.contains native

/-- Whether an item calls something that is not on offer. -/
def lacks (natives : Registry α) : Item → Bool
  | .call native _ _ => !natives.contains native
  | _ => false

end Registry

namespace Procedure

variable {α β : Type} {natives : Registry α} {larger : Registry β} {engine : Engine}

/-- A procedure without its calls to native functions that are not on offer. -/
def restrict (natives : Registry α) (p : Procedure) : Procedure :=
  { p with statements := p.statements.filter natives.offers }

theorem restrict_addStatement {s : Statement} (h : natives.offers s = true) (p : Procedure) :
    (p.addStatement s).restrict natives = (p.restrict natives).addStatement s := by
  simp [restrict, addStatement, h]

theorem restrict_addStatement_of_not {s : Statement} (h : natives.offers s = false)
    (p : Procedure) : (p.addStatement s).restrict natives = p.restrict natives := by
  simp [restrict, addStatement, h]

/-- An item adds to the restricted procedure what is left of what it adds to the whole one. -/
theorem addItem_restrict
    (h : ∀ name, natives.contains name = true → larger.contains name = true) {p : Procedure}
    (hp : p.engine.strictNatives = false) (item : Item) :
    (p.restrict natives).addItem natives item = (p.addItem larger item).map (restrict natives) := by
  cases item with
  | declare keyword name => rfl
  | assign keyword name value =>
    exact congrArg Except.ok (restrict_addStatement rfl (p.declare keyword name)).symm
  | call native arguments position =>
    cases hoffered : natives.contains native with
    | true =>
      have hlarger : larger.contains native = true := h native hoffered
      simp only [addItem, hoffered, hlarger, if_true]
      exact congrArg Except.ok (restrict_addStatement (s := .call native arguments) hoffered p).symm
    | false =>
      have hstrict : (p.restrict natives).engine.strictNatives = false := hp
      simp only [addItem, hoffered, hstrict, hp, Bool.false_eq_true, if_false]
      split
      · exact congrArg Except.ok
          (restrict_addStatement_of_not (s := .call native arguments) hoffered p).symm
      · rfl

theorem engine_addItem {p q : Procedure} {item : Item} (h : p.addItem natives item = .ok q) :
    q.engine = p.engine := by
  cases item with
  | declare keyword name =>
    obtain rfl := Except.ok.inj h
    rfl
  | assign keyword name value =>
    obtain rfl := Except.ok.inj h
    rfl
  | call native arguments position =>
    rw [addItem] at h
    split at h
    · obtain rfl := Except.ok.inj h
      rfl
    · split at h
      · cases h
      · obtain rfl := Except.ok.inj h
        rfl

theorem addItems_restrict
    (h : ∀ name, natives.contains name = true → larger.contains name = true) {p : Procedure}
    (hp : p.engine.strictNatives = false) (items : List Item) :
    items.foldlM (addItem natives) (p.restrict natives) =
      (items.foldlM (addItem larger) p).map (restrict natives) := by
  induction items generalizing p with
  | nil => rfl
  | cons item items ih =>
    rw [List.foldlM_cons, List.foldlM_cons, addItem_restrict h hp]
    cases hadd : p.addItem larger item with
    | error e => rfl
    | ok q =>
      have hq : q.engine.strictNatives = false := by rw [engine_addItem hadd, hp]
      exact ih hq

/-- An outline makes fewer calls where fewer native functions are on offer, and nothing else changes. -/
theorem build_restrict
    (h : ∀ name, natives.contains name = true → larger.contains name = true)
    (hengine : engine.strictNatives = false) (o : Outline) :
    o.build natives engine = (o.build larger engine).map (restrict natives) := by
  have hitems := addItems_restrict h (p := blank o.name o.metadata engine) hengine o.items
  have hblank : (blank o.name o.metadata engine).restrict natives =
      blank o.name o.metadata engine := rfl
  rw [hblank] at hitems
  rw [Outline.build, Outline.build, hitems]
  cases o.items.foldlM (addItem larger) (blank o.name o.metadata engine) with
  | error e => rfl
  | ok p =>
    cases o.failure with
    | none => rfl
    | some e => rfl

/-! ### Strict engines -/

/-- A procedure with another engine. -/
def withEngine (engine : Engine) (p : Procedure) : Procedure := { p with engine := engine }

variable {strict : Engine} {p : Procedure} {items : List Item}

/-- A strict engine takes items that lack nothing as any other engine does. -/
theorem addItem_withEngine {item : Item} (h : natives.lacks item = false) :
    (p.withEngine strict).addItem natives item =
      (p.addItem natives item).map (withEngine strict) := by
  cases item with
  | declare keyword name => rfl
  | assign keyword name value => rfl
  | call native arguments position =>
    have hoffered : natives.contains native = true := by simpa [Registry.lacks] using h
    simp only [addItem, hoffered, if_true]
    rfl

/-- A strict engine refuses an item that lacks something. -/
theorem exists_addItem_eq_error (hstrict : strict.strictNatives = true) {item : Item}
    (h : natives.lacks item = true) :
    ∃ e, (p.withEngine strict).addItem natives item = .error e := by
  cases item with
  | declare keyword name => cases h
  | assign keyword name value => cases h
  | call native arguments position =>
    have hoffered : natives.contains native = false := by simpa [Registry.lacks] using h
    have hengine : (p.withEngine strict).engine.strictNatives = true := hstrict
    simp only [addItem, hoffered, hengine, Bool.false_eq_true, if_false, if_true]
    exact ⟨_, rfl⟩

theorem addItems_withEngine (h : ∀ item ∈ items, natives.lacks item = false) :
    items.foldlM (addItem natives) (p.withEngine strict) =
      (items.foldlM (addItem natives) p).map (withEngine strict) := by
  induction items generalizing p with
  | nil => rfl
  | cons item items ih =>
    obtain ⟨hfirst, hothers⟩ := List.forall_mem_cons.1 h
    rw [List.foldlM_cons, List.foldlM_cons, addItem_withEngine hfirst]
    cases p.addItem natives item with
    | error e => rfl
    | ok q => exact ih hothers

theorem exists_addItems_eq_error (hstrict : strict.strictNatives = true) {item : Item}
    (hmem : item ∈ items) (h : natives.lacks item = true) :
    ∃ e, items.foldlM (addItem natives) (p.withEngine strict) = .error e := by
  induction items generalizing p with
  | nil => cases hmem
  | cons first items ih =>
    rw [List.foldlM_cons]
    cases hfirst : natives.lacks first with
    | true =>
      obtain ⟨e, he⟩ := exists_addItem_eq_error (p := p) hstrict hfirst
      exact ⟨e, by rw [he]; rfl⟩
    | false =>
      have hrest : item ∈ items := by
        rcases List.mem_cons.1 hmem with rfl | hmem
        · rw [hfirst] at h
          cases h
        · exact hmem
      rw [addItem_withEngine hfirst]
      cases p.addItem natives first with
      | error e => exact ⟨e, rfl⟩
      | ok q => exact ih hrest

end Procedure

namespace Outline

variable {α : Type} {natives : Registry α} {lenient strict : Engine} {o : Outline}

/-- The items that call something that is not on offer. -/
def lacking (natives : Registry α) (o : Outline) : List Item := o.items.filter natives.lacks

theorem lacking_eq_nil_iff : o.lacking natives = [] ↔ ∀ item ∈ o.items, natives.lacks item = false := by
  simp [lacking, List.filter_eq_nil_iff]

/-- A strict engine makes of an outline what another engine makes, if nothing is lacking. -/
theorem build_strict_iff (hstrict : strict.strictNatives = true) {p : Procedure} :
    o.build natives strict = .ok p ↔
      ∃ q, o.build natives lenient = .ok q ∧ o.lacking natives = [] ∧ p = q.withEngine strict := by
  by_cases hlacking : o.lacking natives = []
  · have hitems : o.items.foldlM (Procedure.addItem natives)
        ((Procedure.blank o.name o.metadata lenient).withEngine strict) =
          (o.items.foldlM (Procedure.addItem natives) (.blank o.name o.metadata lenient)).map
            (Procedure.withEngine strict) :=
      Procedure.addItems_withEngine (lacking_eq_nil_iff.1 hlacking)
    have hbuild : o.build natives strict =
        (o.build natives lenient).map (Procedure.withEngine strict) := by
      show (o.items.foldlM (Procedure.addItem natives)
        ((Procedure.blank o.name o.metadata lenient).withEngine strict) >>= _) = _
      rw [hitems, build]
      cases o.items.foldlM (Procedure.addItem natives)
        (.blank o.name o.metadata lenient) with
      | error e => rfl
      | ok q => cases o.failure <;> rfl
    rw [hbuild, map_eq_ok_iff]
    simp only [hlacking, true_and, eq_comm]
  · obtain ⟨item, hitem⟩ := List.exists_mem_of_ne_nil _ hlacking
    obtain ⟨hmem, hlacks⟩ := List.mem_filter.1 hitem
    obtain ⟨e, he⟩ := Procedure.exists_addItems_eq_error
      (p := .blank o.name o.metadata lenient) hstrict hmem hlacks
    have hbuild : o.build natives strict = .error e := by
      show (o.items.foldlM (Procedure.addItem natives)
        ((Procedure.blank o.name o.metadata lenient).withEngine strict) >>= _) = _
      rw [he]
      rfl
    simp [hbuild, hlacking]

end Outline

namespace Procedure

variable {α β : Type} {natives : Registry α} {larger : Registry β}

/-- The items of the first procedure of a text that call something that is not on offer. -/
def lacking (natives : Registry α) (text : String) : List Item :=
  match outline text with
  | .ok o => o.lacking natives
  | .error _ => []

/-- **Calls to native functions that are not on offer are left out, and nothing else changes**; a strict
engine takes exactly the procedures of which nothing is left out. -/
theorem parse_eq_map_restrict
    (h : ∀ name, natives.contains name = true → larger.contains name = true) (policy : WritePolicy)
    (text : String) :
    parse natives ⟨false, policy⟩ text =
        (parse larger ⟨false, policy⟩ text).map (restrict natives) ∧
      ∀ p, parse natives ⟨true, policy⟩ text = .ok p ↔
        ∃ q, parse natives ⟨false, policy⟩ text = .ok q ∧ lacking natives text = [] ∧
          p = q.withEngine ⟨true, policy⟩ := by
  rw [parse_eq_build, parse_eq_build, parse_eq_build, lacking]
  cases outline text with
  | error e => simp [Except.bind, Except.map]
  | ok o => exact ⟨build_restrict h rfl o, fun p => o.build_strict_iff rfl⟩

theorem parse_eq_map_restrict_sample :
    (∀ name, (Registry.ofNames ["log"]).contains name = true →
      (Registry.ofNames ["log", "print"]).contains name = true) ∧
    (parse (Registry.ofNames ["log", "print"]) ⟨false, .callerFirst⟩
      "[f: print[1] log[2]; int x: 3; print[x];]").map (·.statements.map Statement.written) =
      .ok ["print[decimal 1]", "log[decimal 2]", "x <- integer 3", "print[decimal x]"] ∧
    parse (Registry.ofNames ["log"]) ⟨false, .callerFirst⟩ "[f: print[1] log[2]; int x: 3; print[x];]" =
      (parse (Registry.ofNames ["log", "print"]) ⟨false, .callerFirst⟩
        "[f: print[1] log[2]; int x: 3; print[x];]").map (restrict (Registry.ofNames ["log"])) ∧
    ∀ p, parse (Registry.ofNames ["log"]) ⟨true, .callerFirst⟩
      "[f: print[1] log[2]; int x: 3; print[x];]" ≠ .ok p := by
  have hnames : ∀ name, (Registry.ofNames ["log"]).contains name = true →
      (Registry.ofNames ["log", "print"]).contains name = true := by
    intro name hname
    have hkeys : (Registry.ofNames ["log"]).bindings.keys = ["log"] := by with_unfolding_all rfl
    have hmem := KeyedList.contains_iff_mem_keys.1 hname
    rw [hkeys] at hmem
    obtain rfl := List.mem_singleton.1 hmem
    with_unfolding_all rfl
  obtain ⟨hrestrict, hstrict⟩ := parse_eq_map_restrict hnames .callerFirst
    "[f: print[1] log[2]; int x: 3; print[x];]"
  refine ⟨hnames, by with_unfolding_all rfl, hrestrict, ?_⟩
  intro p hp
  obtain ⟨-, -, hlacking, -⟩ := (hstrict p).1 hp
  have hlength : (lacking (Registry.ofNames ["log"])
      "[f: print[1] log[2]; int x: 3; print[x];]").length = 2 := by
    with_unfolding_all rfl
  rw [hlacking] at hlength
  cases hlength

end Procedure

end TreeScript
